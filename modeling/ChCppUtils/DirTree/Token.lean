import ChCppUtils.Basic
import ChCppUtils.Lib.Split

/-!
# Keys and tokens (dirtree.cpp)

`normalize` puts a key under the directory `.`, and `getNextToken` reads the token at an offset. The
loops of `DirTree` walk a key token by token and stop at the first empty one; `tokens` is the list
they see. It is `Split.lead`, so what follows an empty token is never looked at (`tokens_eq`).
-/

namespace ChCppUtils.DirTree

open Split

/-- `key[0]`, which is `'\0'` in an empty string. -/
def char0 (key : Str) : Char := key.headD '\x00'

def normalize (key : Str) : Str :=
  if char0 key ≠ '/' ∧ char0 key ≠ '.' then ['.', '/'] ++ key
  else if char0 key = '/' then ['.'] ++ key
  else key

/-- `path.find("/", from)` and `path.substr(from, pos - from)`. Where there is no `/` left, `pos` is
`npos`, the difference exceeds what is left of the string, and `substr` stops at its end. -/
def getNextToken (path : Str) (frm : Nat) : Str := next '/' path frm

def isLastToken (path : Str) (frm : Nat) : Bool :=
  let token := getNextToken path frm
  if 0 = token.length then true else false

/-- The tokens of repeated `getNextToken` calls from an offset, up to the first empty one. -/
def tokensFrom (key : Str) : Nat → Nat → List Str
  | 0, _ => []
  | n + 1, frm =>
    let token := getNextToken key frm
    if token.length = 0 then [] else token :: tokensFrom key n (frm + token.length + 1)

/-- The tokens an operation of the tree reads off a key. -/
def tokens (key : Str) : List Str :=
  tokensFrom (normalize key) ((normalize key).length + 1) 0

theorem isLastToken_iff {path : Str} {frm : Nat} : isLastToken path frm = true ↔ getNextToken path frm = [] := by
  unfold isLastToken
  cases getNextToken path frm <;> simp

/-- A loop over the tokens has iterations to spare: `n` are left at offset `frm`. -/
def Fuel (key : Str) (n frm : Nat) : Prop := 0 < n ∧ key.length < frm + n

theorem Fuel.init (key : Str) : Fuel key (key.length + 1) 0 := ⟨by omega, by omega⟩

theorem Fuel.next {key : Str} {n frm : Nat} (h : Fuel key (n + 1) frm) (ht : getNextToken key frm ≠ []) :
    Fuel key n (frm + (getNextToken key frm).length + 1) := by
  have := lt_of_next_ne_nil ht
  have := List.length_pos_of_ne_nil ht
  exact ⟨by have := h.2; omega, by have := h.2; omega⟩

theorem tokensFrom_eq {key : Str} {n frm : Nat} (h : Fuel key n frm) :
    tokensFrom key n frm = lead '/' (key.drop frm) := by
  induction n generalizing frm with
  | zero => exact absurd h.1 (Nat.lt_irrefl 0)
  | succ n ih =>
    rw [lead_drop, tokensFrom]
    change (if (getNextToken key frm).length = 0 then [] else _) = if getNextToken key frm = [] then [] else _
    by_cases ht : getNextToken key frm = []
    · simp [ht]
    · rw [if_neg (by simpa using ht), if_neg ht, ih (h.next ht)]
      rfl

theorem tokens_eq (key : Str) : tokens key = lead '/' (normalize key) := by
  rw [tokens, tokensFrom_eq (Fuel.init _), List.drop_zero]

theorem tokensFrom_cons {key : Str} {n frm : Nat} (ht : getNextToken key frm ≠ []) :
    tokensFrom key (n + 1) frm =
      getNextToken key frm :: tokensFrom key n (frm + (getNextToken key frm).length + 1) := by
  rw [tokensFrom]
  exact if_neg (by simpa using ht)

theorem tokensFrom_nil {key : Str} {n frm : Nat} (ht : getNextToken key frm = []) :
    tokensFrom key n frm = [] := by
  cases n with
  | zero => rfl
  | succ n => simp [tokensFrom, ht]

theorem tokensFrom_eq_nil_iff {key : Str} {n frm : Nat} (h : 0 < n) :
    tokensFrom key n frm = [] ↔ getNextToken key frm = [] := by
  obtain ⟨n, rfl⟩ := Nat.exists_eq_succ_of_ne_zero h.ne'
  by_cases ht : getNextToken key frm = []
  · simp [tokensFrom_nil ht, ht]
  · simp [tokensFrom_cons ht, ht]

theorem ne_nil_of_mem_tokens {key t : Str} (h : t ∈ tokens key) : t ≠ [] := by
  rw [tokens_eq] at h
  exact ne_nil_of_mem_lead h

/-! ### The first token -/

theorem char0_append {xs ys : Str} (h : xs ≠ []) : char0 (xs ++ ys) = char0 xs := by
  cases xs with
  | nil => exact absurd rfl h
  | cons x xs => rfl

theorem char0_normalize (key : Str) : char0 (normalize key) = '.' := by
  unfold normalize
  split
  · rfl
  · split
    · rfl
    · rename_i h₁ h₂; by_contra h; exact h₁ ⟨h₂, h⟩

theorem normalize_of_dot (h : char0 key = '.') : normalize key = key := by
  unfold normalize
  rw [if_neg (by simp [h]), if_neg (by rw [h]; decide)]

theorem normalize_normalize (key : Str) : normalize (normalize key) = normalize key :=
  normalize_of_dot (char0_normalize key)

theorem tokens_normalize (key : Str) : tokens (normalize key) = tokens key := by
  rw [tokens, normalize_normalize, tokens]

theorem exists_tokens_eq_cons (key : Str) : ∃ s ts, tokens key = ('.' :: s) :: ts := by
  rw [tokens_eq]
  have h0 := char0_normalize key
  obtain ⟨rest, hr⟩ : ∃ rest, normalize key = '.' :: rest := by
    cases hk : normalize key with
    | nil => rw [hk] at h0; exact absurd h0 (by decide)
    | cons c rest => rw [hk] at h0; exact ⟨rest, by rw [show c = '.' from h0]⟩
  have ht : ('.' :: rest).takeWhile (· ≠ '/') = '.' :: rest.takeWhile (· ≠ '/') := rfl
  rw [hr, lead_eq_takeWhile, ht, if_neg (List.cons_ne_nil _ _)]
  exact ⟨_, _, rfl⟩

theorem tokens_ne_nil (key : Str) : tokens key ≠ [] := by
  obtain ⟨s, ts, h⟩ := exists_tokens_eq_cons key
  simp [h]

end ChCppUtils.DirTree
