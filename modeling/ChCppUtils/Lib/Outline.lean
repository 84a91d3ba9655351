import Mathlib.Data.List.Basic

/-!
# Outlines

A forest written down in preorder, each label with its level. Reading from the last line back, a line takes the
forest that begins one level below it for its children, and the one at its own level for its siblings
(`readLine`). So every outline is read back (`read_outline`).
-/

/-- A list of trees: the label of the first, its children, and the other trees. -/
inductive Forest (α : Type*) where
  | nil
  | cons (label : α) (children rest : Forest α)
deriving DecidableEq, Repr

namespace Forest

variable {α : Type*} {d : Nat} {f : Nat → Forest α}

def append : Forest α → Forest α → Forest α
  | nil, g => g
  | cons a cs rest, g => cons a cs (rest.append g)

/-- The lines of the forest, whose roots are at level `d`. -/
def outline : Nat → Forest α → List (Nat × α)
  | _, nil => []
  | d, cons a cs rest => (d, a) :: (cs.outline (d + 1) ++ rest.outline d)

/-- `f k` is the forest of level `k` that the lines behind this one begin with. -/
def readLine (line : Nat × α) (f : Nat → Forest α) : Nat → Forest α := fun k =>
  if k = line.1 then cons line.2 (f (line.1 + 1)) (f line.1) else if k < line.1 then f k else nil

def read (d : Nat) (lines : List (Nat × α)) : Forest α := lines.foldr readLine (fun _ => nil) d

/-- What a forest in front of the lines does to `f`. -/
def before (d : Nat) (F : Forest α) (f : Nat → Forest α) : Nat → Forest α := fun k =>
  if k = d then F.append (f d) else f k

theorem append_nil (F : Forest α) : F.append nil = F := by
  induction F with
  | nil => rfl
  | cons a cs rest _ ih => rw [append, ih]

theorem before_self (d : Nat) (F : Forest α) (f : Nat → Forest α) : F.before d f d = F.append (f d) := if_pos rfl

theorem before_of_ne {k : Nat} (hk : k ≠ d) (F : Forest α) (f : Nat → Forest α) : F.before d f k = f k := if_neg hk

theorem before_nil (d : Nat) (f : Nat → Forest α) : nil.before d f = f := by
  funext k
  by_cases hk : k = d
  · subst hk
    exact before_self k nil f
  · exact before_of_ne hk nil f

theorem foldr_outline (F : Forest α) (h : ∀ k, d < k → f k = nil) :
    (F.outline d).foldr readLine f = F.before d f := by
  induction F generalizing d f with
  | nil =>
    rw [before_nil]
    rfl
  | cons a cs rest ihc ihr =>
    have hnext : d + 1 ≠ d := Nat.succ_ne_self d
    have hnil : ∀ k, d < k → rest.before d f k = nil := by
      intro k hk
      rw [before_of_ne (Nat.ne_of_gt hk)]
      exact h k hk
    rw [outline, List.foldr_cons, List.foldr_append, ihr h, ihc fun k hk => hnil k (Nat.lt_of_succ_lt hk)]
    funext k
    rw [readLine]
    by_cases hk : k = d
    · subst hk
      rw [if_pos rfl, before_self, before_self, hnil _ (Nat.lt_succ_self k), append_nil, before_of_ne hnext.symm,
        before_self]
      rfl
    · rw [if_neg hk, before_of_ne hk]
      by_cases hlt : k < d
      · rw [if_pos hlt, before_of_ne (Nat.ne_of_lt (Nat.lt_succ_of_lt hlt)), before_of_ne hk]
      · rw [if_neg hlt, h k (by omega)]

theorem read_outline (d : Nat) (F : Forest α) : read d (F.outline d) = F := by
  rw [read, foldr_outline F fun _ _ => rfl, before_self, append_nil]

/-! ### Paths -/

/-- There is a node at the end of these labels; the empty path ends above the roots. -/
def Reaches : Forest α → List α → Prop
  | _, [] => True
  | nil, _ :: _ => False
  | cons b cs rest, a :: p => b = a ∧ cs.Reaches p ∨ rest.Reaches (a :: p)

variable {F cs rest : Forest α} {a b : α} {p : List α}

theorem reaches_nil (F : Forest α) : F.Reaches [] := by
  cases F with
  | nil => trivial
  | cons b cs rest => trivial

theorem not_reaches_cons : ¬ (nil : Forest α).Reaches (a :: p) := id

theorem reaches_cons : (cons b cs rest).Reaches (a :: p) ↔ b = a ∧ cs.Reaches p ∨ rest.Reaches (a :: p) := Iff.rfl

theorem Reaches.behind (h : F.Reaches p) (b : α) (cs : Forest α) : (cons b cs F).Reaches p := by
  cases p with
  | nil => exact reaches_nil _
  | cons a p => exact .inr h

/-- A line stands for a node, and its level is the length of the path to its parent. -/
theorem exists_reaches {l : Nat} (h : (l, a) ∈ F.outline d) : ∃ p, F.Reaches (p ++ [a]) ∧ l = d + p.length := by
  induction F generalizing d with
  | nil => cases h
  | cons b cs rest ihc ihr =>
    rw [outline, List.mem_cons, List.mem_append] at h
    rcases h with h | h | h
    · obtain ⟨rfl, rfl⟩ := Prod.mk.inj h
      exact ⟨[], .inl ⟨rfl, reaches_nil cs⟩, rfl⟩
    · obtain ⟨p, hp, rfl⟩ := ihc h
      refine ⟨b :: p, .inl ⟨rfl, hp⟩, ?_⟩
      rw [List.length_cons, Nat.succ_add_eq_add_succ]
    · obtain ⟨p, hp, rfl⟩ := ihr h
      exact ⟨p, hp.behind b cs, rfl⟩

end Forest
