import Mathlib.Algebra.Group.Nat.Defs
import Mathlib.Data.List.Basic
import Mathlib.Data.List.Induction

/-!
# Binary digits and groups of them

`bits k n` are the last `k` binary digits of `n`, the highest first. `groups k` cuts a list into groups of
`k`, and drops what is left at the end; `padTo k` fills the last group up. A number below `2 ^ k` is its `k`
digits (`ofBits_bits`), and digits written one number after the other are read back in groups
(`groups_flatMap`).
-/

namespace Bits

variable {α β : Type*} {k : Nat}

def bits : Nat → Nat → List Bool
  | 0, _ => []
  | k + 1, n => bits k (n / 2) ++ [n % 2 == 1]

def ofBits (l : List Bool) : Nat := l.foldl (fun n b => 2 * n + b.toNat) 0

@[simp] theorem length_bits (k n : Nat) : (bits k n).length = k := by
  induction k generalizing n with
  | zero => rfl
  | succ k ih => rw [bits, List.length_append, ih]; rfl

theorem ofBits_append (l : List Bool) (b : Bool) : ofBits (l ++ [b]) = 2 * ofBits l + b.toNat := by
  rw [ofBits, List.foldl_append]; rfl

theorem ofBits_lt (l : List Bool) : ofBits l < 2 ^ l.length := by
  induction l using List.reverseRecOn with
  | nil => decide
  | append_singleton l b ih =>
    have hb := Bool.toNat_le b
    rw [ofBits_append, List.length_append, List.length_singleton, Nat.pow_succ]
    omega

theorem ofBits_bits {n : Nat} (h : n < 2 ^ k) : ofBits (bits k n) = n := by
  induction k generalizing n with
  | zero => exact (Nat.lt_one_iff.1 h).symm
  | succ k ih =>
    rw [Nat.pow_succ] at h
    rw [bits, ofBits_append, ih (by omega)]
    rcases Nat.mod_two_eq_zero_or_one n with h2 | h2
    · rw [h2]; show 2 * (n / 2) + 0 = n; omega
    · rw [h2]; show 2 * (n / 2) + 1 = n; omega

theorem bits_ofBits (l : List Bool) : bits l.length (ofBits l) = l := by
  induction l using List.reverseRecOn with
  | nil => rfl
  | append_singleton l b ih =>
    have hdiv : (2 * ofBits l + b.toNat) / 2 = ofBits l := by
      have hb := Bool.toNat_le b
      omega
    have hmod : ((2 * ofBits l + b.toNat) % 2 == 1) = b := by
      cases b
      · simp
      · simp
    rw [List.length_append, List.length_singleton, bits, ofBits_append, hdiv, hmod, ih]

theorem bits_add (i j a : Nat) {b : Nat} (hb : b < 2 ^ j) : bits (i + j) (a * 2 ^ j + b) = bits i a ++ bits j b := by
  induction j generalizing b with
  | zero =>
    obtain rfl := Nat.lt_one_iff.1 hb
    simp [bits]
  | succ j ih =>
    rw [Nat.pow_succ] at hb
    have hdiv : (a * 2 ^ (j + 1) + b) / 2 = a * 2 ^ j + b / 2 := by
      rw [Nat.pow_succ, ← Nat.mul_assoc]; omega
    have hmod : (a * 2 ^ (j + 1) + b) % 2 = b % 2 := by
      rw [Nat.pow_succ, ← Nat.mul_assoc]; omega
    rw [← Nat.add_assoc, bits, hdiv, hmod, ih (by omega), bits, List.append_assoc]

theorem bits_split (i j n : Nat) : bits (i + j) n = bits i (n / 2 ^ j) ++ bits j (n % 2 ^ j) := by
  rw [← bits_add i j _ (Nat.mod_lt n (Nat.two_pow_pos j)), Nat.div_add_mod']

/-! ### Groups -/

def groups (k : Nat) (l : List α) : List (List α) :=
  if 0 < k ∧ k ≤ l.length then l.take k :: groups k (l.drop k) else []
termination_by l.length
decreasing_by rw [List.length_drop]; omega

theorem groups_of_lt {l : List α} (h : l.length < k) : groups k l = [] := by
  rw [groups, if_neg (by omega)]

theorem groups_append {l : List α} (hk : 0 < k) (hl : l.length = k) (r : List α) :
    groups k (l ++ r) = l :: groups k r := by
  have hle : 0 < k ∧ k ≤ (l ++ r).length := ⟨hk, by rw [List.length_append]; omega⟩
  rw [groups, if_pos hle, List.take_left' hl, List.drop_left' hl]

theorem flatten_groups {l : List α} (h : k ∣ l.length) (hk : 0 < k) : (groups k l).flatten = l := by
  obtain ⟨n, hn⟩ := h
  induction n generalizing l with
  | zero =>
    obtain rfl : l = [] := List.eq_nil_of_length_eq_zero (by omega)
    rw [groups_of_lt hk]; rfl
  | succ n ih =>
    rw [Nat.mul_succ] at hn
    have htake : (l.take k).length = k := by rw [List.length_take]; omega
    rw [← List.take_append_drop k l, groups_append hk htake, List.flatten_cons, ih]
    rw [List.length_drop]; omega

theorem length_of_mem_groups {l g : List α} (h : g ∈ groups k l) : g.length = k := by
  induction hn : l.length using Nat.strongRecOn generalizing l with
  | _ n ih =>
    rw [groups] at h
    split at h
    · rename_i hk
      rcases List.mem_cons.1 h with rfl | h
      · rw [List.length_take]; omega
      · exact ih (n - k) (by omega) h (by rw [List.length_drop, hn])
    · cases h

/-- Pieces of length `k` one after the other are read back, up to a rest that is too short. -/
theorem groups_flatMap {f : β → List α} (hk : 0 < k) (hf : ∀ x, (f x).length = k) (xs : List β) {r : List α}
    (hr : r.length < k) : groups k (xs.flatMap f ++ r) = xs.map f := by
  induction xs with
  | nil => exact groups_of_lt hr
  | cons x xs ih => rw [List.flatMap_cons, List.append_assoc, groups_append hk (hf x), ih, List.map_cons]

theorem groups_append_of_dvd {l : List α} (hk : 0 < k) (hl : k ∣ l.length) (r : List α) :
    groups k (l ++ r) = groups k l ++ groups k r := by
  obtain ⟨n, hn⟩ := hl
  induction n generalizing l with
  | zero =>
    obtain rfl : l = [] := List.eq_nil_of_length_eq_zero (by omega)
    rw [groups_of_lt (l := ([] : List α)) hk]; rfl
  | succ n ih =>
    rw [Nat.mul_succ] at hn
    have htake : (l.take k).length = k := by rw [List.length_take]; omega
    have hdrop : (l.drop k).length = k * n := by rw [List.length_drop]; omega
    rw [← List.take_append_drop k l, List.append_assoc, groups_append hk htake, ih hdrop, groups_append hk htake,
      List.cons_append]

/-! ### Padding -/

def padTo (k : Nat) (x : α) (l : List α) : List α := l ++ List.replicate ((k - l.length % k) % k) x

theorem padTo_append_of_dvd {l : List α} (hl : k ∣ l.length) (x : α) (r : List α) :
    padTo k x (l ++ r) = l ++ padTo k x r := by
  obtain ⟨n, hn⟩ := hl
  rw [padTo, padTo, List.length_append, hn, Nat.mul_add_mod, List.append_assoc]

theorem dvd_length_padTo (hk : 0 < k) (x : α) (l : List α) : k ∣ (padTo k x l).length := by
  have hlt := Nat.mod_lt l.length hk
  have hdiv := Nat.div_add_mod l.length k
  rw [padTo, List.length_append, List.length_replicate]
  by_cases h0 : l.length % k = 0
  · rw [h0, Nat.sub_zero, Nat.mod_self]
    exact Nat.dvd_of_mod_eq_zero h0
  · rw [Nat.mod_eq_of_lt (by omega : k - l.length % k < k)]
    refine ⟨l.length / k + 1, ?_⟩
    rw [Nat.mul_add, Nat.mul_one]
    omega

theorem padTo_eq (hk : 0 < k) (x : α) (l : List α) : ∃ n < k, padTo k x l = l ++ List.replicate n x :=
  ⟨(k - l.length % k) % k, Nat.mod_lt _ hk, rfl⟩

end Bits
