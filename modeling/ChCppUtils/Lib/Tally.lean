import Mathlib.Algebra.Order.BigOperators.Group.Finset
import Mathlib.Data.Fintype.Card

/-!
# Counting the components of a system

`tally p w` is the number of components of the family `w` with the property `p`. A step of one
component changes it by what `p` says before and after the step (`tally_update`).
-/

namespace Tally

variable {ι σ : Type*} [Fintype ι] [DecidableEq ι] (p : σ → Bool) (w : ι → σ)

def tally : Nat := ∑ i, (p (w i)).toNat

theorem tally_update (i : ι) (x : σ) :
    tally p (Function.update w i x) + (p (w i)).toNat = tally p w + (p x).toNat := by
  unfold tally
  have hrest : ∑ j ∈ Finset.univ.erase i, (p (Function.update w i x j)).toNat =
      ∑ j ∈ Finset.univ.erase i, (p (w j)).toNat :=
    Finset.sum_congr rfl fun j hj => by rw [Function.update_of_ne (Finset.ne_of_mem_erase hj)]
  rw [← Finset.add_sum_erase _ _ (Finset.mem_univ i), hrest,
    ← Finset.add_sum_erase Finset.univ (fun j => (p (w j)).toNat) (Finset.mem_univ i),
    Function.update_self]
  omega

variable {p w}

omit [DecidableEq ι]

theorem tally_pos : 0 < tally p w ↔ ∃ i, p (w i) = true := by
  rw [Nat.pos_iff_ne_zero, tally, Ne, Finset.sum_eq_zero_iff]
  simp

theorem tally_of_forall (h : ∀ i, p (w i) = true) : tally p w = Fintype.card ι := by
  simp [tally, h]

theorem tally_lt_card {i : ι} (h : p (w i) = false) : tally p w < Fintype.card ι := by
  have hlt : tally p w < ∑ _i : ι, 1 :=
    Finset.sum_lt_sum (fun i _ => Bool.toNat_le (p (w i))) ⟨i, Finset.mem_univ i, by simp [h]⟩
  simpa using hlt

/-! ### Sums over the components -/

def total (f : σ → Nat) (w : ι → σ) : Nat := ∑ i, f (w i)

theorem total_update [DecidableEq ι] (f : σ → Nat) (w : ι → σ) (i : ι) (x : σ) :
    total f (Function.update w i x) + f (w i) = total f w + f x := by
  unfold total
  have hrest : ∑ j ∈ Finset.univ.erase i, f (Function.update w i x j) = ∑ j ∈ Finset.univ.erase i, f (w j) :=
    Finset.sum_congr rfl fun j hj => by rw [Function.update_of_ne (Finset.ne_of_mem_erase hj)]
  rw [← Finset.add_sum_erase _ _ (Finset.mem_univ i), hrest,
    ← Finset.add_sum_erase Finset.univ (fun j => f (w j)) (Finset.mem_univ i), Function.update_self]
  omega

end Tally
