import ChCppUtils.Lib.Runs

/-!
# Runs that come to an end

A system settles in `P` by the steps that meet `C` if each run of such steps is finite, with a bound that
depends on its first state only, and `P` holds wherever no such step is possible. So every schedule leads to
`P`. The rule (`Settles.of_measure`) asks for a measure that each such step lowers and for a step where `P`
does not hold.
-/

namespace Runs

variable {σ α : Type*} {R : σ → α → σ → Prop} {C : σ → α → Prop} {P I : σ → Prop} {s : σ}
  {tr : List (α × σ)}

/-- The state at the end of a run from `s`. -/
def last (s : σ) : List (α × σ) → σ
  | [] => s
  | (_, s') :: tr => last s' tr

structure Settles (R : σ → α → σ → Prop) (C : σ → α → Prop) (P : σ → Prop) (s : σ) : Prop where
  bounded : ∃ k, ∀ tr, Run R s tr → EachStep C s tr → tr.length ≤ k
  settled : ∀ tr, Run R s tr → EachStep C s tr → (∀ a s', C (last s tr) a → ¬ R (last s tr) a s') → P (last s tr)

theorem Run.last_of (hstep : ∀ s a s', I s → C s a → R s a s' → I s') (h : I s) (hrun : Run R s tr)
    (hC : EachStep C s tr) : I (last s tr) := by
  induction tr generalizing s with
  | nil => exact h
  | cons x tr ih =>
    obtain ⟨a, s'⟩ := x
    exact ih (hstep s a s' h hC.1 hrun.1) hrun.2 hC.2

theorem Run.length_le {μ : σ → Nat} (hstep : ∀ s a s', I s → C s a → R s a s' → I s' ∧ μ s' < μ s) (h : I s)
    (hrun : Run R s tr) (hC : EachStep C s tr) : tr.length ≤ μ s := by
  induction tr generalizing s with
  | nil => exact Nat.zero_le _
  | cons x tr ih =>
    obtain ⟨a, s'⟩ := x
    obtain ⟨hI, hlt⟩ := hstep s a s' h hC.1 hrun.1
    have := ih hI hrun.2 hC.2
    rw [List.length_cons]
    omega

theorem Settles.of_measure (μ : σ → Nat) (hstep : ∀ s a s', I s → C s a → R s a s' → I s' ∧ μ s' < μ s)
    (hend : ∀ s, I s → (∀ a s', C s a → ¬ R s a s') → P s) (h : I s) : Settles R C P s where
  bounded := ⟨μ s, fun _ hrun hC => hrun.length_le hstep h hC⟩
  settled _ hrun hC hnone := hend _ (hrun.last_of (fun s a s' hI hc hr => (hstep s a s' hI hc hr).1) h hC) hnone

/-! ### What follows from settling -/

theorem Settles.next {a : α} {s' : σ} (h : Settles R C P s) (hc : C s a) (hr : R s a s') : Settles R C P s' where
  bounded := by
    obtain ⟨k, hk⟩ := h.bounded
    refine ⟨k, fun tr hrun hC => ?_⟩
    have hle := hk ((a, s') :: tr) ⟨hr, hrun⟩ ⟨hc, hC⟩
    rw [List.length_cons] at hle
    omega
  settled tr hrun hC hnone := h.settled ((a, s') :: tr) ⟨hr, hrun⟩ ⟨hc, hC⟩ hnone

theorem Settles.of_reach {s' : σ} (h : Settles R C P s) (hr : Reach (Under C R) s s') : Settles R C P s' := by
  induction hr with
  | refl => exact h
  | step _ hr ih => exact ih.next hr.1 hr.2

/-- From where a system settles in `P` it can get to `P`, so a trap outside of `P` refutes that it settles. -/
theorem Settles.exists_reach (h : Settles R C P s) : ∃ s', Reach (Under C R) s s' ∧ P s' := by
  obtain ⟨k, hk⟩ := h.bounded
  suffices hs : ∀ s₀, Reach (Under C R) s₀ s → ∃ s', Reach (Under C R) s₀ s' ∧ P s' from hs s .refl
  intro s₀ hs₀
  induction k generalizing s with
  | zero =>
    refine ⟨s, hs₀, h.settled [] trivial trivial fun a s' hc hr => ?_⟩
    exact absurd (hk [(a, s')] ⟨hr, trivial⟩ ⟨hc, trivial⟩) (Nat.not_succ_le_zero 0)
  | succ k ih =>
    by_cases hstep : ∃ a s', C s a ∧ R s a s'
    · obtain ⟨a, s', hc, hr⟩ := hstep
      refine ih (h.next hc hr) (fun tr hrun hC => ?_) (hs₀.step ⟨hc, hr⟩)
      exact Nat.le_of_succ_le_succ (hk ((a, s') :: tr) ⟨hr, hrun⟩ ⟨hc, hC⟩)
    · exact ⟨s, hs₀, h.settled [] trivial trivial fun a s' hc hr => hstep ⟨a, s', hc, hr⟩⟩

end Runs
