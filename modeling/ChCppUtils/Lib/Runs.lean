import Mathlib.Logic.Relation

/-!
# Runs of a labelled step relation

`Reach` is reachability, `Run` a run with the actions and the states it passes. Two rules carry the
proofs: an invariant kept by every step holds of every reachable state, and where the steps that
meet a condition are exactly those that keep a property, a run keeps it throughout iff each of its
steps meets the condition.
-/

namespace Runs

variable {σ α : Type*} {R R' : σ → α → σ → Prop} {s s₀ : σ}

inductive Reach (R : σ → α → σ → Prop) (s₀ : σ) : σ → Prop
  | refl : Reach R s₀ s₀
  | step {s s' : σ} {a : α} : Reach R s₀ s → R s a s' → Reach R s₀ s'

/-- The steps of `R` that meet the condition `C`. -/
def Under (C : σ → α → Prop) (R : σ → α → σ → Prop) : σ → α → σ → Prop := fun s a s' => C s a ∧ R s a s'

theorem Reach.invariant {I : σ → Prop} (h : Reach R s₀ s) (h₀ : I s₀)
    (hstep : ∀ s a s', I s → R s a s' → I s') : I s := by
  induction h with
  | refl => exact h₀
  | step _ hr ih => exact hstep _ _ _ ih hr

theorem Reach.mono (h : Reach R s₀ s) (hR : ∀ s a s', R s a s' → R' s a s') : Reach R' s₀ s := by
  induction h with
  | refl => exact .refl
  | step _ hr ih => exact ih.step (hR _ _ _ hr)

/-- A run from `s`: each action with the state it leads to. -/
def Run (R : σ → α → σ → Prop) : σ → List (α × σ) → Prop
  | _, [] => True
  | s, (a, s') :: tr => R s a s' ∧ Run R s' tr

/-- Every step of the run meets `C` in the state before it. -/
def EachStep (C : σ → α → Prop) : σ → List (α × σ) → Prop
  | _, [] => True
  | s, (a, s') :: tr => C s a ∧ EachStep C s' tr

/-- Every state of the run has `P`. -/
def EachState (P : σ → Prop) (s : σ) (tr : List (α × σ)) : Prop := P s ∧ ∀ x ∈ tr, P x.2

theorem eachState_cons {P : σ → Prop} {a : α} {s' : σ} {tr : List (α × σ)} :
    EachState P s ((a, s') :: tr) ↔ P s ∧ EachState P s' tr := by
  simp [EachState]

/-- An invariant that the steps meeting `C` keep holds throughout a run of such steps. -/
theorem Run.eachState_of {I P : σ → Prop} {C : σ → α → Prop} {tr : List (α × σ)} (hP : ∀ s, I s → P s)
    (hkeep : ∀ s a s', I s → C s a → R s a s' → I s') (h₀ : I s) (hrun : Run R s tr) (hC : EachStep C s tr) :
    EachState P s tr := by
  induction tr generalizing s with
  | nil => exact ⟨hP s h₀, fun _ hx => absurd hx List.not_mem_nil⟩
  | cons x tr ih =>
    obtain ⟨a, s'⟩ := x
    obtain ⟨hr, hrun⟩ := hrun
    obtain ⟨hc, hC⟩ := hC
    exact eachState_cons.2 ⟨hP s h₀, ih (hkeep s a s' h₀ hc hr) hrun hC⟩

/-- `I` is the invariant that makes the condition exact: it gives the property, the steps that meet
the condition keep it, and a step from it that keeps the property met the condition. -/
theorem Run.eachState_iff {I P : σ → Prop} {C : σ → α → Prop} {tr : List (α × σ)} (hP : ∀ s, I s → P s)
    (hkeep : ∀ s a s', I s → C s a → R s a s' → I s')
    (hneed : ∀ s a s', I s → R s a s' → P s' → C s a) (h₀ : I s) (hrun : Run R s tr) :
    EachState P s tr ↔ EachStep C s tr := by
  induction tr generalizing s with
  | nil => simp [EachState, EachStep, hP s h₀]
  | cons x tr ih =>
    obtain ⟨a, s'⟩ := x
    obtain ⟨hr, hrun⟩ := hrun
    rw [eachState_cons]
    constructor
    · rintro ⟨-, h⟩
      have hc := hneed s a s' h₀ hr h.1
      exact ⟨hc, (ih (hkeep s a s' h₀ hc hr) hrun).1 h⟩
    · rintro ⟨hc, h⟩
      exact ⟨hP s h₀, (ih (hkeep s a s' h₀ hc hr) hrun).2 h⟩

/-! ### Runs of a step function -/

section
variable {ε : Type*}

/-- The relation of a step function that may fail. -/
def Ok (f : σ → α → Except ε σ) (s : σ) (a : α) (s' : σ) : Prop := f s a = .ok s'

def exec (f : σ → α → Except ε σ) : σ → List α → Except ε (List (α × σ))
  | _, [] => .ok []
  | s, a :: as =>
    match f s a with
    | .error e => .error e
    | .ok s' =>
      match exec f s' as with
      | .error e => .error e
      | .ok tr => .ok ((a, s') :: tr)

/-- The computation succeeds with a value that has `Q`. -/
def Gives {α : Type*} (x : Except ε α) (Q : α → Prop) : Prop :=
  match x with
  | .ok s => Q s
  | .error _ => False

instance {α : Type*} (x : Except ε α) (Q : α → Prop) [DecidablePred Q] : Decidable (Gives x Q) :=
  match x with
  | .ok s => inferInstanceAs (Decidable (Q s))
  | .error _ => inferInstanceAs (Decidable False)

theorem Gives.ok {α : Type*} {x : Except ε α} {Q : α → Prop} (h : Gives x Q) : ∃ a, x = .ok a ∧ Q a := by
  cases x with
  | error e => exact h.elim
  | ok a => exact ⟨a, rfl, h⟩

/-- All actions succeed, each meets `C` in the state before it, and the last state has `P`. Decidable,
where `C` and `P` are, by running the actions. -/
def Goes (f : σ → α → Except ε σ) (C : σ → α → Prop) (P : σ → Prop) : σ → List α → Prop
  | s, [] => P s
  | s, a :: as =>
    C s a ∧ Gives (f s a) fun s' => Goes f C P s' as

instance Goes.decidable {f : σ → α → Except ε σ} {C : σ → α → Prop} {P : σ → Prop}
    [∀ s a, Decidable (C s a)] [DecidablePred P] :
    ∀ s as, Decidable (Goes f C P s as)
  | s, [] => inferInstanceAs (Decidable (P s))
  | s, a :: as =>
    haveI : DecidablePred fun s' => Goes f C P s' as := fun s' => Goes.decidable s' as
    inferInstanceAs (Decidable (C s a ∧ Gives (f s a) fun s' => Goes f C P s' as))

variable {f : σ → α → Except ε σ}

theorem Run.of_exec {as : List α} {tr : List (α × σ)} (h : exec f s as = .ok tr) : Run (Ok f) s tr := by
  induction as generalizing s tr with
  | nil =>
    obtain rfl : [] = tr := Except.ok.inj h
    trivial
  | cons a as ih =>
    rw [exec] at h
    split at h
    · cases h
    · rename_i s' hs
      split at h
      · cases h
      · rename_i tr' htr
        obtain rfl := Except.ok.inj h
        exact ⟨hs, ih htr⟩

theorem Goes.exec {C : σ → α → Prop} {P : σ → Prop} {as : List α} (h : Goes f C P s as) :
    ∃ tr, Runs.exec f s as = .ok tr ∧ EachStep C s tr ∧ ∃ s', P s' ∧ ∀ Q, EachState Q s tr → Q s' := by
  induction as generalizing s with
  | nil => exact ⟨[], rfl, trivial, s, h, fun Q hq => hq.1⟩
  | cons a as ih =>
    obtain ⟨hc, h⟩ := h
    obtain ⟨s₁, hs, h⟩ := h.ok
    obtain ⟨tr, htr, hC, s', hP, hq⟩ := ih h
    refine ⟨(a, s₁) :: tr, by simp only [Runs.exec, hs, htr], ⟨hc, hC⟩, s', hP, fun Q h => ?_⟩
    exact hq Q (eachState_cons.1 h).2

theorem Goes.reach {C : σ → α → Prop} {P : σ → Prop} {as : List α} (h : Goes f C P s as) :
    ∃ s', Reach (Under C (Ok f)) s s' ∧ P s' := by
  suffices hr : ∀ s₀, Reach (Under C (Ok f)) s₀ s → ∃ s', Reach (Under C (Ok f)) s₀ s' ∧ P s' from hr s .refl
  intro s₀ hs₀
  induction as generalizing s with
  | nil => exact ⟨s, hs₀, h⟩
  | cons a as ih =>
    obtain ⟨hc, h⟩ := h
    obtain ⟨s₁, hs, h⟩ := h.ok
    exact ih h (hs₀.step ⟨hc, hs⟩)

theorem Goes.reach_ok {C : σ → α → Prop} {P : σ → Prop} {as : List α} (h : Goes f C P s as) :
    ∃ s', Reach (Ok f) s s' ∧ P s' := by
  obtain ⟨s', hr, hp⟩ := h.reach
  exact ⟨s', hr.mono fun _ _ _ h => h.2, hp⟩

end

end Runs
