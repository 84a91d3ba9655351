import ChCppUtils.Lib.Tally

/-!
# Threads that wait for a resource

The resource is guarded by a mutex. A thread that finds none of it waits on a condition variable, and looks
again when it is woken, by a notification or for no reason. Each time something is put there one thread that
waits is notified, if there is one. Then no wake-up is lost (`Awake`): while a thread sleeps, there is no more
of the resource than there are threads on their way to it.
-/

namespace Monitor

open Tally

inductive Place where
  | outside
  /-- Waiting on the condition variable. -/
  | asleep
  /-- Woken, and about to look again. -/
  | woken
deriving DecidableEq, Repr

def Place.isWoken : Place → Bool
  | .woken => true
  | .outside | .asleep => false

variable {ι : Type*} [Fintype ι] [DecidableEq ι] {level level' : Nat} {place : ι → Place} {i : ι} {p : Place}

def Awake (level : Nat) (place : ι → Place) : Prop :=
  ∀ i, place i = .asleep → level ≤ tally Place.isWoken place

omit [DecidableEq ι] in
/-- A sleeper is not alone with what is there. -/
theorem Awake.exists_woken (h : Awake level place) (hi : place i = .asleep) (hl : 0 < level) :
    ∃ j, place j = .woken := by
  obtain ⟨j, hj⟩ := tally_pos.1 (Nat.lt_of_lt_of_le hl (h i hi))
  refine ⟨j, ?_⟩
  cases hp : place j with
  | woken => rfl
  | outside | asleep => rw [hp] at hj; cases hj

omit [DecidableEq ι] in
theorem Awake.empty (place : ι → Place) : Awake 0 place := fun _ _ => Nat.zero_le _

omit [DecidableEq ι] in
theorem Awake.of_no_sleeper (h : ∀ i, place i ≠ .asleep) : Awake level place := fun i hi => absurd hi (h i)

omit [DecidableEq ι] in
theorem Awake.mono (h : Awake level place) (hle : level' ≤ level) : Awake level' place :=
  fun i hi => Nat.le_trans hle (h i hi)

/-- A thread goes to another place, and the level follows. -/
theorem Awake.move (h : Awake level place) (hp : p = .asleep → place i = .asleep ∨ level' = 0)
    (hle : level' + (place i).isWoken.toNat ≤ level + p.isWoken.toNat) : Awake level' (Function.update place i p) := by
  intro j hj
  have htally := tally_update Place.isWoken place i p
  by_cases hji : j = i
  · subst hji
    rw [Function.update_self] at hj
    rcases hp hj with hs | h0
    · have := h j hs
      omega
    · omega
  · rw [Function.update_of_ne hji] at hj
    have := h j hj
    omega

/-- A sleeper is woken: by a notification with what was put there, or for no reason. -/
theorem Awake.wake (h : Awake level place) (hi : place i = .asleep) (hle : level' ≤ level + 1) :
    Awake level' (Function.update place i .woken) := by
  refine h.move nofun ?_
  rw [hi]
  exact hle

theorem Awake.take (h : Awake (level + 1) place) : Awake level (Function.update place i .outside) := by
  refine h.move nofun ?_
  have := Bool.toNat_le (place i).isWoken
  show level + (place i).isWoken.toNat ≤ level + 1 + 0
  omega

end Monitor
