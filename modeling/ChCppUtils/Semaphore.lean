import ChCppUtils.Lib.Monitor
import ChCppUtils.ThreadPool.Pool

/-!
# `Semaphore` (semaphore.cpp)

A semaphore and the threads that call it. An action is a critical section of its mutex: a call of `notify` or
`try_wait`, the first look of a call of `wait` at `count_`, and the look of one that was woken. The pool takes
a semaphore for a count that changes in one step: that is what its history shows (`semaphore_sound`).
-/

namespace ChCppUtils.Sync

open Runs Monitor Tally

variable {n : Nat}

/-- A call that has had its effect, for the statements. -/
inductive Op (n : Nat) where
  | notify
  | wait (i : Fin n)
  | tryWait (result : Bool)
deriving DecidableEq, Repr

/-- `class Semaphore`, with the place of each thread in `wait`. `log` has the calls that have had their effect: the
code keeps no such list, `step` does. -/
structure Semaphore (n : Nat) where
  count : UInt64
  place : Fin n → Monitor.Place
  log : List (Op n)

inductive Action (n : Nat) where
  /-- `notify()`; `notify_one` wakes this thread. -/
  | notify (wake : Option (Fin n))
  /-- `wait()`, up to its return or its sleep. -/
  | wait (i : Fin n)
  /-- A thread that was woken has the mutex again. -/
  | resume (i : Fin n)
  /-- `condition_.wait` ends without a notification. -/
  | spurious (i : Fin n)
  | tryWait
deriving DecidableEq, Repr

namespace Semaphore

def new (n : Nat) : Semaphore n := ⟨0, fun _ => .outside, []⟩

def setPlace (s : Semaphore n) (i : Fin n) (p : Monitor.Place) : Semaphore n := { s with place := Function.update s.place i p }

/-- `condition_.notify_one()` wakes one of the threads that sleep, if there are any. -/
def notifyOne (s : Semaphore n) : Option (Fin n) → Res (Semaphore n)
  | some i => if s.place i = .asleep then pure (s.setPlace i .woken) else throw .badAnswer
  | none => if ∀ i, s.place i ≠ .asleep then pure s else throw .badAnswer

def notify (s : Semaphore n) (wake : Option (Fin n)) : Res (Semaphore n) :=
  notifyOne { s with count := s.count + 1 } wake

/-- `while(!count_) condition_.wait(lock); --count_;`, up to the next wait. -/
def look (s : Semaphore n) (i : Fin n) : Semaphore n :=
  if s.count = 0 then s.setPlace i .asleep
  else { s with count := s.count - 1 }.setPlace i .outside

/-- A thread waits once at a time. -/
def wait (s : Semaphore n) (i : Fin n) : Res (Semaphore n) :=
  if s.place i = .outside then pure (s.look i) else throw .badAnswer

def resume (s : Semaphore n) (i : Fin n) : Res (Semaphore n) :=
  if s.place i = .woken then pure (s.look i) else throw .badAnswer

def spurious (s : Semaphore n) (i : Fin n) : Res (Semaphore n) :=
  if s.place i = .asleep then pure (s.setPlace i .woken) else throw .badAnswer

/-- `try_wait()`, with its result. -/
def tryWait (s : Semaphore n) : Semaphore n × Bool :=
  if s.count ≠ 0 then ({ s with count := s.count - 1 }, true)
  else (s, false)

def act (s : Semaphore n) : Action n → Res (Semaphore n)
  | .notify wake => s.notify wake
  | .wait i => s.wait i
  | .resume i => s.resume i
  | .spurious i => s.spurious i
  | .tryWait => pure s.tryWait.1

/-- What the callers see of an action that leads to `s'`: a `wait` has its effect when it returns. -/
def effect (s s' : Semaphore n) : Action n → List (Op n)
  | .notify _ => [.notify]
  | .wait i | .resume i => if s'.place i = .outside then [.wait i] else []
  | .spurious _ => []
  | .tryWait => [.tryWait s.tryWait.2]

def step (s : Semaphore n) (a : Action n) : Res (Semaphore n) := do
  let s' ← s.act a
  return { s' with log := s.log ++ s.effect s' a }

/-! ### The semaphore as a count -/

/-- One call on the semaphore of the pool; a wait that has to stay in its loop has no effect yet. -/
def apply (op : Op n) (s : ThreadPool.Semaphore) : Option ThreadPool.Semaphore :=
  match op with
  | .notify => some s.notify
  | .wait _ => s.wait
  | .tryWait true => s.wait
  | .tryWait false => if s.count = 0 then some s else none

def replay (log : List (Op n)) : Option ThreadPool.Semaphore := log.foldlM (fun s op => apply op s) ⟨0⟩

def notified (s : Semaphore n) : Nat := s.log.countP (· = .notify)

variable {s s' : Semaphore n} {i : Fin n}

theorem replay_append (log : List (Op n)) (op : Op n) : replay (log ++ [op]) = (replay log).bind (apply op) := by
  rw [replay, List.foldlM_append]
  cases h : replay log with
  | none => rw [replay] at h; rw [h]; rfl
  | some t =>
    rw [replay] at h
    rw [h]
    show List.foldlM (fun s op => apply op s) t [op] = apply op t
    rw [List.foldlM_cons]
    cases apply op t <;> rfl

theorem notifyOne_cases {wake : Option (Fin n)} (h : s.notifyOne wake = .ok s') :
    (∃ i, s.place i = .asleep ∧ s' = s.setPlace i .woken) ∨ (∀ i, s.place i ≠ .asleep) ∧ s' = s := by
  unfold notifyOne at h
  cases wake with
  | none =>
    dsimp only at h
    split at h
    · rename_i hw; exact .inr ⟨hw, (Except.ok.inj h).symm⟩
    · cases h
  | some i =>
    dsimp only at h
    split at h
    · rename_i hw; exact .inl ⟨i, hw, (Except.ok.inj h).symm⟩
    · cases h

theorem step_cases {a : Action n} (h : s.step a = .ok s') :
    ∃ s₁, s.act a = .ok s₁ ∧ s' = { s₁ with log := s.log ++ s.effect s₁ a } := by
  obtain ⟨s₁, hact, h⟩ := Res.of_bind h
  exact ⟨s₁, hact, (Except.ok.inj h).symm⟩

theorem wait_cases (h : s.wait i = .ok s') : s' = s.look i := by
  unfold wait at h
  split at h
  · exact (Except.ok.inj h).symm
  · cases h

theorem resume_cases (h : s.resume i = .ok s') : s' = s.look i := by
  unfold resume at h
  split at h
  · exact (Except.ok.inj h).symm
  · cases h

theorem spurious_cases (h : s.spurious i = .ok s') : s.place i = .asleep ∧ s' = s.setPlace i .woken := by
  unfold spurious at h
  split at h
  · rename_i hp; exact ⟨hp, (Except.ok.inj h).symm⟩
  · cases h

theorem toNat_sub_one {c : UInt64} (h : c ≠ 0) : (c - 1).toNat + 1 = c.toNat := by
  have hpos : 0 < c.toNat := Nat.pos_of_ne_zero fun h0 => h (UInt64.toNat_inj.1 h0)
  rw [UInt64.toNat_sub_of_le c 1 (UInt64.le_iff_toNat_le.2 hpos)]
  exact Nat.sub_add_cancel hpos

/-! ### The invariant -/

/-- Up to `2 ^ 64` notifications the count does not wrap round. -/
structure Inv (s : Semaphore n) : Prop where
  awake : Awake s.count.toNat s.place
  bound : s.notified < 2 ^ 64 → s.count.toNat ≤ s.notified
  replay : s.notified < 2 ^ 64 → replay s.log = some ⟨s.count.toNat⟩

theorem Inv.new (n : Nat) : (new n).Inv := ⟨.empty _, fun _ => Nat.le_refl 0, fun _ => rfl⟩

theorem Inv.of_place (h : s.Inv) {place : Fin n → Monitor.Place} (ha : Awake s.count.toNat place) :
    Inv { s with place := place } := ⟨ha, h.bound, h.replay⟩

theorem Inv.taken (h : s.Inv) (h0 : s.count ≠ 0) {op : Op n} {place : Fin n → Monitor.Place} (hop : op ≠ .notify)
    (happly : apply op ⟨s.count.toNat⟩ = some ⟨(s.count - 1).toNat⟩) (ha : Awake (s.count - 1).toNat place) :
    Inv ⟨s.count - 1, place, s.log ++ [op]⟩ := by
  have hsub := toNat_sub_one h0
  have hnotified : notified ⟨s.count - 1, place, s.log ++ [op]⟩ = s.notified := by
    simp [notified, hop]
  refine ⟨ha, fun hlt => ?_, fun hlt => ?_⟩
  · rw [hnotified] at hlt ⊢
    have := h.bound hlt
    show (s.count - 1).toNat ≤ _
    omega
  · rw [hnotified] at hlt
    show Semaphore.replay (s.log ++ [op]) = _
    rw [replay_append, h.replay hlt]
    exact happly

theorem wait_eq (s : ThreadPool.Semaphore) {k : Nat} (h : k + 1 = s.count) : s.wait = some ⟨k⟩ := by
  rw [ThreadPool.Semaphore.wait, if_neg (by omega), ← h]
  rfl

theorem Inv.look (h : s.Inv) (i : Fin n) :
    Inv { s.look i with log := s.log ++ if (s.look i).place i = .outside then [.wait i] else [] } := by
  unfold Semaphore.look
  split
  · rename_i h0
    have hplace : (s.setPlace i .asleep).place i = .asleep := Function.update_self ..
    rw [if_neg (by rw [hplace]; decide), List.append_nil]
    refine h.of_place ?_
    rw [h0]
    exact .empty _
  · rename_i h0
    have hsub := toNat_sub_one h0
    have hplace : ({ s with count := s.count - 1 }.setPlace i .outside).place i = .outside := Function.update_self ..
    rw [if_pos hplace]
    refine h.taken h0 (nofun : Op.wait i ≠ .notify) (wait_eq _ hsub) ?_
    exact (h.awake.mono (Nat.le_of_eq hsub)).take

theorem Inv.tryWait (h : s.Inv) : Inv { s.tryWait.1 with log := s.log ++ [.tryWait s.tryWait.2] } := by
  unfold Semaphore.tryWait
  split
  · rename_i h0
    have hsub := toNat_sub_one h0
    exact h.taken h0 (nofun : Op.tryWait true ≠ .notify) (wait_eq _ hsub) (h.awake.mono (by omega))
  · rename_i h0
    have h0 : s.count = 0 := by simpa using h0
    have hnotified : notified { s with log := s.log ++ [.tryWait false] } = s.notified := by
      simp [notified]
    refine ⟨h.awake, fun hlt => ?_, fun hlt => ?_⟩
    · rw [hnotified] at hlt ⊢
      exact h.bound hlt
    · rw [hnotified] at hlt
      show Semaphore.replay (s.log ++ [.tryWait false]) = some ⟨s.count.toNat⟩
      rw [replay_append, h.replay hlt, h0]
      rfl

theorem Inv.notify {wake : Option (Fin n)} (h : s.Inv) (hs : s.notify wake = .ok s') :
    Inv { s' with log := s.log ++ [.notify] } := by
  have hmod : (s.count + 1).toNat = (s.count.toNat + 1) % 2 ^ 64 := UInt64.toNat_add s.count 1
  have hle : (s.count + 1).toNat ≤ s.count.toNat + 1 := hmod ▸ Nat.mod_le ..
  have hnotified : ∀ place, notified ⟨s.count + 1, place, s.log ++ [.notify]⟩ = s.notified + 1 := by
    intro place
    simp [notified]
  have hinv : ∀ place, Awake (s.count + 1).toNat place → Inv ⟨s.count + 1, place, s.log ++ [.notify]⟩ := by
    intro place ha
    refine ⟨ha, fun hlt => ?_, fun hlt => ?_⟩
    · rw [hnotified] at hlt ⊢
      have := h.bound (by omega)
      show (s.count + 1).toNat ≤ _
      omega
    · rw [hnotified] at hlt
      have hbound := h.bound (by omega)
      have hcount : (s.count + 1).toNat = s.count.toNat + 1 := by
        rw [hmod]
        exact Nat.mod_eq_of_lt (by omega)
      show Semaphore.replay (s.log ++ [.notify]) = some ⟨(s.count + 1).toNat⟩
      rw [replay_append, h.replay (by omega), hcount]
      rfl
  rcases notifyOne_cases hs with ⟨i, hi, rfl⟩ | ⟨hnone, rfl⟩
  · exact hinv _ (h.awake.wake hi hle)
  · exact hinv _ (.of_no_sleeper hnone)

theorem Inv.step {a : Action n} (h : s.Inv) (hs : s.step a = .ok s') : s'.Inv := by
  obtain ⟨s₁, hact, rfl⟩ := step_cases hs
  cases a with
  | notify wake => exact h.notify hact
  | wait i =>
    obtain rfl := wait_cases hact
    exact h.look i
  | resume i =>
    obtain rfl := resume_cases hact
    exact h.look i
  | spurious i =>
    obtain ⟨hi, rfl⟩ := spurious_cases hact
    show Inv { s.setPlace i .woken with log := s.log ++ [] }
    rw [List.append_nil]
    exact h.of_place (h.awake.wake hi (Nat.le_succ _))
  | tryWait =>
    obtain rfl := Except.ok.inj hact
    exact h.tryWait

theorem Inv.of_reach (h : Reach (Ok Semaphore.step) (Semaphore.new n) s) : s.Inv :=
  h.invariant (Inv.new n) fun _ _ _ hi hs => hi.step hs

/-! ### What the callers see -/

structure Sound (s : Semaphore n) : Prop where
  /-- The calls had their effect one after the other, as on a count. -/
  history : replay s.log = some ⟨s.count.toNat⟩
  /-- Threads sleep for a reason. -/
  rests : ∀ i, s.place i = .asleep → (∀ j, s.place j ≠ .woken) → s.count = 0
  /-- While a thread waits and the count is positive, the next look of one passes. -/
  passes : ∀ i, s.place i ≠ .outside → s.count ≠ 0 →
    ∃ j s', s.step (.resume j) = .ok s' ∧ s'.place j = .outside ∧ s'.log = s.log ++ [.wait j]

theorem Inv.rests (h : s.Inv) (hi : s.place i = .asleep) (hj : ∀ j, s.place j ≠ .woken) : s.count = 0 := by
  by_contra h0
  have hpos := toNat_sub_one h0
  obtain ⟨j, hw⟩ := h.awake.exists_woken hi (by omega)
  exact hj j hw

theorem resume_of_woken (hi : s.place i = .woken) (h0 : s.count ≠ 0) :
    ∃ s', s.step (.resume i) = .ok s' ∧ s'.place i = .outside ∧ s'.log = s.log ++ [.wait i] := by
  have hact : s.act (.resume i) = .ok (s.look i) := by
    rw [act, Semaphore.resume, if_pos hi]
    rfl
  have hplace : (s.look i).place i = .outside := by
    rw [Semaphore.look, if_neg h0]
    exact Function.update_self ..
  refine ⟨{ s.look i with log := s.log ++ s.effect (s.look i) (.resume i) }, ?_, hplace, ?_⟩
  · rw [Semaphore.step, hact]
    rfl
  · show s.log ++ (if (s.look i).place i = .outside then [.wait i] else []) = _
    rw [if_pos hplace]

theorem Inv.sound (h : s.Inv) (hlt : s.notified < 2 ^ 64) : s.Sound where
  history := h.replay hlt
  rests i hi hj := h.rests hi hj
  passes i hi h0 := by
    have hw : ∃ j, s.place j = .woken := by
      cases hp : s.place i with
      | outside => exact absurd hp hi
      | woken => exact ⟨i, hp⟩
      | asleep =>
        by_contra hn
        exact h0 (h.rests hp fun j hj => hn ⟨j, hj⟩)
    obtain ⟨j, hj⟩ := hw
    exact ⟨j, resume_of_woken hj h0⟩

/-- In every interleaving of the threads, as long as there were less than `2 ^ 64` notifications. -/
theorem semaphore_sound (h : Reach (Ok step) (new n) s) (hlt : s.notified < 2 ^ 64) : s.Sound :=
  (Inv.of_reach h).sound hlt

/-- Two threads wait; the first is notified, a third call takes the notification, and it sleeps again. -/
theorem semaphore_sound_stolen : ∃ s : Semaphore 2, Reach (Ok step) (new 2) s ∧ s.count = 0 ∧
    s.log = [.notify, .tryWait true, .tryWait false, .notify, .wait 1] ∧ s.Sound := by
  have hg : Goes step (fun _ _ => True) (fun s : Semaphore 2 => s.count = 0 ∧
      s.log = [.notify, .tryWait true, .tryWait false, .notify, .wait 1] ∧ s.notified < 2 ^ 64) (new 2)
      [.wait 0, .wait 1, .notify (some 0), .tryWait, .resume 0, .tryWait, .spurious 1, .notify (some 0), .resume 1,
        .resume 0] := by
    decide
  obtain ⟨s, hr, h0, hlog, hlt⟩ := hg.reach_ok
  exact ⟨s, hr, h0, hlog, semaphore_sound hr hlt⟩

end Semaphore

end ChCppUtils.Sync
