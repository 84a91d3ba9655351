import ChCppUtils.ThreadPool.Pool

/-!
# What the steps of the pool can do

`WorkerStep` says what a worker's step does to the queue and the worker, and the `_cases` lemmas say
the same of the calls and of the owner. The invariants are read off these, and off no definition.
-/

namespace ChCppUtils.ThreadPool

variable {n : Nat}

/-- The threads made so far. -/
def Main.born : Main n → Nat
  | .creating k => k
  | .starting i => i + 1
  | .adding _ | .deleting _ => n

/-- One step of `run`, with the queue before and after it. -/
inductive WorkerStep : List Job → Worker → List Job → Worker → Prop
  | boot {q : List Job} {sem : Semaphore} : WorkerStep q ⟨.booting, sem⟩ q ⟨.fetching, sem.notify⟩
  | take {q : List Job} {sem : Semaphore} {job : Job} :
    WorkerStep (job :: q) ⟨.fetching, sem⟩ q ⟨.got job, sem⟩
  | sleep {sem : Semaphore} : WorkerStep [] ⟨.fetching, sem⟩ [] ⟨.waiting, sem⟩
  | exit {q : List Job} {sem : Semaphore} {job : Job} (he : job.exit = true) :
    WorkerStep q ⟨.got job, sem⟩ q ⟨.left, sem⟩
  | start {q : List Job} {sem : Semaphore} {job : Job} (he : job.exit = false) :
    WorkerStep q ⟨.got job, sem⟩ q ⟨.running job, sem⟩
  | finish {q : List Job} {sem : Semaphore} {job : Job} :
    WorkerStep q ⟨.running job, sem⟩ q ⟨.fetching, sem⟩
  | deinit {q : List Job} {sem : Semaphore} : WorkerStep q ⟨.left, sem⟩ q ⟨.deinited, sem⟩
  | leave {q : List Job} {sem : Semaphore} : WorkerStep q ⟨.deinited, sem⟩ q ⟨.exited, sem.notify⟩

theorem WorkerStep.not_unborn {q q' : List Job} {w w' : Worker} (h : WorkerStep q w q' w') :
    w.phase ≠ .unborn ∧ w'.phase ≠ .unborn := by
  cases h <;> exact ⟨nofun, nofun⟩

namespace Pool

variable {s s' : Pool n} {i j : Fin n}

theorem setThread_self (s : Pool n) (i : Fin n) (w : Worker) : (s.setThread i w).mThreads i = w :=
  Function.update_self ..

theorem setThread_ne (s : Pool n) (w : Worker) (h : j ≠ i) : (s.setThread i w).mThreads j = s.mThreads j :=
  Function.update_of_ne h ..

theorem threadGetNextJob_nil (hq : s.mJobQueue = []) : s.threadGetNextJob i = s.setPhase i .waiting := by
  rw [threadGetNextJob, hq]

theorem threadGetNextJob_cons {job : Job} {q : List Job} (hq : s.mJobQueue = job :: q) :
    s.threadGetNextJob i = { s with mJobQueue := q }.setPhase i (.got job) := by
  rw [threadGetNextJob, hq]

/-- What `work_spec` says of a step that ends in a `setThread`. -/
theorem setThread_spec {t : Pool n} {w : Worker} (ht : t.mThreads = s.mThreads) (hm : t.main = s.main)
    (hw : WorkerStep s.mJobQueue (s.mThreads i) t.mJobQueue w) :
    WorkerStep s.mJobQueue (s.mThreads i) (t.setThread i w).mJobQueue ((t.setThread i w).mThreads i) ∧
      (t.setThread i w).mThreads = Function.update s.mThreads i ((t.setThread i w).mThreads i) ∧
      (t.setThread i w).main = s.main := by
  refine ⟨by rw [setThread_self]; exact hw, ?_, hm⟩
  rw [setThread_self, ← ht]; rfl

/-- A step is one of the pool, and one of its log. -/
theorem step_cases {a : Action n} (h : s.step a = .ok s') :
    ∃ t, s.act a = .ok t ∧ s' = { t with log := s.record t a } := by
  obtain ⟨t, ht, hs⟩ := Res.of_bind h
  exact ⟨t, ht, (Except.ok.inj hs).symm⟩

theorem step_of_act {a : Action n} {t : Pool n} (h : s.act a = .ok t) :
    s.step a = .ok { t with log := s.record t a } := by
  rw [step, h]
  rfl

theorem work_spec (h : s.work i = .ok s') :
    WorkerStep s.mJobQueue (s.mThreads i) s'.mJobQueue (s'.mThreads i) ∧
      s'.mThreads = Function.update s.mThreads i (s'.mThreads i) ∧ s'.main = s.main := by
  unfold work at h
  cases hw : s.mThreads i with
  | mk p sem =>
    rw [← hw]
    simp only [hw] at h
    cases p with
    | unborn => cases h
    | booting =>
      obtain rfl := Except.ok.inj h
      exact setThread_spec rfl rfl (by rw [hw]; exact .boot)
    | fetching =>
      obtain rfl := Except.ok.inj h
      cases hq : s.mJobQueue with
      | nil =>
        rw [threadGetNextJob_nil hq, setPhase, ← hq]
        exact setThread_spec rfl rfl (by rw [hw, hq]; exact .sleep)
      | cons job q =>
        rw [threadGetNextJob_cons hq, setPhase, ← hq]
        exact setThread_spec rfl rfl (by rw [hq, hw]; exact .take)
    | waiting => cases h
    | got job =>
      obtain rfl := Except.ok.inj h
      unfold takeJob setPhase
      by_cases he : job.exit = true
      · rw [if_pos he]; exact setThread_spec rfl rfl (by rw [hw]; exact .exit he)
      · rw [if_neg he]; exact setThread_spec rfl rfl (by rw [hw]; exact .start (by simpa using he))
    | running job =>
      obtain rfl := Except.ok.inj h
      exact setThread_spec rfl rfl (by rw [hw]; exact .finish)
    | left =>
      obtain rfl := Except.ok.inj h
      exact setThread_spec rfl rfl (by rw [hw]; exact .deinit)
    | deinited =>
      obtain rfl := Except.ok.inj h
      exact setThread_spec rfl rfl (by rw [hw]; exact .leave)
    | exited => cases h

theorem notifyOne_cases {wake : Option (Fin n)} (h : s.notifyOne wake = .ok s') :
    (∃ i, (s.mThreads i).phase = .waiting ∧ s' = s.setPhase i .fetching) ∨
      (∀ i, (s.mThreads i).phase ≠ .waiting) ∧ s' = s := by
  unfold notifyOne at h
  cases wake with
  | none =>
    dsimp only at h
    split at h
    · rename_i hw; exact .inr ⟨hw, (Except.ok.inj h).symm⟩
    · cases h
  | some i =>
    dsimp only at h
    split at h
    · rename_i hw; exact .inl ⟨i, hw, (Except.ok.inj h).symm⟩
    · cases h

theorem addJob_cases {job : Job} {wake : Option (Fin n)} (h : s.addJob job wake = .ok s') :
    (∀ j ∈ s.log.accepted, j.id ≠ job.id) ∧
      notifyOne { s with mJobQueue := s.mJobQueue ++ [job] } wake = .ok s' := by
  unfold addJob at h
  split at h
  · rename_i hj; exact ⟨hj, h⟩
  · cases h

theorem addJob_main {job : Job} {wake : Option (Fin n)} (h : s.addJob job wake = .ok s') : s'.main = s.main := by
  rcases notifyOne_cases (addJob_cases h).2 with ⟨i, -, rfl⟩ | ⟨-, rfl⟩
  · rfl
  · rfl

theorem waitFor_cases {main : Main n} (h : s.waitFor i main = .ok s') :
    ∃ sem, (s.mThreads i).mSemaphore.count = sem + 1 ∧
      s' = { s with main := main }.setThread i ⟨(s.mThreads i).phase, ⟨sem⟩⟩ := by
  unfold waitFor Semaphore.wait at h
  split at h
  · rename_i sem hw
    split at hw
    · cases hw
    · rename_i h0
      obtain rfl := Option.some.inj hw
      exact ⟨_, by omega, (Except.ok.inj h).symm⟩
  · cases h

theorem mainStep_cases {id : Nat} {wake : Option (Fin n)} (h : s.mainStep id wake = .ok s') :
    (∃ k, ∃ hk : k < n, s.main = .creating k ∧
      s' = { s with main := .starting ⟨k, hk⟩ }.setPhase ⟨k, hk⟩ .booting) ∨
    (∃ k, n ≤ k ∧ s.main = .creating k ∧ s' = { s with main := .adding 0 }) ∨
    (∃ i, s.main = .starting i ∧ s.waitFor i (.creating (i + 1)) = .ok s') ∨
    (∃ k < n, s.main = .adding k ∧ { s with main := .adding (k + 1) }.addJob ⟨id, true⟩ wake = .ok s') ∨
    (∃ k, n ≤ k ∧ s.main = .adding k ∧ s' = { s with main := .deleting 0 }) ∨
    ∃ k, ∃ hk : k < n, s.main = .deleting k ∧ s.waitFor ⟨k, hk⟩ (.deleting (k + 1)) = .ok s' := by
  unfold mainStep at h
  cases hm : s.main with
  | creating k =>
    simp only [hm] at h
    split at h
    · rename_i hk; exact .inl ⟨k, hk, rfl, (Except.ok.inj h).symm⟩
    · exact .inr (.inl ⟨k, by omega, rfl, (Except.ok.inj h).symm⟩)
  | starting i => simp only [hm] at h; exact .inr (.inr (.inl ⟨i, rfl, h⟩))
  | adding k =>
    simp only [hm] at h
    split at h
    · rename_i hk; exact .inr (.inr (.inr (.inl ⟨k, hk, rfl, h⟩)))
    · exact .inr (.inr (.inr (.inr (.inl ⟨k, by omega, rfl, (Except.ok.inj h).symm⟩))))
  | deleting k =>
    simp only [hm] at h
    split at h
    · rename_i hk; exact .inr (.inr (.inr (.inr (.inr ⟨k, hk, rfl, h⟩))))
    · cases h

/-! ### Threads that are not made yet -/

def Born (s : Pool n) : Prop := ∀ i : Fin n, (s.mThreads i).phase = .unborn ↔ s.main.born ≤ i

theorem Born.new (n : Nat) : (new n).Born := fun _ => ⟨fun _ => Nat.zero_le _, fun _ => rfl⟩

theorem Born.of_update {i : Fin n} (h : s.Born) {w : Worker} (hm : s'.main.born = s.main.born)
    (ht : s'.mThreads = Function.update s.mThreads i w)
    (hw : w.phase = .unborn ↔ (s.mThreads i).phase = .unborn) : s'.Born := by
  intro j
  rw [ht, hm]
  by_cases hj : j = i
  · rw [hj, Function.update_self, hw]; exact h i
  · rw [Function.update_of_ne hj]; exact h j

theorem Born.notifyOne (h : s.Born) {wake : Option (Fin n)} (hs : s.notifyOne wake = .ok s') : s'.Born := by
  rcases notifyOne_cases hs with ⟨_, hp, rfl⟩ | ⟨-, rfl⟩
  · exact h.of_update rfl rfl (by rw [hp]; simp)
  · exact h

theorem Born.addJob (h : s.Born) {job : Job} {wake : Option (Fin n)} (hs : s.addJob job wake = .ok s') :
    s'.Born := by
  obtain ⟨-, hn⟩ := addJob_cases hs
  have hq : Born { s with mJobQueue := s.mJobQueue ++ [job] } := h
  exact hq.notifyOne hn

theorem Born.act (h : s.Born) {a : Action n} (hs : s.act a = .ok s') : s'.Born := by
  cases a with
  | addJob job wake =>
    rw [Pool.act] at hs
    split at hs
    · cases hs
    · exact h.addJob hs
  | work i =>
    obtain ⟨hw, ht, hm⟩ := work_spec hs
    exact h.of_update (by rw [hm]) ht (iff_of_false hw.not_unborn.2 hw.not_unborn.1)
  | spurious i =>
    rw [Pool.act] at hs
    split at hs
    · rename_i hp
      obtain rfl := Except.ok.inj hs
      exact h.of_update rfl rfl (by rw [hp]; simp)
    · cases hs
  | main id wake =>
    rcases mainStep_cases hs with ⟨k, hk, hm, rfl⟩ | ⟨k, hk, hm, rfl⟩ | ⟨i, hm, hs⟩ | ⟨k, hk, hm, hs⟩ |
      ⟨k, hk, hm, rfl⟩ | ⟨k, hk, hm, hs⟩
    · intro j
      show (Function.update s.mThreads ⟨k, hk⟩ _ j).phase = .unborn ↔ k + 1 ≤ j
      by_cases hj : j = ⟨k, hk⟩
      · rw [hj, Function.update_self]; simp
      · have hne : (j : Nat) ≠ k := fun he => hj (Fin.ext he)
        rw [Function.update_of_ne hj, h j, hm]
        show k ≤ j ↔ _
        omega
    · intro j
      show (s.mThreads j).phase = .unborn ↔ n ≤ j
      rw [h j, hm]
      show k ≤ j ↔ _
      omega
    · obtain ⟨sem, -, rfl⟩ := waitFor_cases hs
      exact h.of_update (by rw [hm]; rfl) rfl Iff.rfl
    · have hk' : Born { s with main := .adding (k + 1) } := fun j => by rw [h j, hm]; rfl
      exact hk'.addJob hs
    · exact fun j => by rw [h j, hm]; rfl
    · obtain ⟨sem, -, rfl⟩ := waitFor_cases hs
      exact h.of_update (by rw [hm]; rfl) rfl Iff.rfl

theorem Born.step (h : s.Born) {a : Action n} (hs : s.step a = .ok s') : s'.Born := by
  obtain ⟨t, ht, rfl⟩ := step_cases hs
  have hborn := h.act ht
  exact hborn

end Pool

end ChCppUtils.ThreadPool
