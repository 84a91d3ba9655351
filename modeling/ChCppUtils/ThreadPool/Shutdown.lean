import ChCppUtils.ThreadPool.Delivery

/-!
# The destructor and the workers

`~ThreadPool` adds an exit job for each worker and then deletes the threads one by one, each when its
semaphore can be waited for. The semaphore has two uses; `Inv.sem` counts the waits of the owner on
it against the notifications of the worker, so the wait of `~Thread` passes only after the second
notification. `Inv.exits` counts the exit jobs in the queue with the workers that have taken one, and
`Inv.awake` says that no wake-up is lost, so the destructor does not hang.
-/

namespace ChCppUtils.ThreadPool

open Runs Tally

variable {n : Nat}

namespace Phase

/-- How often the worker has notified its semaphore. -/
def notified : Phase → Nat
  | .unborn | .booting => 0
  | .exited => 2
  | _ => 1

/-- The worker has been handed an exit job. -/
def tookExit : Phase → Bool
  | .got job => job.exit
  | .left | .deinited | .exited => true
  | _ => false

/-- The worker is out of the loop of `run`. -/
def pastLoop : Phase → Bool
  | .left | .deinited | .exited => true
  | _ => false

def isFetching : Phase → Bool
  | .fetching => true
  | _ => false

theorem tookExit_of_pastLoop {p : Phase} (h : p.pastLoop = true) : p.tookExit = true := by
  cases p with
  | left | deinited | exited => rfl
  | unborn | booting | fetching | waiting | got | running => cases h

end Phase

namespace Main

/-- How often the owner has got past a wait on the semaphore of worker `i`. -/
def waited (i : Fin n) : Main n → Nat
  | .creating k => if i < k then 1 else 0
  | .starting j => if i < j then 1 else 0
  | .adding _ => 1
  | .deleting k => if i < k then 2 else 1

/-- The exit jobs added so far. -/
def exits : Main n → Nat
  | .creating _ | .starting _ => 0
  | .adding k => k
  | .deleting _ => n

def Bound : Main n → Prop
  | .creating k | .adding k | .deleting k => k ≤ n
  | .starting _ => True

end Main

/-- Nobody but the destructor adds an exit job. -/
def NoExit (_ : Pool n) : Action n → Prop
  | .addJob job _ => job.exit = false
  | _ => True

instance (s : Pool n) : ∀ a, Decidable (NoExit s a)
  | .addJob _ _ => inferInstanceAs (Decidable (_ = _))
  | .work _ | .spurious _ | .main _ _ => inferInstanceAs (Decidable True)

/-- The action is a step of a worker or of the owner, and no job added by others or wait that ends by
chance. -/
def Action.Own : Action n → Prop
  | .work _ | .main _ _ => True
  | .addJob _ _ | .spurious _ => False

/-! ### What a worker's step does to the counts -/

section
variable {q q' : List Job} {w w' : Worker}

theorem WorkerStep.sem (h : WorkerStep q w q' w') :
    w'.mSemaphore.count + w.phase.notified = w.mSemaphore.count + w'.phase.notified := by
  cases h <;> simp only [Semaphore.notify, Phase.notified]

theorem WorkerStep.exits (h : WorkerStep q w q' w') :
    q'.countP (·.exit) + w'.phase.tookExit.toNat = q.countP (·.exit) + w.phase.tookExit.toNat := by
  cases h with
  | take => simp [List.countP_cons, Phase.tookExit]; split <;> simp_all
  | exit he => simp [Phase.tookExit, he]
  | start he => simp [Phase.tookExit, he]
  | _ => simp [Phase.tookExit]

theorem WorkerStep.awake (h : WorkerStep q w q' w') : q' = [] ∨ w'.phase ≠ .waiting ∧
    q'.length + w.phase.isFetching.toNat ≤ q.length + w'.phase.isFetching.toNat := by
  cases h with
  | sleep => exact .inl rfl
  | _ => exact .inr ⟨nofun, by simp [Phase.isFetching]⟩

end

namespace Pool

variable {s s' : Pool n} {i : Fin n}

/-! ### The two notifications of a worker -/

/-- The waits of the owner on the semaphore of a worker and what is left on it make up what the worker
has notified. -/
structure Signals (s : Pool n) : Prop where
  born : s.Born
  sem : ∀ i, (s.mThreads i).mSemaphore.count + s.main.waited i = (s.mThreads i).phase.notified
  bound : s.main.Bound

theorem Signals.new (n : Nat) : (new n).Signals := ⟨Born.new n, fun _ => rfl, Nat.zero_le n⟩

theorem Signals.of_update {w : Worker} (h : s.Signals) (hb : s'.Born)
    (ht : s'.mThreads = Function.update s.mThreads i w) (hbound : s'.main.Bound)
    (hsem : w.mSemaphore.count + s'.main.waited i = w.phase.notified)
    (hmain : ∀ j, j ≠ i → s'.main.waited j = s.main.waited j) : s'.Signals := by
  refine ⟨hb, fun j => ?_, hbound⟩
  rw [ht]
  by_cases hj : j = i
  · rw [hj, Function.update_self]; exact hsem
  · rw [Function.update_of_ne hj, hmain j hj]; exact h.sem j

theorem Signals.wake (h : s.Signals) (hp : (s.mThreads i).phase = .waiting) :
    (s.setPhase i .fetching).Signals := by
  have hb : (s.setPhase i .fetching).Born := h.born.of_update rfl rfl (by rw [hp]; simp)
  have hi := h.sem i
  rw [hp] at hi
  exact h.of_update hb rfl h.bound hi fun _ _ => rfl

theorem Signals.withMain {m : Main n} (h : s.Signals) (hborn : m.born = s.main.born) (hbound : m.Bound)
    (hwaited : ∀ j, m.waited j = s.main.waited j) : { s with main := m }.Signals :=
  ⟨fun j => by rw [hborn]; exact h.born j, fun j => by rw [hwaited j]; exact h.sem j, hbound⟩

theorem Signals.addJob {job : Job} {wake : Option (Fin n)} (h : s.Signals)
    (hs : s.addJob job wake = .ok s') : s'.Signals := by
  have hadd : Signals { s with mJobQueue := s.mJobQueue ++ [job] } := ⟨h.born, h.sem, h.bound⟩
  rcases notifyOne_cases (addJob_cases hs).2 with ⟨i, hp, rfl⟩ | ⟨-, rfl⟩
  · exact hadd.wake hp
  · exact hadd

theorem Signals.waitFor {m : Main n} (h : s.Signals) (hs : s.waitFor i m = .ok s')
    (hborn : m.born = s.main.born) (hbound : m.Bound) (hwaited : m.waited i = s.main.waited i + 1)
    (hmain : ∀ j, j ≠ i → m.waited j = s.main.waited j) : s'.Signals := by
  obtain ⟨sem, hsem, rfl⟩ := waitFor_cases hs
  have hb : Born { s with main := m } := fun j => by rw [hborn]; exact h.born j
  have hi := h.sem i
  refine h.of_update (hb.of_update rfl rfl Iff.rfl) rfl hbound ?_ hmain
  show sem + m.waited i = (s.mThreads i).phase.notified
  omega

theorem Signals.act {a : Action n} (h : s.Signals) (hs : s.act a = .ok s') : s'.Signals := by
  cases a with
  | addJob job wake =>
    rw [Pool.act] at hs
    split at hs
    · cases hs
    · exact h.addJob hs
  | work i =>
    obtain ⟨hw, ht, hm⟩ := work_spec hs
    have hsem := hw.sem
    have hi := h.sem i
    refine h.of_update (h.born.act (a := .work i) hs) ht (hm ▸ h.bound) ?_ fun j _ => by rw [hm]
    rw [hm]; omega
  | spurious i =>
    rw [Pool.act] at hs
    split at hs
    · rename_i hp
      obtain rfl := Except.ok.inj hs
      exact h.wake hp
    · cases hs
  | main id wake =>
    have hb := h.born.act hs
    have hbound := h.bound
    rcases mainStep_cases hs with ⟨k, hk, hm, rfl⟩ | ⟨k, hk, hm, rfl⟩ | ⟨i, hm, hs⟩ | ⟨k, hk, hm, hs⟩ |
      ⟨k, hk, hm, rfl⟩ | ⟨k, hk, hm, hs⟩
    · have hp : (s.mThreads ⟨k, hk⟩).phase = .unborn := (h.born _).2 (by rw [hm]; exact le_refl k)
      have hi := h.sem ⟨k, hk⟩
      rw [hp, hm] at hi
      exact h.of_update hb rfl trivial hi fun j _ => by rw [hm]; rfl
    · rw [hm] at hbound
      have hkn : k = n := Nat.le_antisymm hbound hk
      refine h.withMain (by rw [hm]; exact hkn.symm) (Nat.zero_le n) fun j => ?_
      rw [hm]
      show 1 = if (j : Nat) < k then 1 else 0
      rw [if_pos (hkn ▸ j.2)]
    · refine h.waitFor hs (by rw [hm]; rfl) i.2 ?_ fun j hj => ?_
      · rw [hm]; simp [Main.waited]
      · rw [hm]
        show (if (j : Nat) < i + 1 then 1 else 0) = if j < i then 1 else 0
        have hne : (j : Nat) ≠ i := fun he => hj (Fin.ext he)
        have hiff : (j : Nat) < i + 1 ↔ j < i := by rw [Fin.lt_def]; omega
        simp only [hiff]
    · have hk' : Signals { s with main := .adding (k + 1) } :=
        h.withMain (by rw [hm]; rfl) hk fun j => by rw [hm]; rfl
      exact hk'.addJob hs
    · refine h.withMain (by rw [hm]; rfl) (Nat.zero_le n) fun j => ?_
      rw [hm]; simp [Main.waited]
    · refine h.waitFor hs (by rw [hm]; rfl) hk ?_ fun j hj => ?_
      · rw [hm]; simp [Main.waited]
      · rw [hm]
        show (if (j : Nat) < k + 1 then 2 else 1) = if (j : Nat) < k then 2 else 1
        have hne : (j : Nat) ≠ k := fun he => hj (Fin.ext he)
        have hiff : (j : Nat) < k + 1 ↔ (j : Nat) < k := by omega
        simp only [hiff]

theorem Signals.step {a : Action n} (h : s.Signals) (hs : s.step a = .ok s') : s'.Signals := by
  obtain ⟨t, ht, rfl⟩ := step_cases hs
  have hsig := h.act ht
  exact ⟨hsig.born, hsig.sem, hsig.bound⟩

/-- The wait of `~Thread` has passed. -/
theorem Signals.exited (h : s.Signals) (hw : s.main.waited i = 2) : (s.mThreads i).phase = .exited := by
  have := h.sem i
  cases hp : (s.mThreads i).phase <;> rw [hp, hw] at this <;> simp only [Phase.notified] at this <;> omega

/-! ### The exit jobs, and who is awake -/

structure Counts (s : Pool n) : Prop where
  exits : s.mJobQueue.countP (·.exit) + tally (·.phase.tookExit) s.mThreads = s.main.exits
  awake : ∀ i, (s.mThreads i).phase = .waiting →
    s.mJobQueue.length ≤ tally (·.phase.isFetching) s.mThreads

theorem Counts.new (n : Nat) : (new n).Counts := by
  refine ⟨?_, fun i hi => ?_⟩
  · show 0 + tally _ (fun _ : Fin n => (⟨.unborn, ⟨0⟩⟩ : Worker)) = 0
    simp [tally, Phase.tookExit]
  · cases hi

theorem Counts.of_update {w : Worker} (h : s.Counts) (ht : s'.mThreads = Function.update s.mThreads i w)
    (hexits : s'.mJobQueue.countP (·.exit) + w.phase.tookExit.toNat + s.main.exits =
      s.mJobQueue.countP (·.exit) + (s.mThreads i).phase.tookExit.toNat + s'.main.exits)
    (hawake : s'.mJobQueue = [] ∨ (w.phase = .waiting → (s.mThreads i).phase = .waiting) ∧
      s'.mJobQueue.length + (s.mThreads i).phase.isFetching.toNat ≤
        s.mJobQueue.length + w.phase.isFetching.toNat) : s'.Counts := by
  refine ⟨?_, fun j hj => ?_⟩
  · have htally := tally_update (·.phase.tookExit) s.mThreads i w
    have := h.exits
    rw [ht]
    omega
  · have htally := tally_update (·.phase.isFetching) s.mThreads i w
    rcases hawake with he | ⟨hw, hle⟩
    · rw [he]; exact Nat.zero_le _
    · have hwait : ∃ j', (s.mThreads j').phase = .waiting := by
        rw [ht] at hj
        by_cases hji : j = i
        · rw [hji, Function.update_self] at hj
          exact ⟨i, hw hj⟩
        · rw [Function.update_of_ne hji] at hj
          exact ⟨j, hj⟩
      obtain ⟨j', hj'⟩ := hwait
      have := h.awake j' hj'
      rw [ht]
      omega

theorem Counts.work (h : s.Counts) (hs : s.work i = .ok s') : s'.Counts := by
  obtain ⟨hw, ht, hm⟩ := work_spec hs
  have hexits := hw.exits
  refine h.of_update ht ?_ ?_
  · rw [hm]; omega
  · rcases hw.awake with he | ⟨hne, hle⟩
    · exact .inl he
    · exact .inr ⟨fun hw => absurd hw hne, hle⟩

theorem Counts.wake (h : s.Counts) (hp : (s.mThreads i).phase = .waiting) : (s.setPhase i .fetching).Counts := by
  refine h.of_update rfl ?_ (.inr ⟨nofun, ?_⟩)
  · rw [hp]; rfl
  · rw [hp]; exact Nat.le_add_right _ _

/-- A job is added, by the owner, who goes on to `m`, or by somebody else. -/
theorem Counts.addJob {m : Main n} {job : Job} {wake : Option (Fin n)} (h : s.Counts)
    (hs : { s with main := m }.addJob job wake = .ok s')
    (hexits : m.exits = s.main.exits + job.exit.toNat) : s'.Counts := by
  have hcount : (s.mJobQueue ++ [job]).countP (·.exit) = s.mJobQueue.countP (·.exit) + job.exit.toNat := by
    rw [List.countP_append]
    cases he : job.exit <;> simp [he]
  rcases notifyOne_cases (addJob_cases hs).2 with ⟨i, hp, rfl⟩ | ⟨hnone, rfl⟩
  · have hp : (s.mThreads i).phase = .waiting := hp
    refine h.of_update rfl ?_ (.inr ⟨nofun, ?_⟩)
    · show (s.mJobQueue ++ [job]).countP _ + 0 + _ = _ + _ + m.exits
      rw [hcount, hp, hexits]
      show _ = _ + 0 + _
      omega
    · show (s.mJobQueue ++ [job]).length + _ ≤ _
      rw [hp, List.length_append]
      exact Nat.le_refl _
  · refine ⟨?_, fun j hj => absurd hj (hnone j)⟩
    show (s.mJobQueue ++ [job]).countP (·.exit) + tally (·.phase.tookExit) s.mThreads = m.exits
    have := h.exits
    rw [hcount, hexits]
    omega

theorem Counts.waitFor {m : Main n} (h : s.Counts) (hs : s.waitFor i m = .ok s')
    (hexits : m.exits = s.main.exits) : s'.Counts := by
  obtain ⟨sem, hsem, rfl⟩ := waitFor_cases hs
  refine h.of_update rfl ?_ (.inr ⟨id, Nat.le_refl _⟩)
  show _ = _ + _ + m.exits
  rw [hexits]; rfl

theorem Counts.withMain {m : Main n} (h : s.Counts) (hexits : m.exits = s.main.exits) :
    { s with main := m }.Counts :=
  ⟨by rw [hexits]; exact h.exits, h.awake⟩

theorem Counts.mainStep (h : s.Counts) (hsig : s.Signals) {id : Nat} {wake : Option (Fin n)}
    (hs : s.mainStep id wake = .ok s') : s'.Counts := by
  rcases mainStep_cases hs with ⟨k, hk, hm, rfl⟩ | ⟨k, hk, hm, rfl⟩ | ⟨i, hm, hs⟩ | ⟨k, hk, hm, hs⟩ |
    ⟨k, hk, hm, rfl⟩ | ⟨k, hk, hm, hs⟩
  · have hp : (s.mThreads ⟨k, hk⟩).phase = .unborn := (hsig.born _).2 (by rw [hm]; exact le_refl k)
    refine h.of_update rfl ?_ (.inr ⟨?_, ?_⟩)
    · rw [hp, hm]; rfl
    · intro hw
      cases hw
    · rw [hp]; exact Nat.le_refl _
  · exact h.withMain (by rw [hm]; rfl)
  · exact h.waitFor hs (by rw [hm]; rfl)
  · exact h.addJob hs (by rw [hm]; rfl)
  · have hbound := hsig.bound
    rw [hm] at hbound
    have hkn : k = n := Nat.le_antisymm hbound hk
    exact h.withMain (by rw [hm]; exact hkn.symm)
  · exact h.waitFor hs (by rw [hm]; rfl)

/-! ### The invariant -/

structure Inv (s : Pool n) : Prop extends s.Signals, s.Counts where
  sent : s.Sent

theorem Inv.new (n : Nat) : (new n).Inv := ⟨Signals.new n, Counts.new n, Sent.new n⟩

theorem Inv.counts_act {a : Action n} (h : s.Inv) (ha : NoExit s a) (hs : s.act a = .ok s') : s'.Counts := by
  cases a with
  | addJob job wake =>
    have ha : job.exit = false := ha
    rw [act] at hs
    split at hs
    · cases hs
    · exact h.toCounts.addJob (m := s.main) hs (by rw [ha]; rfl)
  | work i => exact h.toCounts.work hs
  | spurious i =>
    rw [act] at hs
    split at hs
    · rename_i hp
      obtain rfl := Except.ok.inj hs
      exact h.toCounts.wake hp
    · cases hs
  | main id wake => exact h.toCounts.mainStep h.toSignals hs

theorem Inv.step {a : Action n} (h : s.Inv) (ha : NoExit s a) (hs : s.step a = .ok s') : s'.Inv := by
  have hsig := h.toSignals.step hs
  have hsent := h.sent.step h.born hs
  obtain ⟨t, ht, rfl⟩ := step_cases hs
  have hcounts := h.counts_act ha ht
  exact ⟨hsig, ⟨hcounts.exits, hcounts.awake⟩, hsent⟩

theorem Inv.of_reach (h : Reach (Under NoExit (Ok Pool.step)) (Pool.new n) s) : s.Inv :=
  h.invariant (Inv.new n) fun _ _ _ hi hs => hi.step hs.1 hs.2

/-! ### The handshake -/

/-- The exit jobs handed to a worker. -/
def exitsOf (s : Pool n) (i : Fin n) : Nat := (byWorker i s.log.handed).countP (·.exit)

/-- The worker has finished what was handed to it, the last of it an exit job, and run its de-init
callback. -/
structure Done (s : Pool n) (i : Fin n) : Prop where
  exited : (s.mThreads i).phase = .exited
  finished : ∃ job : Job, job.exit = true ∧ byWorker i s.log.handed = byWorker i s.log.finished ++ [job]
  deinit : i ∈ s.log.deinits

structure Handshake (s : Pool n) : Prop where
  atMostOne : ∀ i, s.exitsOf i ≤ 1
  leftOne : ∀ i, (s.mThreads i).phase.pastLoop = true → s.exitsOf i = 1
  noneLeft : (∀ i, (s.mThreads i).phase.pastLoop = true) → ∀ job ∈ s.mJobQueue, job.exit = false
  /-- `start` has got past its wait: the worker has notified once. -/
  started : ∀ i, 1 ≤ s.main.waited i → 1 ≤ (s.mThreads i).phase.notified
  /-- What is left on the semaphore after `start` is the exit notification. -/
  token : ∀ i, s.main.waited i = 1 → (0 < (s.mThreads i).mSemaphore.count ↔ (s.mThreads i).phase = .exited)
  /-- `~Thread` has got past its wait. -/
  joined : ∀ i, s.main.waited i = 2 → s.Done i
  returned : s.main = .deleting n → ∀ i, s.Done i ∧ s.exitsOf i = 1
  /-- The destructor does not hang, if the routines that run return: the owner or a worker can go on. -/
  goesOn : (∃ k, s.main = .adding k) ∨ (∃ k < n, s.main = .deleting k) →
    ∃ a : Action n, a.Own ∧ ∃ s', s.step a = .ok s'

theorem Sent.exitsOf_eq (h : s.Sent) (i : Fin n) : s.exitsOf i = (s.mThreads i).phase.tookExit.toNat := by
  have hlog := (h.worker i).jobs
  have hst : (byWorker i s.log.started).countP (·.exit) = 0 :=
    List.countP_eq_zero.2 fun job hj => by simpa using h.started _ (mem_byWorker.1 hj)
  unfold exitsOf
  cases hp : (s.mThreads i).phase with
  | unborn | booting | fetching | waiting | running job => rw [hp] at hlog; rw [hlog.1, hst]; rfl
  | got job =>
    rw [hp] at hlog
    rw [hlog.1, List.countP_append, hst, Nat.zero_add, Phase.tookExit]
    cases he : job.exit <;> simp [he]
  | left | deinited | exited =>
    rw [hp] at hlog
    obtain ⟨⟨job, he, hhd⟩, -⟩ := hlog
    rw [hhd, List.countP_append, hst, Nat.zero_add]
    simp [he, Phase.tookExit]

theorem Sent.done (h : s.Sent) (hp : (s.mThreads i).phase = .exited) : s.Done i := by
  have hw := h.worker i
  have hlog := hw.jobs
  rw [hp] at hlog
  obtain ⟨⟨job, he, hhd⟩, hfi⟩ := hlog
  exact ⟨hp, ⟨job, he, hfi ▸ hhd⟩, hw.deinit.2 (by rw [hp]; rfl)⟩

theorem exists_work (hu : (s.mThreads i).phase ≠ .unborn) (hw : (s.mThreads i).phase ≠ .waiting)
    (he : (s.mThreads i).phase ≠ .exited) : ∃ s', s.work i = .ok s' := by
  unfold Pool.work
  cases hp : (s.mThreads i).phase with
  | unborn => exact absurd hp hu
  | waiting => exact absurd hp hw
  | exited => exact absurd hp he
  | booting | fetching | got | running | left | deinited => exact ⟨_, rfl⟩

theorem exists_step {a : Action n} (h : ∃ s', s.act a = .ok s') : ∃ s', s.step a = .ok s' := by
  obtain ⟨s', hs⟩ := h
  exact ⟨_, step_of_act hs⟩

theorem exists_addJob (s : Pool n) (exit : Bool) : ∃ id wake s', s.addJob ⟨id, exit⟩ wake = .ok s' := by
  obtain ⟨id, hid⟩ : ∃ id, ∀ j ∈ s.log.accepted, j.id ≠ id := by
    refine ⟨(s.log.accepted.map Job.id).sum + 1, fun j hj he => ?_⟩
    have := List.le_sum_of_mem (List.mem_map_of_mem (f := Job.id) hj)
    omega
  by_cases hw : ∃ i, (s.mThreads i).phase = .waiting
  · obtain ⟨i, hi⟩ := hw
    exact ⟨id, some i, _, by rw [addJob, if_pos hid, notifyOne, if_pos hi]; rfl⟩
  · exact ⟨id, none, _, by rw [addJob, if_pos hid, notifyOne, if_pos fun i hi => hw ⟨i, hi⟩]; rfl⟩

theorem Inv.goesOn_deleting (h : s.Inv) {k : Nat} (hk : k < n) (hm : s.main = .deleting k) :
    ∃ a : Action n, a.Own ∧ ∃ s', s.step a = .ok s' := by
  have hsem := h.sem ⟨k, hk⟩
  rw [hm, show Main.waited ⟨k, hk⟩ (.deleting k) = 1 from if_neg (Nat.lt_irrefl k)] at hsem
  by_cases hc : (s.mThreads ⟨k, hk⟩).mSemaphore.count = 0
  · -- worker `k` has not notified its exit
    rw [hc] at hsem
    by_cases hw : (s.mThreads ⟨k, hk⟩).phase = .waiting
    · -- it sleeps, so an exit job is in the queue and a worker is on its way to it
      have hlt : tally (·.phase.tookExit) s.mThreads < n := by
        have := tally_lt_card (p := fun w : Worker => w.phase.tookExit) (w := s.mThreads)
          (i := ⟨k, hk⟩) (by rw [hw]; rfl)
        rwa [Fintype.card_fin] at this
      have hexits := h.exits
      rw [hm] at hexits
      have hpos : 0 < s.mJobQueue.length := by
        have := List.countP_le_length (p := fun j : Job => j.exit) (l := s.mJobQueue)
        have hx : (Main.deleting k : Main n).exits = n := rfl
        omega
      obtain ⟨i, hi⟩ := tally_pos.1 (Nat.lt_of_lt_of_le hpos (h.awake _ hw))
      have hf : (s.mThreads i).phase = .fetching := by
        cases hp : (s.mThreads i).phase <;> rw [hp] at hi <;> first | rfl | cases hi
      exact ⟨.work i, trivial, exists_step
        (exists_work (by rw [hf]; nofun) (by rw [hf]; nofun) (by rw [hf]; nofun))⟩
    · refine ⟨.work ⟨k, hk⟩, trivial, exists_step (exists_work (fun hp => ?_) hw fun hp => ?_)⟩ <;>
        rw [hp] at hsem <;> simp [Phase.notified] at hsem
  · refine ⟨.main 0 none, trivial, exists_step ?_⟩
    simp only [act, mainStep, hm, dif_pos hk, Pool.waitFor, Semaphore.wait, if_neg hc]
    exact ⟨_, rfl⟩

theorem Inv.shakesHands (h : s.Inv) : s.Handshake where
  atMostOne i := by rw [h.sent.exitsOf_eq]; exact Bool.toNat_le _
  leftOne i hp := by rw [h.sent.exitsOf_eq, Phase.tookExit_of_pastLoop hp]; rfl
  noneLeft hall := by
    have htook : ∀ i, (fun w : Worker => w.phase.tookExit) (s.mThreads i) = true :=
      fun i => Phase.tookExit_of_pastLoop (hall i)
    have htally : tally (fun w : Worker => w.phase.tookExit) s.mThreads = n :=
      (tally_of_forall htook).trans (Fintype.card_fin n)
    have hexits := h.exits
    rw [htally] at hexits
    have hle : s.main.exits ≤ n := by
      have := h.bound
      cases hm : s.main <;> rw [hm] at this
      · exact Nat.zero_le n
      · exact Nat.zero_le n
      · exact this
      · exact Nat.le_refl n
    have h0 : s.mJobQueue.countP (·.exit) = 0 := by omega
    intro job hj
    simpa using List.countP_eq_zero.1 h0 job hj
  started i hw := by have := h.sem i; omega
  token i hw := by
    have := h.sem i
    cases hp : (s.mThreads i).phase <;> rw [hp, hw] at this <;> simp only [Phase.notified] at this <;>
      simp <;> omega
  joined i hw := h.sent.done (h.toSignals.exited hw)
  returned hm i := by
    have hp := h.toSignals.exited (i := i) (by rw [hm]; exact if_pos i.2)
    exact ⟨h.sent.done hp, by rw [h.sent.exitsOf_eq, hp]; rfl⟩
  goesOn hd := by
    rcases hd with ⟨k, hm⟩ | ⟨k, hk, hm⟩
    · by_cases hk : k < n
      · obtain ⟨id, wake, s', hs⟩ := exists_addJob { s with main := .adding (k + 1) } true
        exact ⟨.main id wake, trivial, exists_step ⟨s', by simp only [act, mainStep, hm, if_pos hk]; exact hs⟩⟩
      · exact ⟨.main 0 none, trivial, exists_step ⟨_, by simp only [act, mainStep, hm, if_neg hk]; rfl⟩⟩
    · exact h.goesOn_deleting hk hm

theorem handshake (h : Reach (Under NoExit (Ok Pool.step)) (Pool.new n) s) : s.Handshake :=
  (Inv.of_reach h).shakesHands

/-- Two workers, a job and the destructor up to its return. -/
theorem handshake_two_workers : ∃ s : Pool 2, Reach (Under NoExit (Ok step)) (new 2) s ∧
    s.main = .deleting 2 ∧ s.Handshake := by
  have hg : Goes step NoExit (fun s : Pool 2 => s.main = .deleting 2) (new 2)
      [.main 0 none, .work 0, .main 0 none, .main 0 none, .work 1, .main 0 none, .work 0,
        .addJob ⟨0, false⟩ (some 0), .main 0 none, .main 1 none, .main 2 none, .main 0 none,
        .work 0, .work 1, .work 0, .work 0, .work 0, .work 0, .work 0, .work 0, .main 0 none,
        .work 1, .work 1, .work 1, .main 0 none] := by
    decide
  obtain ⟨s, hr, hm⟩ := hg.reach
  exact ⟨s, hr, hm, handshake hr⟩

end Pool

end ChCppUtils.ThreadPool
