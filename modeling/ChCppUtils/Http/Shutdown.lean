import ChCppUtils.Http.Ready

/-!
# The destructor of the server (http-server.cpp, thread.cpp)

`~HttpServer` tells each event loop once to exit, adds an exit job for each thread, and then waits for the threads
in turn. A loop that is told before it runs exits as soon as it runs, and a loop that has exited has forgotten that
it was told. So it matters whether a job of `_workerRoutine` is still in the queue: a thread that comes out of its
loop may take it and dispatch again, and nobody tells it a second time (`settles_iff`). That a loop which is told
does exit is assumed; the connection that the destructor makes is to wake it up.
-/

namespace ChCppUtils.Http.Server.Shutdown

open Runs Tally

/-- What is in `mJobQueue`: a job for `_workerRoutine`, or a `ThreadExitJob`. -/
inductive Job where
  | worker
  | exit
deriving DecidableEq, Repr

/-- Where a thread is in `Thread::run`: in `threadGetNextJob_`; in the `event_base_dispatch` of `_workerRoutine`;
after the second `mSemaphore.notify()`, with the event base freed. -/
inductive Phase where
  | fetching
  | dispatching
  | exited
deriving DecidableEq, Repr

/-- `loopexit`: the event base has been told to exit and its loop has not seen it yet. -/
structure HttpThread where
  phase : Phase
  loopexit : Bool
deriving DecidableEq, Repr

/-- Where the destructor is: in its first loop, with `k` threads done; before `addJob`; in the second loop, with
`k` threads deleted (with all of them, the destructor has returned). -/
inductive Main (n : Nat) where
  | exiting (k : Nat)
  | adding (i : Fin n)
  | deleting (k : Nat)
deriving DecidableEq, Repr

structure HttpServer (n : Nat) where
  mThreads : Fin n → HttpThread
  mJobQueue : List Job
  main : Main n

/-- The next steps of the destructor and of a thread. -/
inductive Action (n : Nat) where
  | main
  | work (i : Fin n)
deriving DecidableEq, Repr

/-- `event_base_loopexit`. There is no event base when the thread has exited. -/
def HttpThread.exitLoop (t : HttpThread) : HttpThread :=
  if t.phase = .exited then t else { t with loopexit := true }

def HttpThread.isExited (t : HttpThread) : Bool := t.phase = .exited

namespace HttpServer

variable {n : Nat}

def setThread (s : HttpServer n) (i : Fin n) (t : HttpThread) : HttpServer n :=
  { s with mThreads := Function.update s.mThreads i t }

/-- `~HttpServer` -/
def mainStep (s : HttpServer n) : Res (HttpServer n) :=
  match s.main with
  | .exiting k =>
    if h : k < n then
      pure ({ s with main := .adding ⟨k, h⟩ }.setThread ⟨k, h⟩ (s.mThreads ⟨k, h⟩).exitLoop)
    else pure { s with main := .deleting 0 }
  | .adding i => pure { s with mJobQueue := s.mJobQueue ++ [.exit], main := .exiting (i + 1) }
  | .deleting k =>
    if h : k < n then
      -- `~Thread` waits for the second notification
      if (s.mThreads ⟨k, h⟩).phase = .exited then pure { s with main := .deleting (k + 1) } else throw .badAnswer
    else throw .badAnswer

/-- `Thread::run` -/
def work (s : HttpServer n) (i : Fin n) : Res (HttpServer n) :=
  match (s.mThreads i).phase with
  | .fetching =>
    match s.mJobQueue with
    | [] => throw .badAnswer
    | .worker :: q => pure ({ s with mJobQueue := q }.setThread i { s.mThreads i with phase := .dispatching })
    | .exit :: q => pure ({ s with mJobQueue := q }.setThread i { s.mThreads i with phase := .exited })
  | .dispatching =>
    if (s.mThreads i).loopexit then pure (s.setThread i ⟨.fetching, false⟩) else throw .badAnswer
  | .exited => throw .badAnswer

def step (s : HttpServer n) : Action n → Res (HttpServer n)
  | .main => s.mainStep
  | .work i => s.work i

/-- The destructor begins on a server whose constructor has returned. -/
def destroy (s : Startup.HttpServer n) : HttpServer n where
  mThreads i := ⟨if (s.mThreads i).phase = .dispatching then .dispatching else .fetching, false⟩
  mJobQueue := List.replicate s.mJobQueue .worker
  main := .exiting 0

/-! ### What a step does -/

variable {s s' : HttpServer n} {i j : Fin n} {t : HttpThread}

theorem mainStep_cases (hs : s.mainStep = .ok s') :
    (∃ i : Fin n, s.main = .exiting i ∧ s' = { s with main := .adding i }.setThread i (s.mThreads i).exitLoop) ∨
    (∃ k, n ≤ k ∧ s.main = .exiting k ∧ s' = { s with main := .deleting 0 }) ∨
    (∃ i : Fin n, s.main = .adding i ∧
      s' = { s with mJobQueue := s.mJobQueue ++ [.exit], main := .exiting (i + 1) }) ∨
    ∃ i : Fin n, s.main = .deleting i ∧ (s.mThreads i).phase = .exited ∧ s' = { s with main := .deleting (i + 1) } := by
  unfold mainStep at hs
  split at hs
  · rename_i k hm
    split at hs
    · rename_i hk
      exact .inl ⟨⟨k, hk⟩, hm, (Except.ok.inj hs).symm⟩
    · rename_i hk
      exact .inr (.inl ⟨k, Nat.le_of_not_lt hk, hm, (Except.ok.inj hs).symm⟩)
  · rename_i i hm
    exact .inr (.inr (.inl ⟨i, hm, (Except.ok.inj hs).symm⟩))
  · rename_i k hm
    split at hs
    · rename_i hk
      split at hs
      · rename_i hp
        exact .inr (.inr (.inr ⟨⟨k, hk⟩, hm, hp, (Except.ok.inj hs).symm⟩))
      · cases hs
    · cases hs

theorem work_cases (hs : s.work i = .ok s') :
    (∃ q, (s.mThreads i).phase = .fetching ∧ s.mJobQueue = .worker :: q ∧
      s' = { s with mJobQueue := q }.setThread i { s.mThreads i with phase := .dispatching }) ∨
    (∃ q, (s.mThreads i).phase = .fetching ∧ s.mJobQueue = .exit :: q ∧
      s' = { s with mJobQueue := q }.setThread i { s.mThreads i with phase := .exited }) ∨
    (s.mThreads i).phase = .dispatching ∧ (s.mThreads i).loopexit = true ∧ s' = s.setThread i ⟨.fetching, false⟩ := by
  unfold HttpServer.work at hs
  split at hs
  · rename_i hp
    split at hs
    · cases hs
    · rename_i q hq
      exact .inl ⟨q, hp, hq, (Except.ok.inj hs).symm⟩
    · rename_i q hq
      exact .inr (.inl ⟨q, hp, hq, (Except.ok.inj hs).symm⟩)
  · rename_i hp
    split at hs
    · rename_i hl
      exact .inr (.inr ⟨hp, hl, (Except.ok.inj hs).symm⟩)
    · cases hs
  · cases hs

theorem setThread_self (s : HttpServer n) (i : Fin n) (t : HttpThread) : (s.setThread i t).mThreads i = t :=
  Function.update_self ..

theorem setThread_ne (s : HttpServer n) (t : HttpThread) (h : j ≠ i) :
    (s.setThread i t).mThreads j = s.mThreads j := Function.update_of_ne h ..

end HttpServer

/-! ### Every run ends -/

def HttpThread.ahead (t : HttpThread) : Nat :=
  match t.phase with
  | .dispatching => 2
  | .fetching => 1
  | .exited => 0

theorem HttpThread.ahead_exitLoop (t : HttpThread) : t.exitLoop.ahead = t.ahead := by
  unfold exitLoop
  split <;> rfl

variable {n : Nat}

def Main.ahead : Main n → Nat
  | .exiting k => 2 * (n - k) + n + 1
  | .adding i => 2 * (n - i) + n
  | .deleting k => n - k

namespace HttpServer

variable {s s' : HttpServer n} {i j : Fin n} {t : HttpThread}

/-- A job of `_workerRoutine` that is still queued is one more dispatch, for whoever takes it. -/
def ahead (s : HttpServer n) : Nat :=
  2 * s.mJobQueue.count .worker + total HttpThread.ahead s.mThreads + s.main.ahead

theorem total_setThread (s : HttpServer n) (i : Fin n) (t : HttpThread) :
    total HttpThread.ahead (s.setThread i t).mThreads + (s.mThreads i).ahead =
      total HttpThread.ahead s.mThreads + t.ahead :=
  total_update HttpThread.ahead s.mThreads i t

theorem ahead_main (s : HttpServer n) (m : Main n) {q : List Job} (hq : q.count .worker = s.mJobQueue.count .worker) :
    ({ s with mJobQueue := q, main := m } : HttpServer n).ahead + s.main.ahead = s.ahead + m.ahead := by
  show 2 * q.count .worker + total HttpThread.ahead s.mThreads + m.ahead + _ = _
  rw [ahead, hq]
  omega

theorem ahead_mainStep (hs : s.mainStep = .ok s') : s'.ahead < s.ahead := by
  rcases mainStep_cases hs with ⟨i, hm, rfl⟩ | ⟨k, hk, hm, rfl⟩ | ⟨i, hm, rfl⟩ | ⟨i, hm, -, rfl⟩
  · have hmain := ahead_main s (.adding i) rfl
    have htotal := total_setThread { s with main := .adding i } i (s.mThreads i).exitLoop
    rw [HttpThread.ahead_exitLoop] at htotal
    replace htotal := Nat.add_right_cancel htotal
    have hi := i.isLt
    rw [hm] at hmain
    simp only [Main.ahead] at hmain
    have hset : ({ s with main := .adding i }.setThread i (s.mThreads i).exitLoop).ahead =
        ({ s with main := .adding i } : HttpServer n).ahead := by
      rw [ahead, htotal]
      rfl
    omega
  · have hmain := ahead_main s (.deleting 0) rfl
    rw [hm] at hmain
    simp only [Main.ahead] at hmain
    omega
  · have hcount : (s.mJobQueue ++ [Job.exit]).count Job.worker = s.mJobQueue.count Job.worker := by
      rw [List.count_append]
      rfl
    have hmain := ahead_main s (.exiting (i + 1)) hcount
    have hi := i.isLt
    rw [hm] at hmain
    simp only [Main.ahead] at hmain
    omega
  · have hmain := ahead_main s (.deleting (i + 1)) rfl
    have hi := i.isLt
    rw [hm] at hmain
    simp only [Main.ahead] at hmain
    omega

theorem ahead_work (hs : s.work i = .ok s') : s'.ahead < s.ahead := by
  rcases work_cases hs with ⟨q, hp, hq, rfl⟩ | ⟨q, hp, hq, rfl⟩ | ⟨hp, -, rfl⟩
  · have htotal := total_setThread { s with mJobQueue := q } i { s.mThreads i with phase := .dispatching }
    have hold : (s.mThreads i).ahead = 1 := by rw [HttpThread.ahead, hp]
    change _ + (s.mThreads i).ahead = total HttpThread.ahead s.mThreads + 2 at htotal
    show 2 * q.count .worker + _ + s.main.ahead < _
    rw [ahead, hq, List.count_cons_self]
    omega
  · have htotal := total_setThread { s with mJobQueue := q } i { s.mThreads i with phase := .exited }
    have hold : (s.mThreads i).ahead = 1 := by rw [HttpThread.ahead, hp]
    have hcount : (Job.exit :: q).count .worker = q.count .worker := List.count_cons_of_ne (by intro h; cases h)
    change _ + (s.mThreads i).ahead = total HttpThread.ahead s.mThreads + 0 at htotal
    show 2 * q.count .worker + _ + s.main.ahead < _
    rw [ahead, hq, hcount]
    omega
  · have htotal := total_setThread s i ⟨.fetching, false⟩
    have hold : (s.mThreads i).ahead = 2 := by rw [HttpThread.ahead, hp]
    change _ + (s.mThreads i).ahead = total HttpThread.ahead s.mThreads + 1 at htotal
    show 2 * s.mJobQueue.count .worker + _ + s.main.ahead < _
    rw [ahead]
    omega

theorem ahead_step {a : Action n} (hs : s.step a = .ok s') : s'.ahead < s.ahead := by
  cases a with
  | main => exact ahead_mainStep hs
  | work i => exact ahead_work hs

end HttpServer

/-! ### A thread that dispatches for the second time -/

/-- Any step of the destructor and the threads. -/
def Any (_ : HttpServer n) (_ : Action n) : Prop := True

/-- The destructor is not past thread `j`, which has forgotten that it was told to exit. -/
def Trapped (j : Fin n) (s : HttpServer n) : Prop :=
  (∃ k : Nat, s.main = .deleting k ∧ k ≤ j) ∧ s.mThreads j = ⟨.dispatching, false⟩

namespace HttpServer

variable {s s₀ s' : HttpServer n} {i j : Fin n} {a : Action n}

theorem work_ne (hs : s.work i = .ok s') (hj : j ≠ i) : s'.mThreads j = s.mThreads j ∧ s'.main = s.main := by
  rcases work_cases hs with ⟨q, -, -, rfl⟩ | ⟨q, -, -, rfl⟩ | ⟨-, -, rfl⟩ <;> exact ⟨setThread_ne _ _ hj, rfl⟩

end HttpServer

theorem Trapped.step {s s' : HttpServer n} {j : Fin n} {a : Action n} (h : Trapped j s) (hs : s.step a = .ok s') :
    Trapped j s' := by
  obtain ⟨⟨k, hm, hk⟩, ht⟩ := h
  cases a with
  | main =>
    rcases HttpServer.mainStep_cases hs with ⟨i, hm', rfl⟩ | ⟨k', -, hm', rfl⟩ | ⟨i, hm', rfl⟩ | ⟨i, hm', hp, rfl⟩
    · cases hm.symm.trans hm'
    · cases hm.symm.trans hm'
    · cases hm.symm.trans hm'
    · obtain rfl : k = i := Main.deleting.inj (hm.symm.trans hm')
      have hne : (i : Nat) ≠ j := by
        intro he
        rw [Fin.ext he, ht] at hp
        cases hp
      exact ⟨⟨i + 1, rfl, by omega⟩, ht⟩
  | work i =>
    have hij : j ≠ i := by
      rintro rfl
      rcases HttpServer.work_cases hs with ⟨q, hp, -, -⟩ | ⟨q, hp, -, -⟩ | ⟨-, hl, -⟩
      · rw [ht] at hp
        cases hp
      · rw [ht] at hp
        cases hp
      · rw [ht] at hl
        cases hl
    obtain ⟨hthread, hmain⟩ := HttpServer.work_ne hs hij
    exact ⟨⟨k, hmain.trans hm, hk⟩, hthread.trans ht⟩

namespace HttpServer

variable {s s₀ s' : HttpServer n} {i j : Fin n} {a : Action n}

/-- The first loop of the destructor, with nothing else going on. -/
theorem exiting_reach {k : Nat} (hk : k ≤ n) (hr : Reach (Under Any (Ok step)) s₀ s) (hm : s.main = .exiting k)
    (hp : (s.mThreads j).phase = .dispatching) (hl : (s.mThreads j).loopexit = true ∨ k ≤ j) :
    ∃ s', Reach (Under Any (Ok step)) s₀ s' ∧ s'.main = .deleting 0 ∧ s'.mThreads j = ⟨.dispatching, true⟩ ∧
      ∃ q, s'.mJobQueue = s.mJobQueue ++ q := by
  generalize hd : n - k = d
  induction d generalizing k s with
  | zero =>
    have hend : s.step .main = .ok { s with main := .deleting 0 } := by
      simp only [HttpServer.step, mainStep, hm, dif_neg (show ¬ k < n by omega)]
      rfl
    refine ⟨_, hr.step ⟨trivial, hend⟩, rfl, ?_, [], (List.append_nil _).symm⟩
    have hj := j.isLt
    show s.mThreads j = _
    rw [← hp, ← hl.resolve_right (by omega)]
  | succ d ih =>
    have hlt : k < n := by omega
    have htell : s.step .main = .ok ({ s with main := .adding ⟨k, hlt⟩ }.setThread ⟨k, hlt⟩
        (s.mThreads ⟨k, hlt⟩).exitLoop) := by
      simp only [HttpServer.step, mainStep, hm, dif_pos hlt]
      rfl
    -- the loop of thread `j` is told at its turn
    have hthread : (({ s with main := .adding ⟨k, hlt⟩ }.setThread ⟨k, hlt⟩
          (s.mThreads ⟨k, hlt⟩).exitLoop).mThreads j).phase = .dispatching ∧
        ((({ s with main := .adding ⟨k, hlt⟩ }.setThread ⟨k, hlt⟩
          (s.mThreads ⟨k, hlt⟩).exitLoop).mThreads j).loopexit = true ∨ k + 1 ≤ j) := by
      by_cases hj : j = ⟨k, hlt⟩
      · rw [← hj, setThread_self]
        have hne : (s.mThreads j).phase ≠ .exited := by rw [hp]; intro he; cases he
        rw [HttpThread.exitLoop, if_neg hne]
        exact ⟨hp, .inl rfl⟩
      · rw [setThread_ne _ _ hj]
        have hne : (j : Nat) ≠ k := fun he => hj (Fin.ext he)
        exact ⟨hp, hl.imp_right fun h => by omega⟩
    obtain ⟨s', hr', hm', ht', q, hq⟩ := ih hlt ((hr.step ⟨trivial, htell⟩).step (a := .main) ⟨trivial, rfl⟩) rfl
      hthread.1 hthread.2 (by omega)
    refine ⟨s', hr', hm', ht', Job.exit :: q, ?_⟩
    rw [hq]
    exact List.append_assoc s.mJobQueue [Job.exit] q

/-- With a job of `_workerRoutine` in the queue, a thread that dispatches can be made to take it. -/
theorem trapped_reach {q : List Job} (hr : Reach (Under Any (Ok step)) s₀ s) (hm : s.main = .exiting 0)
    (hp : (s.mThreads j).phase = .dispatching) (hq : s.mJobQueue = .worker :: q) :
    ∃ s', Reach (Under Any (Ok step)) s₀ s' ∧ Trapped j s' := by
  obtain ⟨s₁, hr₁, hm₁, ht₁, q', hq₁⟩ := exiting_reach (Nat.zero_le n) hr hm hp (.inr (Nat.zero_le j))
  rw [hq, List.cons_append] at hq₁
  have hleave : s₁.step (.work j) = .ok (s₁.setThread j ⟨.fetching, false⟩) := by
    simp only [HttpServer.step, HttpServer.work, ht₁, if_true]
    rfl
  have hself : (s₁.setThread j ⟨.fetching, false⟩).mThreads j = ⟨.fetching, false⟩ := setThread_self ..
  have hqueue : (s₁.setThread j ⟨.fetching, false⟩).mJobQueue = .worker :: (q ++ q') := hq₁
  have htake : (s₁.setThread j ⟨.fetching, false⟩).step (.work j) =
      .ok ({ s₁.setThread j ⟨.fetching, false⟩ with mJobQueue := q ++ q' }.setThread j ⟨.dispatching, false⟩) := by
    simp only [HttpServer.step, HttpServer.work, hself, hqueue]
    rfl
  exact ⟨_, (hr₁.step ⟨trivial, hleave⟩).step ⟨trivial, htake⟩, ⟨0, hm₁, Nat.zero_le j⟩, setThread_self ..⟩

/-- Not every thread dispatches, and there are others. Then one can be made to dispatch while a job is left. -/
theorem exists_dispatching {s : Startup.HttpServer n} (h : s.Counts) (hm : s.main = .binding n) (hn : 2 ≤ n)
    (hi : (s.mThreads i).phase ≠ .dispatching) : ∃ t j q, Reach (Under Any (Ok step)) (destroy s) t ∧
      t.main = .exiting 0 ∧ (t.mThreads j).phase = .dispatching ∧ t.mJobQueue = .worker :: q := by
  have hjobs := h.jobs
  rw [hm] at hjobs
  simp only [Startup.Main.added] at hjobs
  by_cases hsome : ∃ j, (s.mThreads j).phase = .dispatching
  · obtain ⟨j, hj⟩ := hsome
    have hlt : tally Startup.HttpThread.isDispatching s.mThreads < Fintype.card (Fin n) :=
      tally_lt_card (i := i) (by simp [Startup.HttpThread.isDispatching, hi])
    rw [Fintype.card_fin] at hlt
    obtain ⟨q, hq⟩ : ∃ q, s.mJobQueue = q + 1 := Nat.exists_eq_succ_of_ne_zero (by omega)
    refine ⟨destroy s, j, List.replicate q .worker, .refl, rfl, if_pos hj, ?_⟩
    show List.replicate s.mJobQueue Job.worker = _
    rw [hq, List.replicate_succ]
  · -- all of them look for a job
    have hnone : tally Startup.HttpThread.isDispatching s.mThreads = 0 := by
      refine Finset.sum_eq_zero fun j _ => ?_
      have hj : (s.mThreads j).phase ≠ .dispatching := fun he => hsome ⟨j, he⟩
      simp [Startup.HttpThread.isDispatching, hj]
    obtain ⟨q, hq⟩ : ∃ q, s.mJobQueue = q + 1 + 1 := ⟨s.mJobQueue - 2, by omega⟩
    have hqueue : (destroy s).mJobQueue = .worker :: .worker :: List.replicate q .worker := by
      show List.replicate s.mJobQueue Job.worker = _
      rw [hq, List.replicate_succ, List.replicate_succ]
    have hthread : (destroy s).mThreads i = ⟨.fetching, false⟩ := by
      show (⟨if _ then _ else _, false⟩ : HttpThread) = _
      rw [if_neg hi]
    have htake : (destroy s).step (.work i) = .ok ({ destroy s with
        mJobQueue := .worker :: List.replicate q .worker }.setThread i ⟨.dispatching, false⟩) := by
      simp only [HttpServer.step, HttpServer.work, hthread, hqueue]
      rfl
    refine ⟨_, i, List.replicate q .worker, Reach.refl.step ⟨trivial, htake⟩, rfl, ?_, rfl⟩
    rw [setThread_self]

/-! ### Each thread is told in time -/

end HttpServer

namespace Main

/-- How many loops have been told to exit. -/
def told : Main n → Nat
  | .exiting k => k
  | .adding i => i + 1
  | .deleting _ => n

/-- How many exit jobs have been added. -/
def added : Main n → Nat
  | .exiting k => k
  | .adding i => i
  | .deleting _ => n

end Main

/-- The queue holds `w` jobs of `_workerRoutine` and `e` exit jobs. As long as there is one of the first kind it is
the only thread that it is for. -/
structure Orderly (w e : Nat) (s : HttpServer n) : Prop where
  queue : s.mJobQueue = List.replicate w .worker ++ List.replicate e .exit
  single : w ≤ 1
  fetching : 0 < w → ∀ i : Fin n, (s.mThreads i).phase = .fetching ∧ (i < s.main.told → (s.mThreads i).loopexit = true)
  told : ∀ i : Fin n, (s.mThreads i).phase = .dispatching → i < s.main.told → (s.mThreads i).loopexit = true
  exits : e + tally HttpThread.isExited s.mThreads = s.main.added
  room : ∀ k, s.main = .exiting k ∨ s.main = .deleting k → k ≤ n

namespace Orderly

variable {s s' : HttpServer n} {i : Fin n} {w e : Nat}

theorem new {s : Startup.HttpServer n} (h : s.Counts) (hm : s.main = .binding n)
    (hn : n ≤ 1 ∨ ∀ i, (s.mThreads i).phase = .dispatching) : Orderly s.mJobQueue 0 (HttpServer.destroy s) where
  queue := (List.append_nil _).symm
  single := by
    have hjobs := h.jobs
    rw [hm] at hjobs
    simp only [Startup.Main.added] at hjobs
    rcases hn with hn | hall
    · omega
    · have htally : tally Startup.HttpThread.isDispatching s.mThreads = Fintype.card (Fin n) :=
        tally_of_forall fun i => by simp [Startup.HttpThread.isDispatching, hall i]
      rw [Fintype.card_fin] at htally
      omega
  fetching hw i := by
    have hjobs := h.jobs
    rw [hm] at hjobs
    simp only [Startup.Main.added] at hjobs
    refine ⟨if_neg fun hp => ?_, fun hi => absurd hi (Nat.not_lt_zero _)⟩
    -- of one thread that dispatches the job is gone
    have hpos : 0 < tally Startup.HttpThread.isDispatching s.mThreads :=
      tally_pos.2 ⟨i, by simp [Startup.HttpThread.isDispatching, hp]⟩
    rcases hn with hn | hall
    · omega
    · have htally : tally Startup.HttpThread.isDispatching s.mThreads = Fintype.card (Fin n) :=
        tally_of_forall fun i => by simp [Startup.HttpThread.isDispatching, hall i]
      rw [Fintype.card_fin] at htally
      omega
  told _ _ hi := absurd hi (Nat.not_lt_zero _)
  exits := by
    have hnone : tally HttpThread.isExited (HttpServer.destroy s).mThreads = 0 := by
      refine Finset.sum_eq_zero fun i _ => ?_
      show (HttpThread.isExited ⟨if _ then _ else _, false⟩).toNat = 0
      split <;> rfl
    rw [hnone]
    rfl
  room k hk := by
    rcases hk with hk | hk
    · obtain rfl : 0 = k := Main.exiting.inj hk
      exact Nat.zero_le n
    · cases hk

theorem of_work {q : List Job} {w' e' : Nat} {t : HttpThread} (h : Orderly w e s)
    (hq : q = List.replicate w' .worker ++ List.replicate e' .exit) (hw : w' = 0)
    (ht : t.phase = .dispatching → i < s.main.told → t.loopexit = true)
    (hexits : e' + t.isExited.toNat = e + (s.mThreads i).isExited.toNat) :
    Orderly w' e' ({ s with mJobQueue := q }.setThread i t) := by
  refine ⟨hq, by omega, fun hpos => absurd hw (Nat.ne_of_gt hpos), ?_, ?_, h.room⟩
  · intro j hp hj
    by_cases hji : j = i
    · rw [hji, HttpServer.setThread_self] at hp ⊢
      exact ht hp (hji ▸ hj)
    · rw [HttpServer.setThread_ne _ _ hji] at hp ⊢
      exact h.told j hp hj
  · have htally : tally HttpThread.isExited ({ s with mJobQueue := q }.setThread i t).mThreads +
        (s.mThreads i).isExited.toNat = tally HttpThread.isExited s.mThreads + t.isExited.toNat :=
      tally_update HttpThread.isExited s.mThreads i t
    have hold := h.exits
    show e' + _ = s.main.added
    omega

theorem work (h : Orderly w e s) (hs : s.work i = .ok s') : ∃ w e, Orderly w e s' := by
  have hqueue := h.queue
  rcases HttpServer.work_cases hs with ⟨q, hp, hq, rfl⟩ | ⟨q, hp, hq, rfl⟩ | ⟨hp, hl, rfl⟩
  · cases w with
    | zero =>
      rw [hq] at hqueue
      cases e <;> cases hqueue
    | succ w =>
      obtain rfl : w = 0 := Nat.le_zero.1 (Nat.le_of_succ_le_succ h.single)
      rw [hq, List.replicate_succ, List.cons_append] at hqueue
      refine ⟨0, e, h.of_work (List.cons.inj hqueue).2 rfl (fun _ hi => ?_) ?_⟩
      · exact (h.fetching Nat.one_pos i).2 hi
      · rw [HttpThread.isExited, HttpThread.isExited, hp]
        rfl
  · cases w with
    | succ w =>
      rw [hq, List.replicate_succ, List.cons_append] at hqueue
      cases (List.cons.inj hqueue).1
    | zero =>
      cases e with
      | zero =>
        rw [hq] at hqueue
        cases hqueue
      | succ e =>
        rw [hq, List.replicate_zero, List.nil_append, List.replicate_succ] at hqueue
        refine ⟨0, e, h.of_work (List.cons.inj hqueue).2 rfl (fun hp' => ?_) ?_⟩
        · cases hp'
        · rw [HttpThread.isExited, HttpThread.isExited, hp]
          rfl
  · obtain rfl : w = 0 := by
      by_contra hw
      have hfetching := (h.fetching (Nat.pos_of_ne_zero hw) i).1
      rw [hp] at hfetching
      cases hfetching
    refine ⟨0, e, h.of_work (q := s.mJobQueue) hqueue rfl (fun hp' => ?_) ?_⟩
    · cases hp'
    · rw [HttpThread.isExited, HttpThread.isExited, hp]
      rfl

theorem tell (h : Orderly w e s) (hm : s.main = .exiting i) :
    Orderly w e ({ s with main := .adding i }.setThread i (s.mThreads i).exitLoop) := by
  have hphase : ∀ t : HttpThread, t.exitLoop.phase = t.phase := by
    intro t
    unfold HttpThread.exitLoop
    split <;> rfl
  have hloop : ∀ t : HttpThread, t.phase ≠ .exited → t.exitLoop.loopexit = true := by
    intro t ht
    rw [HttpThread.exitLoop, if_neg ht]
  have hold : ∀ j : Fin n, j ≠ i → (j : Nat) < i + 1 → (j : Nat) < s.main.told := by
    intro j hji hj
    have hne : (j : Nat) ≠ i := fun he => hji (Fin.ext he)
    rw [hm]
    show (j : Nat) < i
    omega
  refine ⟨h.queue, h.single, fun hw j => ?_, fun j hp hj => ?_, ?_, ?_⟩
  · obtain ⟨hp, hl⟩ := h.fetching hw j
    by_cases hji : j = i
    · rw [hji, HttpServer.setThread_self, hphase, ← hji]
      exact ⟨hp, fun _ => hloop _ (by rw [hp]; intro he; cases he)⟩
    · rw [HttpServer.setThread_ne _ _ hji]
      exact ⟨hp, fun hj => hl (hold j hji hj)⟩
  · by_cases hji : j = i
    · rw [hji, HttpServer.setThread_self] at hp ⊢
      exact hloop _ (by rw [← hphase, hp]; intro he; cases he)
    · rw [HttpServer.setThread_ne _ _ hji] at hp ⊢
      exact h.told j hp (hold j hji hj)
  · have htally : tally HttpThread.isExited ({ s with main := .adding i }.setThread i (s.mThreads i).exitLoop).mThreads +
        (s.mThreads i).isExited.toNat = tally HttpThread.isExited s.mThreads + (s.mThreads i).exitLoop.isExited.toNat :=
      tally_update HttpThread.isExited s.mThreads i _
    have hsame : (s.mThreads i).exitLoop.isExited = (s.mThreads i).isExited := by
      rw [HttpThread.isExited, hphase, HttpThread.isExited]
    rw [hsame] at htally
    replace htally := Nat.add_right_cancel htally
    rw [htally]
    have hexits := h.exits
    rwa [hm] at hexits
  · rintro k (hk | hk) <;> cases hk

theorem main (h : Orderly w e s) (hs : s.mainStep = .ok s') : ∃ w e, Orderly w e s' := by
  have hfetching := h.fetching
  have htold := h.told
  have hexits := h.exits
  rcases HttpServer.mainStep_cases hs with ⟨i, hm, rfl⟩ | ⟨k, hk, hm, rfl⟩ | ⟨i, hm, rfl⟩ | ⟨i, hm, -, rfl⟩
  · exact ⟨w, e, h.tell hm⟩
  · obtain rfl : k = n := Nat.le_antisymm (h.room k (.inl hm)) hk
    rw [hm] at hfetching htold hexits
    refine ⟨w, e, h.queue, h.single, hfetching, htold, hexits, ?_⟩
    rintro k' (hk' | hk')
    · cases hk'
    · obtain rfl : 0 = k' := Main.deleting.inj hk'
      exact Nat.zero_le _
  · rw [hm] at hfetching htold hexits
    refine ⟨w, e + 1, ?_, h.single, hfetching, htold, ?_, ?_⟩
    · show s.mJobQueue ++ [Job.exit] = _
      rw [h.queue, List.append_assoc, List.replicate_succ']
    · show e + 1 + tally HttpThread.isExited s.mThreads = i + 1
      change e + tally HttpThread.isExited s.mThreads = i at hexits
      omega
    · rintro k (hk | hk)
      · obtain rfl : (i : Nat) + 1 = k := Main.exiting.inj hk
        exact i.isLt
      · cases hk
  · rw [hm] at hfetching htold hexits
    refine ⟨w, e, h.queue, h.single, hfetching, htold, hexits, ?_⟩
    rintro k (hk | hk)
    · cases hk
    · obtain rfl : (i : Nat) + 1 = k := Main.deleting.inj hk
      exact i.isLt

theorem step {a : Action n} (h : Orderly w e s) (hs : s.step a = .ok s') : ∃ w e, Orderly w e s' := by
  cases a with
  | main => exact h.main hs
  | work i => exact h.work hs

theorem deleted (h : Orderly w e s) (hnone : ∀ a s', s.step a ≠ .ok s') : s.main = .deleting n := by
  have hmain : ∀ s', s.mainStep ≠ .ok s' := hnone .main
  cases hm : s.main with
  | exiting k =>
    by_cases hk : k < n
    · exact absurd (by simp only [HttpServer.mainStep, hm, dif_pos hk]; rfl) (hmain _)
    · exact absurd (by simp only [HttpServer.mainStep, hm, dif_neg hk]; rfl) (hmain _)
  | adding i => exact absurd (by simp only [HttpServer.mainStep, hm]; rfl) (hmain _)
  | deleting k =>
    rcases Nat.lt_or_eq_of_le (h.room k (.inr hm)) with hk | rfl
    case inr => rfl
    have hwork : ∀ s', s.work ⟨k, hk⟩ ≠ .ok s' := hnone (.work ⟨k, hk⟩)
    cases hp : (s.mThreads ⟨k, hk⟩).phase with
    | exited => exact absurd (by simp only [HttpServer.mainStep, hm, dif_pos hk, hp, if_true]; rfl) (hmain _)
    | dispatching =>
      have hl := h.told ⟨k, hk⟩ hp (by rw [hm]; exact hk)
      exact absurd (by simp only [HttpServer.work, hp, hl, if_true]; rfl) (hwork _)
    | fetching =>
      -- of `n` exit jobs one is left for it
      have hlt : tally HttpThread.isExited s.mThreads < Fintype.card (Fin n) :=
        tally_lt_card (i := ⟨k, hk⟩) (by rw [HttpThread.isExited, hp]; rfl)
      rw [Fintype.card_fin] at hlt
      have hexits := h.exits
      rw [hm, show Main.added (n := n) (.deleting k) = n from rfl] at hexits
      have hqueue := h.queue
      obtain ⟨e, rfl⟩ : ∃ e', e = e' + 1 := ⟨e - 1, by omega⟩
      cases w with
      | zero =>
        rw [List.replicate_zero, List.nil_append, List.replicate_succ] at hqueue
        exact absurd (by simp only [HttpServer.work, hp, hqueue]; rfl) (hwork _)
      | succ w =>
        rw [List.replicate_succ, List.cons_append] at hqueue
        exact absurd (by simp only [HttpServer.work, hp, hqueue]; rfl) (hwork _)

end Orderly

namespace HttpServer

variable {evbuffer_remove : Evbuffer → Nat → Removed}

/-- Once a thread is trapped, it stays so, and the destructor waits for it. -/
theorem exists_trapped {s : Startup.HttpServer n} (h : s.Counts) (hm : s.main = .binding n)
    (hn : ¬ (n ≤ 1 ∨ ∀ i, (s.mThreads i).phase = .dispatching)) :
    ∃ t j, Reach (Under Any (Ok step)) (destroy s) t ∧ ∀ u, Reach (Under Any (Ok step)) t u → Trapped j u := by
  obtain ⟨hn, hi⟩ := not_or.1 hn
  obtain ⟨i, hi⟩ := not_forall.1 hi
  obtain ⟨t, j, q, ht, htm, hp, hq⟩ := exists_dispatching h hm (by omega) hi
  obtain ⟨t', ht', htrap⟩ := trapped_reach ht htm hp hq
  exact ⟨t', j, ht', fun u hu => hu.invariant (I := Trapped j) htrap fun _ _ _ hI hr => hI.step hr.2⟩

/-- The destructor and the threads, in any order, get to its return exactly if there is no more than one thread, or
each thread has taken its job before the destructor begins. Otherwise they may come to where it waits for ever. -/
theorem settles_iff {s : Startup.HttpServer n}
    (h : Reach (Ok (Startup.HttpServer.step evbuffer_remove)) (Startup.HttpServer.new n) s) (hm : s.main = .binding n) :
    (Settles (Ok step) Any (fun t => t.main = .deleting n) (destroy s) ↔
        n ≤ 1 ∨ ∀ i, (s.mThreads i).phase = .dispatching) ∧
      (¬ (n ≤ 1 ∨ ∀ i, (s.mThreads i).phase = .dispatching) →
        ∃ t j, Reach (Under Any (Ok step)) (destroy s) t ∧ ∀ u, Reach (Under Any (Ok step)) t u → Trapped j u) := by
  have hcounts := Startup.HttpServer.Counts.of_reach h
  refine ⟨⟨fun hs => ?_, fun hn => ?_⟩, exists_trapped hcounts hm⟩
  · by_contra hn
    obtain ⟨t, j, ht, htrap⟩ := exists_trapped hcounts hm hn
    obtain ⟨u, hu, hum⟩ := (hs.of_reach ht).exists_reach
    obtain ⟨⟨k, hk, hle⟩, -⟩ := htrap u hu
    have hj := j.isLt
    obtain rfl : k = n := Main.deleting.inj (hk.symm.trans hum)
    omega
  · refine Settles.of_measure (I := fun t => ∃ w e, Orderly w e t) ahead ?_ ?_ ⟨_, _, Orderly.new hcounts hm hn⟩
    · rintro t a t' ⟨w, e, ho⟩ - hs
      exact ⟨ho.step hs, ahead_step hs⟩
    · rintro t ⟨w, e, ho⟩ hnone
      exact ho.deleted fun a t' => hnone a t' trivial

/-- The constructor of a server of two threads, of which the second has not taken its job. -/
theorem not_settles_two : ∃ s : Startup.HttpServer 2,
    Reach (Ok (Startup.HttpServer.step removeFront)) (Startup.HttpServer.new 2) s ∧ s.main = .binding 2 ∧
      ¬ Settles (Ok step) Any (fun t : HttpServer 2 => t.main = .deleting 2) (destroy s) := by
  have hg : Goes (Startup.HttpServer.step removeFront) (fun _ _ => True)
      (fun s : Startup.HttpServer 2 => s.main = .binding 2 ∧ (s.mThreads 1).phase = .fetching)
      (Startup.HttpServer.new 2)
      [.main, .work 0, .main, .main, .work 0, .main, .work 1, .main, .main, .main, .main, .main, .main, .main] := by
    decide
  obtain ⟨s, hr, hm, hp⟩ := hg.reach_ok
  refine ⟨s, hr, hm, fun hs => ?_⟩
  rcases (settles_iff hr hm).1.1 hs with hn | hall
  · omega
  · cases hp.symm.trans (hall 1)

end HttpServer

end ChCppUtils.Http.Server.Shutdown
