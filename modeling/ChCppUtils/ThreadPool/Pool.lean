import ChCppUtils.Basic
import ChCppUtils.Lib.Runs
import ChCppUtils.Lib.Tally

/-!
# `ThreadPool` and its workers (thread-pool.cpp, thread.cpp, semaphore.cpp)

A pool of `n` workers, the thread that constructs and destroys it, and any number of other callers of
`addJob`. An action is one critical section of a mutex, or what a thread does between two of them.
Waiting on `mCondition` gives up the mutex: the worker is woken by one `notify_one`, or for no
reason, and looks at the queue again. Waiting on a `Semaphore` ends when its count is positive, so
it is a step that is only possible then. The routine of a job that runs may return at any time.
-/

namespace ChCppUtils.ThreadPool

/-- `ThreadJobBase`: a `ThreadJob`, or a `ThreadExitJob`. `id` tells the objects apart. -/
structure Job where
  id : Nat
  exit : Bool
deriving DecidableEq, Repr

structure Semaphore where
  count : Nat
deriving DecidableEq, Repr

namespace Semaphore

def notify (s : Semaphore) : Semaphore := ⟨s.count + 1⟩

/-- `wait()` gets past its loop, or stays in it. -/
def wait (s : Semaphore) : Option Semaphore := if s.count = 0 then none else some ⟨s.count - 1⟩

end Semaphore

/-- Where a worker is in `Thread::run`. -/
inductive Phase where
  /-- The `std::thread` is not made yet. -/
  | unborn
  /-- Before `mSemaphore.notify()`. -/
  | booting
  /-- At the lock of `threadGetNextJob_`. -/
  | fetching
  /-- In `mCondition.wait`. -/
  | waiting
  /-- `mGetJob` has returned. -/
  | got (job : Job)
  /-- In `runJob`. -/
  | running (job : Job)
  /-- Out of the loop. -/
  | left
  /-- The de-init callback has returned, the event base is freed and the thread detached. -/
  | deinited
  /-- The second `mSemaphore.notify()` has returned. -/
  | exited
deriving DecidableEq, Repr

structure Worker where
  phase : Phase
  mSemaphore : Semaphore
deriving DecidableEq, Repr

/-- Where the thread is that owns the pool. -/
inductive Main (n : Nat) where
  /-- In `createThreads`, with the first `k` workers started; with all of them, the pool is in use. -/
  | creating (k : Nat)
  /-- In `mSemaphore.wait()` of `Thread::start`. -/
  | starting (i : Fin n)
  /-- In `~ThreadPool`, with `k` exit jobs added. -/
  | adding (k : Nat)
  /-- In `~ThreadPool`, with the first `k` threads deleted; with all of them, it has returned. -/
  | deleting (k : Nat)
deriving DecidableEq, Repr

/-- What has happened so far, for the statements: the code keeps no such lists, and `step` reads them off
the actions and the places. -/
structure Log (n : Nat) where
  accepted : List Job
  handed : List (Fin n × Job)
  started : List (Fin n × Job)
  finished : List (Fin n × Job)
  deinits : List (Fin n)

structure Pool (n : Nat) where
  mJobQueue : List Job
  mThreads : Fin n → Worker
  main : Main n
  log : Log n

inductive Action (n : Nat) where
  /-- `addJob`, by another thread or by the routine of a job. -/
  | addJob (job : Job) (wake : Option (Fin n))
  /-- The next step of a worker. -/
  | work (i : Fin n)
  /-- A wait on `mCondition` ends without a notification. -/
  | spurious (i : Fin n)
  /-- The next step of the owner; `id` and `wake` are for the exit job it may add. -/
  | main (id : Nat) (wake : Option (Fin n))
deriving DecidableEq, Repr

namespace Log

variable {n : Nat}

def addJob (log : Log n) (job : Job) : Log n := { log with accepted := log.accepted ++ [job] }

/-- Worker `i` gets from one place to another. -/
def work (log : Log n) (i : Fin n) : Phase → Phase → Log n
  | .fetching, .got job => { log with handed := log.handed ++ [(i, job)] }
  | .got _, .running job => { log with started := log.started ++ [(i, job)] }
  | .running job, .fetching => { log with finished := log.finished ++ [(i, job)] }
  | .left, .deinited => { log with deinits := log.deinits ++ [i] }
  | _, _ => log

/-- The owner gets from one place to another. -/
def main (log : Log n) (id : Nat) : Main n → Main n → Log n
  | .adding _, .adding _ => log.addJob ⟨id, true⟩
  | _, _ => log

end Log

namespace Pool

variable {n : Nat}

def new (n : Nat) : Pool n := ⟨[], fun _ => ⟨.unborn, ⟨0⟩⟩, .creating 0, ⟨[], [], [], [], []⟩⟩

def setThread (s : Pool n) (i : Fin n) (w : Worker) : Pool n :=
  { s with mThreads := Function.update s.mThreads i w }

def setPhase (s : Pool n) (i : Fin n) (p : Phase) : Pool n := s.setThread i { s.mThreads i with phase := p }

/-- `mCondition.notify_one()` wakes one of the threads that wait, if there are any. -/
def notifyOne (s : Pool n) : Option (Fin n) → Res (Pool n)
  | some i => if (s.mThreads i).phase = .waiting then pure (s.setPhase i .fetching) else throw .badAnswer
  | none => if ∀ i, (s.mThreads i).phase ≠ .waiting then pure s else throw .badAnswer

/-- `addJob(job)`, for a job object that has not been added before. -/
def addJob (s : Pool n) (job : Job) (wake : Option (Fin n)) : Res (Pool n) :=
  if ∀ j ∈ s.log.accepted, j.id ≠ job.id then notifyOne { s with mJobQueue := s.mJobQueue ++ [job] } wake
  else throw .badAnswer

/-- One round of the loop of `threadGetNextJob_`. -/
def threadGetNextJob (s : Pool n) (i : Fin n) : Pool n :=
  match s.mJobQueue with
  | job :: mJobQueue => { s with mJobQueue := mJobQueue }.setPhase i (.got job)
  | [] => s.setPhase i .waiting

/-- What `run` does with the job that `mGetJob` returned. -/
def takeJob (s : Pool n) (i : Fin n) (job : Job) : Pool n :=
  if job.exit then s.setPhase i .left else s.setPhase i (.running job)

/-- `Thread::run`, from wherever the worker is to its next critical section. -/
def work (s : Pool n) (i : Fin n) : Res (Pool n) :=
  match (s.mThreads i).phase with
  | .booting => pure (s.setThread i ⟨.fetching, (s.mThreads i).mSemaphore.notify⟩)
  | .fetching => pure (s.threadGetNextJob i)
  | .got job => pure (s.takeJob i job)
  | .running _ => pure (s.setPhase i .fetching)
  | .left => pure (s.setPhase i .deinited)
  | .deinited => pure (s.setThread i ⟨.exited, (s.mThreads i).mSemaphore.notify⟩)
  | .unborn | .waiting | .exited => throw .badAnswer

/-- The owner waits on the semaphore of a worker and goes on to `main`. -/
def waitFor (s : Pool n) (i : Fin n) (main : Main n) : Res (Pool n) :=
  match (s.mThreads i).mSemaphore.wait with
  | some sem => pure ({ s with main := main }.setThread i { s.mThreads i with mSemaphore := sem })
  | none => throw .badAnswer

/-- The constructor, the use of the pool, which may end at any time, and the destructor. -/
def mainStep (s : Pool n) (id : Nat) (wake : Option (Fin n)) : Res (Pool n) :=
  match s.main with
  | .creating k =>
    if h : k < n then pure ({ s with main := .starting ⟨k, h⟩ }.setPhase ⟨k, h⟩ .booting)
    else pure { s with main := .adding 0 }
  | .starting i => s.waitFor i (.creating (i + 1))
  | .adding k =>
    if k < n then { s with main := .adding (k + 1) }.addJob ⟨id, true⟩ wake
    else pure { s with main := .deleting 0 }
  | .deleting k => if h : k < n then s.waitFor ⟨k, h⟩ (.deleting (k + 1)) else throw .badAnswer

/-- Nobody adds a job to a pool that is gone. -/
def act (s : Pool n) : Action n → Res (Pool n)
  | .addJob job wake => if s.main = .deleting n then throw .badAnswer else s.addJob job wake
  | .work i => s.work i
  | .spurious i =>
    if (s.mThreads i).phase = .waiting then pure (s.setPhase i .fetching) else throw .badAnswer
  | .main id wake => s.mainStep id wake

def record (s s' : Pool n) : Action n → Log n
  | .addJob job _ => s.log.addJob job
  | .work i => s.log.work i (s.mThreads i).phase (s'.mThreads i).phase
  | .spurious _ => s.log
  | .main id _ => s.log.main id s.main s'.main

def step (s : Pool n) (a : Action n) : Res (Pool n) := do
  let s' ← s.act a
  return { s' with log := s.record s' a }

end Pool

end ChCppUtils.ThreadPool
