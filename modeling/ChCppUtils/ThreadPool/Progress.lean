import ChCppUtils.Lib.Progress
import ChCppUtils.ThreadPool.Shutdown

/-!
# The pool comes to rest

Each step of a worker or of the owner brings the pool nearer to its end: `ahead` is a bound on the steps they can
still make, if nobody adds a job and no wait ends by chance. As a worker that sleeps is woken when it is needed
(`Inv.awake`), the workers stop only when all is done (`settles_drained`), and the destructor is not left waiting
(`settles_destroyed`). No scheduler has to be fair for that.
-/

namespace ChCppUtils.ThreadPool

open Runs Tally

variable {n : Nat}

/-- The steps that a worker can still make without a new job. -/
def Phase.ahead : Phase → Nat
  | .unborn | .got _ => 3
  | .booting | .running _ | .left => 2
  | .fetching | .deinited => 1
  | .waiting | .exited => 0

/-- The steps of the owner, and those that it causes. -/
def Main.ahead : Main n → Nat
  | .creating k => 6 * n + 2 + (n - k)
  | .starting i => 6 * n + 2 + (n - i)
  | .adding k => 5 * (n - k) + n + 1
  | .deleting k => n - k

def Worker.ahead (w : Worker) : Nat := w.phase.ahead

theorem WorkerStep.ahead {q q' : List Job} {w w' : Worker} (h : WorkerStep q w q' w') :
    3 * q'.length + w'.ahead < 3 * q.length + w.ahead := by
  cases h <;> simp only [Worker.ahead, Phase.ahead, List.length_cons] <;> omega

/-- A step of a worker. -/
def Action.OfWorker : Action n → Prop
  | .work _ => True
  | .addJob _ _ | .spurious _ | .main _ _ => False

namespace Pool

variable {s s' : Pool n} {i : Fin n} {wake : Option (Fin n)}

def ahead (s : Pool n) : Nat := 3 * s.mJobQueue.length + total Worker.ahead s.mThreads + s.main.ahead

theorem ahead_setThread (s : Pool n) (i : Fin n) (w : Worker) :
    (s.setThread i w).ahead + (s.mThreads i).ahead = s.ahead + w.ahead := by
  have htotal := total_update Worker.ahead s.mThreads i w
  show 3 * s.mJobQueue.length + total Worker.ahead (Function.update s.mThreads i w) + s.main.ahead + _ = _
  rw [ahead]
  omega

theorem ahead_main (s : Pool n) (m : Main n) : ({ s with main := m } : Pool n).ahead + s.main.ahead = s.ahead + m.ahead := by
  show 3 * s.mJobQueue.length + total Worker.ahead s.mThreads + m.ahead + _ = _
  rw [ahead]
  omega

theorem ahead_work (h : s.work i = .ok s') : s'.ahead < s.ahead := by
  obtain ⟨hw, ht, hm⟩ := work_spec h
  have hlt := hw.ahead
  have htotal := total_update Worker.ahead s.mThreads i (s'.mThreads i)
  rw [ahead, ahead, hm, ht]
  omega

/-- A job that is added is three steps, and one of a worker that it wakes. -/
theorem ahead_addJob {job : Job} (h : s.addJob job wake = .ok s') : s'.ahead ≤ s.ahead + 4 := by
  have hpush : ({ s with mJobQueue := s.mJobQueue ++ [job] } : Pool n).ahead = s.ahead + 3 := by
    show 3 * (s.mJobQueue ++ [job]).length + total Worker.ahead s.mThreads + s.main.ahead = _
    rw [ahead, List.length_append, List.length_singleton]
    omega
  rcases notifyOne_cases (addJob_cases h).2 with ⟨i, hp, rfl⟩ | ⟨-, rfl⟩
  · refine Nat.le_trans (Nat.le_add_right _ _) (Nat.le_trans (Nat.le_of_eq (ahead_setThread _ i _)) ?_)
    rw [hpush]
    exact Nat.le_refl _
  · rw [hpush]
    omega

theorem ahead_waitFor {m : Main n} (h : s.waitFor i m = .ok s') (hlt : m.ahead < s.main.ahead) :
    s'.ahead < s.ahead := by
  obtain ⟨sem, -, rfl⟩ := waitFor_cases h
  have hset := ahead_setThread ({ s with main := m } : Pool n) i ⟨(s.mThreads i).phase, ⟨sem⟩⟩
  have hmain := ahead_main s m
  have hsame : Worker.ahead ⟨(s.mThreads i).phase, ⟨sem⟩⟩ = (s.mThreads i).ahead := rfl
  rw [hsame] at hset
  have hset := Nat.add_right_cancel hset
  omega

theorem ahead_mainStep {id : Nat} (hb : s.Born) (h : s.mainStep id wake = .ok s') : s'.ahead < s.ahead := by
  rcases mainStep_cases h with ⟨k, hk, hm, rfl⟩ | ⟨k, hk, hm, rfl⟩ | ⟨i, hm, hs⟩ | ⟨k, hk, hm, hs⟩ |
    ⟨k, hk, hm, rfl⟩ | ⟨k, hk, hm, hs⟩
  · have hp : (s.mThreads ⟨k, hk⟩).phase = .unborn := (hb _).2 (by rw [hm]; exact le_refl k)
    have hset : (({ s with main := .starting ⟨k, hk⟩ } : Pool n).setPhase ⟨k, hk⟩ .booting).ahead +
        (s.mThreads ⟨k, hk⟩).ahead = ({ s with main := .starting ⟨k, hk⟩ } : Pool n).ahead + 2 :=
      ahead_setThread _ _ _
    have hmain := ahead_main s (.starting ⟨k, hk⟩)
    have hthree : (s.mThreads ⟨k, hk⟩).ahead = 3 := by rw [Worker.ahead, hp]; rfl
    rw [hthree] at hset
    rw [hm] at hmain
    simp only [Main.ahead] at hmain
    omega
  · have hmain := ahead_main s (.adding 0)
    rw [hm] at hmain
    simp only [Main.ahead] at hmain
    omega
  · refine ahead_waitFor hs ?_
    have hi := i.isLt
    rw [hm, Main.ahead, Main.ahead]
    omega
  · have hle := ahead_addJob hs
    have hmain := ahead_main s (.adding (k + 1))
    rw [hm] at hmain
    simp only [Main.ahead] at hmain
    omega
  · have hmain := ahead_main s (.deleting 0)
    rw [hm] at hmain
    simp only [Main.ahead] at hmain
    omega
  · refine ahead_waitFor hs ?_
    rw [hm, Main.ahead, Main.ahead]
    omega

/-! ### Steps of a worker -/

theorem step_work (h : s.step (.work i) = .ok s') :
    ∃ t, s.work i = .ok t ∧ s' = { t with log := s.log.work i (s.mThreads i).phase (t.mThreads i).phase } := step_cases h

theorem ahead_step_work (h : s.step (.work i) = .ok s') : s'.ahead < s.ahead := by
  obtain ⟨t, ht, rfl⟩ := step_work h
  have hlt := ahead_work ht
  exact hlt

theorem accepted_work (h : s.step (.work i) = .ok s') : s'.log.accepted = s.log.accepted ∧ s'.main = s.main := by
  obtain ⟨t, ht, rfl⟩ := step_work h
  exact ⟨Log.work_accepted .., (work_spec ht).2.2⟩

/-! ### The workers alone -/

/-- Every worker sleeps, nothing is queued, and what was accepted is done. -/
structure Idle (accepted : List Job) (s : Pool n) : Prop where
  waiting : ∀ i, (s.mThreads i).phase = .waiting
  queue : s.mJobQueue = []
  finished : ∀ job ∈ accepted, ∃ i, (i, job) ∈ s.log.finished

/-- No worker of a pool in use can go on: each sleeps. -/
theorem Inv.waiting_of_stuck (h : s.Inv) (hm : s.main = .creating n) (hstuck : ∀ i s', s.step (.work i) ≠ .ok s') (i : Fin n) :
    (s.mThreads i).phase = .waiting := by
  have hunborn : (s.mThreads i).phase ≠ .unborn := by
    intro hp
    have hle := (h.born i).1 hp
    rw [hm] at hle
    exact absurd i.isLt (Nat.not_lt.2 hle)
  have hexited : (s.mThreads i).phase ≠ .exited := by
    intro hp
    have hpos : 0 < tally (·.phase.tookExit) s.mThreads := tally_pos.2 ⟨i, by simp only [hp]; rfl⟩
    have hexits := h.exits
    rw [hm, Main.exits] at hexits
    omega
  by_contra hw
  obtain ⟨s', hs⟩ := exists_step (a := .work i) (exists_work hunborn hw hexited)
  exact hstuck i s' hs

theorem Inv.idle (h : s.Inv) (hn : 0 < n) (hw : ∀ i, (s.mThreads i).phase = .waiting) : s.Idle s.log.accepted := by
  have hfetching : tally (·.phase.isFetching) s.mThreads = 0 := by
    by_contra h0
    obtain ⟨i, hi⟩ := tally_pos.1 (Nat.pos_of_ne_zero h0)
    simp only [hw i] at hi
    cases hi
  have hqueue : s.mJobQueue = [] := by
    have hle := h.awake ⟨0, hn⟩ (hw _)
    rw [hfetching] at hle
    exact List.eq_nil_of_length_eq_zero (by omega)
  refine ⟨hw, hqueue, fun job hjob => ?_⟩
  rw [h.sent.queue, hqueue, List.append_nil] at hjob
  obtain ⟨⟨i, j⟩, hmem, rfl⟩ := List.mem_map.1 hjob
  have hlog := (h.sent.worker i).jobs
  rw [hw i] at hlog
  have hhanded : j ∈ byWorker i s.log.handed := mem_byWorker.2 hmem
  rw [hlog.1, hlog.2] at hhanded
  exact ⟨i, mem_byWorker.1 hhanded⟩

/-- In a pool that is in use, whatever the workers do next: if nobody adds a job they come to rest after a
bounded number of steps, and then all that was accepted is done. -/
theorem settles_drained (h : Reach (Under NoExit (Ok step)) (new n) s) (hm : s.main = .creating n) (hn : 0 < n) :
    Settles (Ok step) (fun _ a => a.OfWorker) (Idle s.log.accepted) s := by
  refine Settles.of_measure (I := fun t => t.Inv ∧ t.main = .creating n ∧ t.log.accepted = s.log.accepted) ahead ?_ ?_
    ⟨Inv.of_reach h, hm, rfl⟩
  · rintro t a t' ⟨hinv, htm, hta⟩ ha hs
    cases a with
    | addJob | spurious | main => exact ha.elim
    | work i =>
      obtain ⟨hacc, hmain⟩ := accepted_work hs
      exact ⟨⟨hinv.step (a := .work i) trivial hs, hmain.trans htm, hacc.trans hta⟩, ahead_step_work hs⟩
  · rintro t ⟨hinv, htm, hta⟩ hnone
    rw [← hta]
    exact hinv.idle hn (hinv.waiting_of_stuck htm fun i t' => hnone (.work i) t' trivial)

/-- Two workers, of which one sleeps, and two jobs. -/
theorem settles_drained_two_jobs : ∃ s : Pool 2, Reach (Under NoExit (Ok step)) (new 2) s ∧
    s.log.accepted = [⟨0, false⟩, ⟨1, false⟩] ∧
    Settles (Ok step) (fun _ a => a.OfWorker) (Idle s.log.accepted) s := by
  have hg : Goes step NoExit
      (fun s : Pool 2 => s.main = .creating 2 ∧ s.log.accepted = [⟨0, false⟩, ⟨1, false⟩]) (new 2)
      [.main 0 none, .work 0, .main 0 none, .main 0 none, .work 1, .main 0 none, .work 0, .work 1,
        .addJob ⟨0, false⟩ (some 0), .work 0, .addJob ⟨1, false⟩ (some 1), .work 0] := by
    decide
  obtain ⟨s, hr, hm, ha⟩ := hg.reach
  exact ⟨s, hr, ha, settles_drained hr hm (by decide)⟩

/-! ### Up to the end of the destructor -/

/-- As long as the destructor has not returned the owner or a worker can go on. -/
theorem Inv.goes_on (h : s.Inv) (hm : s.main ≠ .deleting n) : ∃ a : Action n, a.Own ∧ ∃ s', s.step a = .ok s' := by
  cases hmain : s.main with
  | creating k =>
    refine ⟨.main 0 none, trivial, exists_step ?_⟩
    by_cases hk : k < n
    · exact ⟨_, by simp only [act, mainStep, hmain, dif_pos hk]; rfl⟩
    · exact ⟨_, by simp only [act, mainStep, hmain, dif_neg hk]; rfl⟩
  | starting i =>
    have hsem := h.sem i
    rw [hmain, show Main.waited i (.starting i) = 0 from if_neg (lt_irrefl i)] at hsem
    by_cases hc : (s.mThreads i).mSemaphore.count = 0
    · -- the worker has not notified its start
      have hunborn : (s.mThreads i).phase ≠ .unborn := by
        intro hp
        have hle := (h.born i).1 hp
        rw [hmain] at hle
        exact absurd hle (Nat.not_succ_le_self _)
      refine ⟨.work i, trivial, exists_step (exists_work hunborn (fun hp => ?_) fun hp => ?_)⟩ <;>
        rw [hp, hc] at hsem <;> simp [Phase.notified] at hsem
    · refine ⟨.main 0 none, trivial, exists_step ?_⟩
      simp only [act, mainStep, hmain, Pool.waitFor, Semaphore.wait, if_neg hc]
      exact ⟨_, rfl⟩
  | adding k => exact h.shakesHands.goesOn (.inl ⟨k, hmain⟩)
  | deleting k =>
    have hk : k ≤ n := by
      have hbound := h.bound
      rwa [hmain] at hbound
    rcases Nat.lt_or_eq_of_le hk with hlt | rfl
    · exact h.goesOn_deleting hlt hmain
    · exact absurd hmain hm

theorem ahead_own {a : Action n} (hb : s.Born) (ha : a.Own) (hs : s.step a = .ok s') : s'.ahead < s.ahead := by
  cases a with
  | addJob | spurious => exact ha.elim
  | work i => exact ahead_step_work hs
  | main id wake =>
    obtain ⟨t, ht, rfl⟩ := step_cases hs
    have hlt := ahead_mainStep hb ht
    exact hlt

theorem noExit_of_own {a : Action n} (ha : a.Own) : NoExit s a := by
  cases a with
  | addJob | spurious => exact ha.elim
  | work | main => trivial

/-- From wherever the pool is, if nobody adds a job: the owner and the workers, in any order, get to the return
of the destructor after a bounded number of steps, and they stop nowhere before. -/
theorem settles_destroyed (h : Reach (Under NoExit (Ok step)) (new n) s) :
    Settles (Ok step) (fun _ a => a.Own) (fun s => s.main = .deleting n) s := by
  refine Settles.of_measure (I := Inv) ahead (fun t a t' hinv ha hs => ?_) (fun t hinv hnone => ?_) (Inv.of_reach h)
  · exact ⟨hinv.step (noExit_of_own ha) hs, ahead_own hinv.born ha hs⟩
  · by_contra hm
    obtain ⟨a, ha, t', hs⟩ := hinv.goes_on hm
    exact hnone a t' ha hs

/-- Two workers, one of them in its job while the destructor has begun. -/
theorem settles_destroyed_running : ∃ s : Pool 2, Reach (Under NoExit (Ok step)) (new 2) s ∧ s.main = .adding 1 ∧
    Settles (Ok step) (fun _ a => a.Own) (fun s : Pool 2 => s.main = .deleting 2) s := by
  have hg : Goes step NoExit (fun s : Pool 2 => s.main = .adding 1) (new 2)
      [.main 0 none, .work 0, .main 0 none, .main 0 none, .work 1, .main 0 none, .addJob ⟨0, false⟩ none, .work 0,
        .work 0, .main 0 none, .main 1 none] := by
    decide
  obtain ⟨s, hr, hm⟩ := hg.reach
  exact ⟨s, hr, hm, settles_destroyed hr⟩

end Pool

end ChCppUtils.ThreadPool
