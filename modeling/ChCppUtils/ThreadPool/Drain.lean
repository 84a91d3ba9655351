import ChCppUtils.ThreadPool.Shutdown

/-!
# What the destructor leaves behind

When `~ThreadPool` has returned every worker has taken one exit job and finished what it was handed
before it. So the jobs handed out are those up to the `n`-th exit job, all of them done, and what was
accepted behind it stays in the queue: the routine of a job that was running while the exit jobs were
added may have put it there.
-/

namespace ChCppUtils.ThreadPool

open Runs

variable {n : Nat}

/-- The jobs up to the `k`-th exit job. -/
def upToExit : Nat → List Job → List Job
  | 0, _ => []
  | _ + 1, [] => []
  | k + 1, job :: q => job :: upToExit (if job.exit = true then k else k + 1) q

theorem upToExit_append {k : Nat} {l q : List Job} (hcount : l.countP (·.exit) = k)
    (hlast : ∀ job ∈ l.getLast?, job.exit = true) : upToExit k (l ++ q) = l := by
  induction l generalizing k with
  | nil =>
    obtain rfl : 0 = k := hcount
    rw [List.nil_append]
    cases q <;> rfl
  | cons job l ih =>
    have hl : ∀ j ∈ l.getLast?, j.exit = true := by
      intro j hj
      refine hlast j ?_
      rw [List.getLast?_cons, show l.getLast? = some j from hj]
      rfl
    rw [List.countP_cons] at hcount
    cases k with
    | zero =>
      -- the last job is an exit job, so there is one
      exfalso
      have hmem := List.getLast?_eq_some_getLast (List.cons_ne_nil job l)
      have hpos : 0 < (job :: l).countP (·.exit) :=
        List.countP_pos_iff.2 ⟨_, List.mem_of_getLast? hmem, hlast _ hmem⟩
      rw [List.countP_cons] at hpos
      omega
    | succ k =>
      rw [List.cons_append, upToExit, ih ?_ hl]
      split <;> rename_i he
      · rw [if_pos he] at hcount; omega
      · rw [if_neg he] at hcount; omega

theorem countP_handed (p : Job → Bool) (l : List (Fin n × Job)) :
    (l.map Prod.snd).countP p = ∑ i, (byWorker i l).countP p := by
  induction l using List.reverseRecOn with
  | nil => simp [byWorker]
  | append_singleton l x ih =>
    obtain ⟨i, job⟩ := x
    rw [List.map_append, List.countP_append, ih, ← Finset.add_sum_erase _ _ (Finset.mem_univ i),
      ← Finset.add_sum_erase _ (fun j => (byWorker j (l ++ [(i, job)])).countP p) (Finset.mem_univ i)]
    have hrest : ∑ j ∈ Finset.univ.erase i, (byWorker j (l ++ [(i, job)])).countP p =
        ∑ j ∈ Finset.univ.erase i, (byWorker j l).countP p :=
      Finset.sum_congr rfl fun j hj => by rw [byWorker_append_ne (Finset.ne_of_mem_erase hj)]
    rw [hrest, byWorker_append_self, List.countP_append]
    simp only [List.map_cons, List.map_nil]
    omega

namespace Pool

variable {s : Pool n}

structure Drained (s : Pool n) : Prop where
  accepted : s.log.accepted = upToExit n s.log.accepted ++ s.mJobQueue
  finished : ∀ job ∈ upToExit n s.log.accepted, job.exit = false → ∃ i, (i, job) ∈ s.log.finished
  left : ∀ job ∈ s.mJobQueue, ∀ i, (i, job) ∉ s.log.started

theorem Signals.of_reach (h : Reach (Ok Pool.step) (Pool.new n) s) : s.Signals :=
  h.invariant (Signals.new n) fun _ _ _ hi hs => hi.step hs

/-- All workers are gone: what was handed out ends with an exit job, one for each worker. -/
theorem Sent.upToExit_eq (h : s.Sent) (hdone : ∀ i, s.Done i) :
    upToExit n s.log.accepted = s.log.handed.map Prod.snd := by
  rw [h.queue]
  refine upToExit_append ?_ fun job hjob => ?_
  · have hone : ∀ i, (byWorker i s.log.handed).countP (·.exit) = 1 := by
      intro i
      have hi := h.exitsOf_eq i
      rw [(hdone i).exited] at hi
      exact hi
    rw [countP_handed, Finset.sum_congr rfl fun i _ => hone i]
    simp
  · rcases List.eq_nil_or_concat s.log.handed with hnil | ⟨l, ⟨i, last⟩, hl⟩
    · rw [hnil] at hjob
      cases hjob
    · rw [List.concat_eq_append] at hl
      obtain ⟨exit, he, hby⟩ := (hdone i).finished
      rw [hl, byWorker_append_self] at hby
      have hlast : job = last := by
        rw [hl, List.map_append] at hjob
        simpa [eq_comm] using hjob
      have hexit : last = exit := List.singleton_inj.1 (List.append_inj' hby rfl).2
      rw [hlast, hexit]
      exact he

theorem Sent.drainedAll (h : s.Sent) (hdone : ∀ i, s.Done i) : s.Drained := by
  have hup := h.upToExit_eq hdone
  refine ⟨by rw [hup]; exact h.queue, fun job hjob he => ?_, fun job hjob i hst => ?_⟩
  · rw [hup] at hjob
    obtain ⟨⟨i, j⟩, hmem, rfl⟩ := List.mem_map.1 hjob
    obtain ⟨exit, hexit, hby⟩ := (hdone i).finished
    have hj : j ∈ byWorker i s.log.handed := mem_byWorker.2 hmem
    rw [hby, List.mem_append, List.mem_singleton] at hj
    rcases hj with hj | rfl
    · exact ⟨i, mem_byWorker.1 hj⟩
    · rw [he] at hexit; cases hexit
  · -- what is started was handed out, and no job is accepted twice
    have hhanded := List.mem_map_of_mem (f := Prod.snd) (h.deliversAll.sub _ hst)
    have hnodup := h.ids.of_map
    rw [h.queue] at hnodup
    exact (List.nodup_append.1 hnodup).2.2 _ hhanded _ hjob rfl

theorem drained (h : Reach (Ok Pool.step) (Pool.new n) s) (hm : s.main = .deleting n) : s.Drained := by
  have hsent := Sent.of_reach h
  refine hsent.drainedAll fun i => hsent.done ((Signals.of_reach h).exited ?_)
  rw [hm]
  exact if_pos i.2

/-- One worker: a job that is running adds another one before the destructor adds the exit job. -/
theorem drained_one_worker : ∃ s : Pool 1, Reach (Ok step) (new 1) s ∧ s.main = .deleting 1 ∧
    s.mJobQueue = [] ∧ s.Drained := by
  have hg : Goes step (fun _ _ => True) (fun s : Pool 1 => s.main = .deleting 1 ∧ s.mJobQueue = []) (new 1)
      [.main 0 none, .work 0, .main 0 none, .addJob ⟨0, false⟩ none, .work 0, .work 0, .main 0 none,
        .addJob ⟨1, false⟩ none, .main 2 none, .work 0, .work 0, .work 0, .work 0, .work 0, .work 0,
        .work 0, .work 0, .main 0 none, .main 0 none] := by
    decide
  obtain ⟨s, hr, hm, hq⟩ := hg.reach_ok
  exact ⟨s, hr, hm, hq, drained hr hm⟩

/-- The routine adds its job behind the exit job: when the destructor has returned it is still in the
queue, and no worker has run it. -/
theorem not_run_behind_exit : ∃ s : Pool 1, Reach (Ok step) (new 1) s ∧ s.main = .deleting 1 ∧
    ¬ ((∀ job ∈ s.log.accepted, job.exit = false → ∃ i, (i, job) ∈ s.log.finished) ∧ s.mJobQueue = []) := by
  have hg : Goes step (fun _ _ => True) (fun s : Pool 1 => s.main = .deleting 1 ∧
        ¬ ((∀ job ∈ s.log.accepted, job.exit = false → ∃ i, (i, job) ∈ s.log.finished) ∧ s.mJobQueue = []))
      (new 1)
      [.main 0 none, .work 0, .main 0 none, .addJob ⟨0, false⟩ none, .work 0, .work 0, .main 0 none,
        .main 2 none, .addJob ⟨1, false⟩ none, .work 0, .work 0, .work 0, .work 0, .work 0,
        .main 0 none, .main 0 none] := by
    decide
  exact hg.reach_ok

end Pool

end ChCppUtils.ThreadPool
