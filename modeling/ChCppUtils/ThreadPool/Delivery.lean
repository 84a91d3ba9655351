import ChCppUtils.ThreadPool.Steps

/-!
# Delivery of the jobs

The jobs accepted by `addJob` are the ones handed out, in that order, and then the queue
(`Sent.queue`). What a worker starts and finishes is what was handed to it, but for the job it is at
(`Sent.worker`). So jobs are handed out in the order of acceptance, each to one worker, which starts
it once and in the order of its own jobs; two workers may start their jobs in another order.
-/

namespace ChCppUtils.ThreadPool

open Runs

variable {n : Nat}

/-- The jobs of worker `i`. -/
def byWorker (i : Fin n) (l : List (Fin n × Job)) : List Job := (l.filter (·.1 = i)).map Prod.snd

section
variable {l : List (Fin n × Job)} {i j : Fin n} {job : Job}

theorem byWorker_append_self : byWorker i (l ++ [(i, job)]) = byWorker i l ++ [job] := by
  simp [byWorker]

theorem byWorker_append_ne (h : j ≠ i) : byWorker j (l ++ [(i, job)]) = byWorker j l := by
  simp [byWorker, h.symm]

theorem mem_byWorker : job ∈ byWorker i l ↔ (i, job) ∈ l := by
  simp [byWorker]

theorem count_byWorker [BEq (Fin n × Job)] [LawfulBEq (Fin n × Job)] :
    (byWorker i l).count job = l.count (i, job) := by
  induction l with
  | nil => rfl
  | cons x l ih =>
    obtain ⟨j, job'⟩ := x
    by_cases hj : j = i
    · subst hj
      have : byWorker j ((j, job') :: l) = job' :: byWorker j l := by simp [byWorker]
      rw [this, List.count_cons, List.count_cons, ih]
      simp
    · have : byWorker i ((j, job') :: l) = byWorker i l := by simp [byWorker, hj]
      rw [this, ih, List.count_cons_of_ne]
      exact fun h => hj (congrArg Prod.fst h)

end

/-- The jobs handed to a worker, started and finished by it, for each place of `run`. -/
def Phase.LogOk (handed started finished : List Job) : Phase → Prop
  | .unborn | .booting | .fetching | .waiting => handed = started ∧ started = finished
  | .got job => handed = started ++ [job] ∧ started = finished
  | .running job => handed = started ∧ started = finished ++ [job]
  | .left | .deinited | .exited =>
    (∃ job : Job, job.exit = true ∧ handed = started ++ [job]) ∧ started = finished

theorem Phase.LogOk.started_le {hd st fi : List Job} {p : Phase} (h : p.LogOk hd st fi) : st <+: hd := by
  cases p with
  | unborn | booting | fetching | waiting | running job => rw [h.1]
  | got job => rw [h.1]; exact List.prefix_append _ _
  | left | deinited | exited =>
    obtain ⟨⟨job, -, rfl⟩, -⟩ := h
    exact List.prefix_append _ _

/-- The de-init callback has returned. -/
def Phase.pastDeinit : Phase → Bool
  | .deinited | .exited => true
  | _ => false

namespace Log

variable {log : Log n} {i j : Fin n}

/-- What the log says of a worker that is at `p`. -/
structure Of (log : Log n) (i : Fin n) (p : Phase) : Prop where
  jobs : p.LogOk (byWorker i log.handed) (byWorker i log.started) (byWorker i log.finished)
  deinit : i ∈ log.deinits ↔ p.pastDeinit = true

theorem Of.work {q q' : List Job} {w w' : Worker} (h : log.Of i w.phase) (hw : WorkerStep q w q' w') :
    (log.work i w.phase w'.phase).Of i w'.phase := by
  have hlog := h.jobs
  have hd := h.deinit
  cases hw with
  | boot => exact ⟨hlog, hd⟩
  | @take _ _ job => exact ⟨⟨byWorker_append_self.trans (congrArg (· ++ [job]) hlog.1), hlog.2⟩, hd⟩
  | sleep => exact ⟨hlog, hd⟩
  | @exit _ _ job he => exact ⟨⟨⟨job, he, hlog.1⟩, hlog.2⟩, hd⟩
  | @start _ _ job he =>
    have hst : byWorker i (log.started ++ [(i, job)]) = byWorker i log.started ++ [job] := byWorker_append_self
    exact ⟨⟨hlog.1.trans hst.symm, hst.trans (congrArg (· ++ [job]) hlog.2)⟩, hd⟩
  | finish => exact ⟨⟨hlog.1, hlog.2.trans byWorker_append_self.symm⟩, hd⟩
  | deinit =>
    refine ⟨hlog, ?_⟩
    show i ∈ log.deinits ++ [i] ↔ _
    simp [Phase.pastDeinit]
  | leave => exact ⟨hlog, hd⟩

theorem Of.other {p p₁ p₂ : Phase} (h : log.Of j p) (hj : j ≠ i) : (log.work i p₁ p₂).Of j p := by
  unfold Log.work
  split
  · exact ⟨by rw [byWorker_append_ne hj]; exact h.jobs, h.deinit⟩
  · exact ⟨by rw [byWorker_append_ne hj]; exact h.jobs, h.deinit⟩
  · exact ⟨by rw [byWorker_append_ne hj]; exact h.jobs, h.deinit⟩
  · refine ⟨h.jobs, ?_⟩
    rw [List.mem_append, List.mem_singleton, or_iff_left hj]
    exact h.deinit
  · exact h

theorem work_accepted (log : Log n) (i : Fin n) (p p' : Phase) : (log.work i p p').accepted = log.accepted := by
  unfold Log.work
  split <;> rfl

theorem work_handed {q q' : List Job} {w w' : Worker} (hw : WorkerStep q w q' w') :
    (log.work i w.phase w'.phase).handed.map Prod.snd ++ q' = log.handed.map Prod.snd ++ q := by
  cases hw with
  | take =>
    show (log.handed ++ [_]).map Prod.snd ++ _ = _
    rw [List.map_append, List.append_assoc]
    rfl
  | _ => rfl

theorem work_started {q q' : List Job} {w w' : Worker} (hw : WorkerStep q w q' w') :
    ∀ x ∈ (log.work i w.phase w'.phase).started, x ∈ log.started ∨ x.2.exit = false := by
  intro x hx
  cases hw with
  | start he =>
    rcases List.mem_append.1 hx with hx | hx
    · exact .inl hx
    · rw [List.mem_singleton.1 hx]
      exact .inr he
  | _ => exact .inl hx

end Log

namespace Pool

variable {s s' : Pool n} {i j : Fin n}

structure Sent (s : Pool n) : Prop where
  queue : s.log.accepted = s.log.handed.map Prod.snd ++ s.mJobQueue
  ids : (s.log.accepted.map Job.id).Nodup
  worker : ∀ i, s.log.Of i (s.mThreads i).phase
  started : ∀ x ∈ s.log.started, x.2.exit = false

/-! ### The invariant -/

theorem Sent.new (n : Nat) : (new n).Sent := by
  refine ⟨rfl, List.nodup_nil, fun i => ⟨⟨rfl, rfl⟩, ?_⟩, fun x hx => absurd hx (by simp [Pool.new])⟩
  simp [Pool.new, Phase.pastDeinit]

theorem Sent.work (h : s.Sent)
    (hw : WorkerStep s.mJobQueue (s.mThreads i) s'.mJobQueue (s'.mThreads i))
    (ht : s'.mThreads = Function.update s.mThreads i (s'.mThreads i))
    (hl : s'.log = s.log.work i (s.mThreads i).phase (s'.mThreads i).phase) : s'.Sent := by
  refine ⟨?_, ?_, fun j => ?_, fun x hx => ?_⟩
  · rw [hl, Log.work_handed hw, Log.work_accepted]
    exact h.queue
  · rw [hl, Log.work_accepted]
    exact h.ids
  · rw [hl]
    by_cases hj : j = i
    · rw [hj]
      exact (h.worker i).work hw
    · rw [ht, Function.update_of_ne hj]
      exact (h.worker j).other hj
  · rw [hl] at hx
    rcases Log.work_started hw x hx with hx | hx
    · exact h.started x hx
    · exact hx

theorem Sent.setThread (h : s.Sent) {w : Worker}
    (hl : ∀ hd st fi, (s.mThreads i).phase.LogOk hd st fi → w.phase.LogOk hd st fi)
    (hd : w.phase.pastDeinit = (s.mThreads i).phase.pastDeinit) : (s.setThread i w).Sent := by
  refine ⟨h.queue, h.ids, fun j => ?_, h.started⟩
  by_cases hj : j = i
  · rw [hj, setThread_self]
    exact ⟨hl _ _ _ (h.worker i).jobs, hd ▸ (h.worker i).deinit⟩
  · rw [setThread_ne _ _ hj]
    exact h.worker j

theorem Sent.wake (h : s.Sent) (hp : (s.mThreads i).phase = .waiting) : (s.setPhase i .fetching).Sent :=
  h.setThread (fun _ _ _ hl => by rw [hp] at hl; exact hl) (by rw [hp]; rfl)

theorem Sent.addJob (h : s.Sent) {job : Job} {wake : Option (Fin n)} (hs : s.addJob job wake = .ok s') :
    Sent { s' with log := s.log.addJob job } := by
  obtain ⟨hid, hn⟩ := addJob_cases hs
  have hadd : Sent { s with mJobQueue := s.mJobQueue ++ [job], log := s.log.addJob job } := by
    refine ⟨?_, ?_, fun i => ⟨(h.worker i).jobs, (h.worker i).deinit⟩, h.started⟩
    · show s.log.accepted ++ [job] = _ ++ (s.mJobQueue ++ [job])
      rw [h.queue, List.append_assoc]
      rfl
    · show ((s.log.accepted ++ [job]).map Job.id).Nodup
      rw [List.map_append, List.nodup_append]
      refine ⟨h.ids, List.nodup_singleton _, fun a ha b hb => ?_⟩
      obtain ⟨j, hj, rfl⟩ := List.mem_map.1 ha
      rw [List.mem_singleton.1 hb]
      exact hid j hj
  rcases notifyOne_cases hn with ⟨i, hp, rfl⟩ | ⟨-, rfl⟩
  · exact hadd.wake hp
  · exact hadd

theorem Sent.withMain (h : s.Sent) (main : Main n) : { s with main := main }.Sent :=
  ⟨h.queue, h.ids, fun i => ⟨(h.worker i).jobs, (h.worker i).deinit⟩, h.started⟩

theorem Sent.waitFor (h : s.Sent) {main : Main n} (hs : s.waitFor i main = .ok s') :
    Sent { s' with log := s.log } := by
  obtain ⟨sem, -, rfl⟩ := waitFor_cases hs
  exact (h.withMain main).setThread (fun _ _ _ hl => hl) rfl

theorem Sent.mainStep (h : s.Sent) (hb : s.Born) {id : Nat} {wake : Option (Fin n)}
    (hs : s.mainStep id wake = .ok s') : Sent { s' with log := s.log.main id s.main s'.main } := by
  rcases mainStep_cases hs with ⟨k, hk, hm, rfl⟩ | ⟨k, hk, hm, rfl⟩ | ⟨i, hm, hs⟩ | ⟨k, hk, hm, hs⟩ |
    ⟨k, hk, hm, rfl⟩ | ⟨k, hk, hm, hs⟩
  · have hp : (s.mThreads ⟨k, hk⟩).phase = .unborn := (hb _).2 (by rw [hm]; exact le_refl k)
    rw [hm]
    exact (h.withMain _).setThread (fun _ _ _ hl => by rw [show _ = Phase.unborn from hp] at hl; exact hl)
      (by rw [show _ = Phase.unborn from hp]; rfl)
  · rw [hm]
    exact h.withMain _
  · rw [hm]
    exact h.waitFor hs
  · have hadd := (h.withMain _).addJob hs
    have hlog : s.log.main id (.adding k) s'.main = s.log.addJob ⟨id, true⟩ := by
      rw [show s'.main = .adding (k + 1) from addJob_main hs]
      rfl
    rw [hm, hlog]
    exact hadd
  · rw [hm]
    exact h.withMain _
  · rw [hm]
    exact h.waitFor hs

theorem Sent.step (h : s.Sent) (hb : s.Born) {a : Action n} (hs : s.step a = .ok s') : s'.Sent := by
  obtain ⟨t, ht, rfl⟩ := step_cases hs
  cases a with
  | addJob job wake =>
    rw [act] at ht
    split at ht
    · cases ht
    · exact h.addJob ht
  | work i =>
    obtain ⟨hw, hthreads, -⟩ := work_spec ht
    exact h.work (i := i) hw hthreads rfl
  | spurious i =>
    rw [act] at ht
    split at ht
    · rename_i hp
      obtain rfl := Except.ok.inj ht
      exact h.wake hp
    · cases ht
  | main id wake => exact h.mainStep hb ht

theorem Sent.of_reach (h : Reach (Ok Pool.step) (Pool.new n) s) : s.Sent := by
  have hinv : s.Sent ∧ s.Born :=
    Reach.invariant (I := fun s => s.Sent ∧ s.Born) h ⟨Sent.new n, Born.new n⟩
      fun _ _ _ hi hs => ⟨hi.1.step hi.2 hs, hi.2.step hs⟩
  exact hinv.1

/-! ### Delivery -/

/-- The jobs are handed out in the order in which they were accepted, each to one worker, and started
at most once; every worker starts its jobs in the order of acceptance, and so does the pool where
there is one worker. -/
structure Delivers (s : Pool n) : Prop where
  queue : s.log.accepted = s.log.handed.map Prod.snd ++ s.mJobQueue
  handed : (s.log.handed.map Prod.snd).Nodup
  started : (s.log.started.map Prod.snd).Nodup
  sub : ∀ x ∈ s.log.started, x ∈ s.log.handed
  order : ∀ i, (byWorker i s.log.started).Sublist s.log.accepted
  single : n ≤ 1 → (s.log.started.map Prod.snd).Sublist s.log.accepted

theorem Sent.deliversAll (h : s.Sent) : s.Delivers := by
  have hpre : ∀ i, byWorker i s.log.started <+: byWorker i s.log.handed := fun i => (h.worker i).jobs.started_le
  have hhanded : (s.log.handed.map Prod.snd).Nodup := by
    have hacc := h.ids.of_map
    rw [h.queue] at hacc
    exact (List.nodup_append.1 hacc).1
  have hsub : List.Subperm s.log.started s.log.handed := by
    refine List.subperm_iff_count.2 fun ⟨i, job⟩ => ?_
    have hc := (hpre i).sublist.count_le job
    rwa [@count_byWorker _ _ _ _ instBEqOfDecidableEq, @count_byWorker _ _ _ _ instBEqOfDecidableEq] at hc
  have horder : ∀ i, (byWorker i s.log.started).Sublist s.log.accepted := by
    intro i
    have hby : (byWorker i s.log.handed).Sublist (s.log.handed.map Prod.snd) :=
      (List.filter_sublist).map _
    rw [h.queue]
    exact ((hpre i).sublist.trans hby).trans (List.sublist_append_left _ _)
  refine ⟨h.queue, hhanded, ?_, fun x hx => hsub.subset hx, horder, fun h1 => ?_⟩
  · obtain ⟨l, hperm, hl⟩ := hsub
    exact ((hperm.map Prod.snd).nodup_iff).1 (hhanded.sublist (hl.map Prod.snd))
  · rcases hst : s.log.started with _ | ⟨x, l⟩
    · exact List.nil_sublist _
    · have hall : byWorker x.1 s.log.started = s.log.started.map Prod.snd := by
        have hf : s.log.started.filter (·.1 = x.1) = s.log.started :=
          List.filter_eq_self.2 fun y _ => by
            have : y.1 = x.1 := Fin.ext (by have := y.1.2; have := x.1.2; omega)
            simp [this]
        rw [byWorker, hf]
      rw [← hst, ← hall]
      exact horder x.1

theorem delivers (h : Reach (Ok Pool.step) (Pool.new n) s) : s.Delivers := (Sent.of_reach h).deliversAll

/-- Two workers with a job each. -/
theorem delivers_two_jobs : ∃ s : Pool 2, Reach (Ok step) (new 2) s ∧
    s.log.started = [(0, ⟨0, false⟩), (1, ⟨1, false⟩)] ∧ s.Delivers := by
  have hg : Goes step (fun _ _ => True) (fun s : Pool 2 => s.log.started = [(0, ⟨0, false⟩), (1, ⟨1, false⟩)])
      (new 2) [.main 0 none, .work 0, .main 0 none, .main 0 none, .work 1, .main 0 none, .work 0,
        .addJob ⟨0, false⟩ (some 0), .addJob ⟨1, false⟩ none, .work 0, .work 0, .work 1, .work 1] := by
    decide
  obtain ⟨s, hr, hs⟩ := hg.reach_ok
  exact ⟨s, hr, hs, delivers hr⟩

/-- The second of two workers starts the job that was accepted last before the first one starts its
own. -/
theorem started_out_of_order : ∃ s : Pool 2, Reach (Ok step) (new 2) s ∧
    ¬ (s.log.started.map Prod.snd).Sublist s.log.accepted := by
  have hg : Goes step (fun _ _ => True)
      (fun s : Pool 2 => ¬ (s.log.started.map Prod.snd).Sublist s.log.accepted)
      (new 2) [.main 0 none, .work 0, .main 0 none, .main 0 none, .work 1, .main 0 none,
        .addJob ⟨0, false⟩ none, .addJob ⟨1, false⟩ none, .work 0, .work 1, .work 1, .work 0] := by
    decide
  exact hg.reach_ok

end Pool

end ChCppUtils.ThreadPool
