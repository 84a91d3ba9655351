import ChCppUtils.ThreadPool.Progress

/-!
# Jobs that dispatch events

The routine of a job may run `event_base_dispatch` on the event base of its worker, and returns when no event is
left there. Until then it keeps the worker. A `Service` is a pool in use with such jobs: each is queued, has
events (`started`), or has none left (`finished`). A job that has events has a worker of its own (`Serves.run`), so there
are no more of them than workers. When the workers can do no more, each waits for a job or has one with events, and
jobs are queued only if all have one (`Serves.at_rest`).
-/

namespace ChCppUtils.ThreadPool

inductive Stage where
  | queued
  | started
  | finished
deriving DecidableEq, Repr

structure Service (n : Nat) where
  pool : Pool n
  /-- By the number of the job. -/
  stage : Nat → Stage

namespace Service

variable {n : Nat}

def addJob (s : Service n) (id : Nat) (wake : Option (Fin n)) : Res (Service n) := do
  let pool ← s.pool.step (.addJob ⟨id, false⟩ wake)
  return { s with pool }

/-- The next step of a worker. A routine that begins adds its events; one that has some is in
`event_base_dispatch`. -/
def work (s : Service n) (i : Fin n) : Res (Service n) :=
  match (s.pool.mThreads i).phase with
  | .got job => do
    let pool ← s.pool.step (.work i)
    return ⟨pool, Function.update s.stage job.id .started⟩
  | .running job =>
    if s.stage job.id = .finished then do
      let pool ← s.pool.step (.work i)
      return { s with pool }
    else throw .badAnswer
  | _ => do
    let pool ← s.pool.step (.work i)
    return { s with pool }

def spurious (s : Service n) (i : Fin n) : Res (Service n) := do
  let pool ← s.pool.step (.spurious i)
  return { s with pool }

/-- The last event of a job is gone. -/
def finish (s : Service n) (id : Nat) : Service n := { s with stage := Function.update s.stage id .finished }

/-- Worker `i` is in the dispatch of the job. -/
def Serving (s : Service n) (i : Fin n) (id : Nat) : Prop :=
  (s.pool.mThreads i).phase = .running ⟨id, false⟩ ∧ s.stage id = .started

instance (s : Service n) (i : Fin n) (id : Nat) : Decidable (s.Serving i id) := inferInstanceAs (Decidable (_ ∧ _))

end Service

namespace Pool

variable {n : Nat} {s s' : Pool n} {i : Fin n} {job : Job} {wake : Option (Fin n)}

theorem started_work (h : s.step (.work i) = .ok s') (hg : ∀ job, (s.mThreads i).phase ≠ .got job) :
    s'.log.started = s.log.started := by
  obtain ⟨t, -, rfl⟩ := step_work h
  show (s.log.work i (s.mThreads i).phase _).started = _
  unfold Log.work
  split
  case h_2 hp _ => exact absurd hp (hg _)
  all_goals rfl

/-- A worker starts the job that it was handed. -/
def start (s : Pool n) (i : Fin n) (job : Job) : Pool n :=
  { s.setPhase i (.running job) with log := { s.log with started := s.log.started ++ [(i, job)] } }

theorem step_got (hp : (s.mThreads i).phase = .got job) (he : job.exit = false) :
    s.step (.work i) = .ok (s.start i job) := by
  have hwork : s.act (.work i) = .ok (s.setPhase i (.running job)) := by
    rw [act, work, hp]
    show Except.ok (s.takeJob i job) = _
    rw [takeJob, if_neg (by rw [he]; exact Bool.false_ne_true)]
  rw [step_of_act hwork, record, hp, setPhase, setThread_self]
  rfl

theorem Sent.mem_accepted (h : s.Sent) (hmem : (i, job) ∈ s.log.handed) : job ∈ s.log.accepted := by
  rw [h.queue]
  exact List.mem_append_left _ (List.mem_map.2 ⟨_, hmem, rfl⟩)

theorem Sent.mem_handed_of_got (h : s.Sent) (hp : (s.mThreads i).phase = .got job) : (i, job) ∈ s.log.handed := by
  have hlog := (h.worker i).jobs
  rw [hp] at hlog
  exact mem_byWorker.1 (by rw [hlog.1]; simp)

theorem Sent.mem_started_of_running (h : s.Sent) (hp : (s.mThreads i).phase = .running job) :
    (i, job) ∈ s.log.started := by
  have hlog := (h.worker i).jobs
  rw [hp] at hlog
  exact mem_byWorker.1 (by rw [hlog.2]; simp)

theorem Sent.not_started_of_got (h : s.Sent) (hp : (s.mThreads i).phase = .got job) (j : Fin n) :
    (j, job) ∉ s.log.started := by
  intro hmem
  have hnodup := h.deliversAll.handed
  have hji : j = i :=
    congrArg Prod.fst (List.inj_on_of_nodup_map hnodup (h.deliversAll.sub _ hmem) (h.mem_handed_of_got hp) rfl)
  subst hji
  have hlog := (h.worker j).jobs
  rw [hp] at hlog
  have hby : (byWorker j s.log.handed).Nodup := hnodup.sublist (List.filter_sublist.map _)
  rw [hlog.1] at hby
  exact (List.nodup_append.1 hby).2.2 _ (mem_byWorker.2 hmem) _ (List.mem_singleton.2 rfl) rfl

theorem step_addJob_cases (h : s.step (.addJob job wake) = .ok s') :
    s'.main = s.main ∧ s'.log.accepted = s.log.accepted ++ [job] ∧ s'.log.started = s.log.started ∧
      (∀ i job, (s'.mThreads i).phase = .running job ↔ (s.mThreads i).phase = .running job) ∧ s'.ahead ≤ s.ahead + 4 := by
  obtain ⟨t, ht, rfl⟩ := step_cases h
  rw [act] at ht
  split at ht
  · cases ht
  · have hahead := ahead_addJob ht
    rcases notifyOne_cases (addJob_cases ht).2 with ⟨j, hj, rfl⟩ | ⟨-, rfl⟩
    · refine ⟨rfl, rfl, rfl, fun i job => ?_, hahead⟩
      by_cases hi : i = j
      · subst hi
        show ((setPhase _ i .fetching).mThreads i).phase = _ ↔ _
        rw [setPhase, setThread_self, show (s.mThreads i).phase = .waiting from hj]
        constructor
        · intro hr
          cases hr
        · intro hr
          cases hr
      · show ((setPhase _ j .fetching).mThreads i).phase = _ ↔ _
        rw [setPhase, setThread_ne _ _ hi]
    · exact ⟨rfl, rfl, rfl, fun _ _ => .rfl, hahead⟩

theorem step_spurious_cases (h : s.step (.spurious i) = .ok s') :
    (s.mThreads i).phase = .waiting ∧ s' = s.setPhase i .fetching := by
  obtain ⟨t, ht, rfl⟩ := step_cases h
  rw [act] at ht
  split at ht
  · rename_i hp
    obtain rfl := Except.ok.inj ht
    exact ⟨hp, rfl⟩
  · cases ht

end Pool

namespace Service

variable {n : Nat} {s s' : Service n} {i j : Fin n} {id : Nat} {wake : Option (Fin n)}

structure Serves (s : Service n) : Prop where
  inv : s.pool.Inv
  main : s.pool.main = .creating n
  exit : ∀ job ∈ s.pool.log.accepted, job.exit = false
  queued : ∀ id, s.stage id = .queued ↔ ∀ i, (i, ⟨id, false⟩) ∉ s.pool.log.started
  run : ∀ id, s.stage id = .started → ∃ i, (s.pool.mThreads i).phase = .running ⟨id, false⟩

/-- A step of the pool that starts nothing and ends no job with events. -/
theorem Serves.of_pool {pool : Pool n} (h : s.Serves) (hinv : pool.Inv) (hmain : pool.main = s.pool.main)
    (hexit : ∀ job ∈ pool.log.accepted, job.exit = false) (hstarted : pool.log.started = s.pool.log.started)
    (hrun : ∀ i id, s.Serving i id → (pool.mThreads i).phase = .running ⟨id, false⟩) : Serves { s with pool := pool } where
  inv := hinv
  main := hmain.trans h.main
  exit := hexit
  queued id := by rw [hstarted]; exact h.queued id
  run id hid := by
    obtain ⟨i, hi⟩ := h.run id hid
    exact ⟨i, hrun i id ⟨hi, hid⟩⟩

theorem Serves.addJob (h : s.Serves) (hs : s.addJob id wake = .ok s') : s'.Serves := by
  obtain ⟨pool, hpool, hs⟩ := Res.of_bind hs
  obtain rfl := Except.ok.inj hs
  obtain ⟨hmain, hacc, hstarted, hphase, -⟩ := Pool.step_addJob_cases hpool
  refine h.of_pool (h.inv.step (a := .addJob ⟨id, false⟩ wake) rfl hpool) hmain (fun job hjob => ?_) hstarted fun i id hi => (hphase i _).2 hi.1
  rw [hacc, List.mem_append, List.mem_singleton] at hjob
  rcases hjob with hjob | rfl
  · exact h.exit job hjob
  · rfl

theorem Serves.spurious (h : s.Serves) (hs : s.spurious i = .ok s') : s'.Serves := by
  obtain ⟨pool, hpool, hs⟩ := Res.of_bind hs
  obtain rfl := Except.ok.inj hs
  obtain ⟨hw, rfl⟩ := Pool.step_spurious_cases hpool
  refine h.of_pool (h.inv.step (a := .spurious i) trivial hpool) rfl h.exit rfl fun j id hj => ?_
  have hne : j ≠ i := by
    rintro rfl
    have := hj.1
    rw [hw] at this
    cases this
  rw [Pool.setPhase, Pool.setThread_ne _ _ hne]
  exact hj.1

/-- What a step of a worker does to its job. -/
inductive Worked (s : Service n) (i : Fin n) (s' : Service n) : Prop
  | started (job : Job) (hp : (s.pool.mThreads i).phase = .got job)
      (hs : s' = ⟨s.pool.start i job, Function.update s.stage job.id .started⟩)
  | other (pool : Pool n) (hp : ∀ job, (s.pool.mThreads i).phase ≠ .got job)
      (hover : ∀ job, (s.pool.mThreads i).phase = .running job → s.stage job.id = .finished)
      (hpool : s.pool.step (.work i) = .ok pool) (hs : s' = { s with pool })

theorem work_cases (h : s.Serves) (hs : s.work i = .ok s') : Worked s i s' := by
  unfold work at hs
  split at hs
  case h_1 job hp =>
    have he := h.exit job (h.inv.sent.mem_accepted (h.inv.sent.mem_handed_of_got hp))
    rw [Pool.step_got hp he] at hs
    exact .started job hp (Except.ok.inj hs).symm
  case h_2 job hp =>
    split at hs
    · rename_i hover
      obtain ⟨pool, hpool, hs⟩ := Res.of_bind hs
      refine .other pool (fun job' => by rw [hp]; exact nofun) (fun job' hp' => ?_) hpool (Except.ok.inj hs).symm
      rw [hp] at hp'
      obtain rfl := Phase.running.inj hp'
      exact hover
    · cases hs
  case h_3 hgot hrunning =>
    obtain ⟨pool, hpool, hs⟩ := Res.of_bind hs
    exact .other pool hgot (fun job hp => absurd hp (hrunning job)) hpool (Except.ok.inj hs).symm

theorem Serves.work (h : s.Serves) (hs : s.work i = .ok s') : s'.Serves := by
  cases work_cases h hs with
  | started job hp hs' =>
    subst hs'
    have he := h.exit job (h.inv.sent.mem_accepted (h.inv.sent.mem_handed_of_got hp))
    obtain ⟨id, exit⟩ := job
    obtain rfl : exit = false := he
    refine ⟨h.inv.step (a := .work i) trivial (Pool.step_got hp rfl), h.main, h.exit, fun id' => ?_, fun id' hid => ?_⟩
    · show Function.update s.stage id .started id' = .queued ↔ ∀ j, (j, ⟨id', false⟩) ∉ s.pool.log.started ++ [(i, ⟨id, false⟩)]
      by_cases hid : id' = id
      · subst hid
        rw [Function.update_self]
        exact ⟨nofun, fun hnot => absurd (List.mem_append_right _ (List.mem_singleton.2 rfl)) (hnot i)⟩
      · rw [Function.update_of_ne hid, h.queued]
        refine forall_congr' fun j => not_congr ⟨List.mem_append_left _, fun hmem => ?_⟩
        rcases List.mem_append.1 hmem with hmem | hmem
        · exact hmem
        · cases List.mem_singleton.1 hmem
          exact absurd rfl hid
    · replace hid : Function.update s.stage id .started id' = .started := hid
      by_cases hne : id' = id
      · subst hne
        refine ⟨i, ?_⟩
        show ((s.pool.setPhase i (.running _)).mThreads i).phase = _
        rw [Pool.setPhase, Pool.setThread_self]
      · rw [Function.update_of_ne hne] at hid
        obtain ⟨j, hj⟩ := h.run id' hid
        refine ⟨j, ?_⟩
        have hji : j ≠ i := by
          rintro rfl
          rw [hp] at hj
          cases hj
        show ((s.pool.setPhase i (.running _)).mThreads j).phase = _
        rw [Pool.setPhase, Pool.setThread_ne _ _ hji]
        exact hj
  | other pool hgot hover hpool hs' =>
    subst hs'
    obtain ⟨hacc, hmain⟩ := Pool.accepted_work hpool
    refine h.of_pool (h.inv.step (a := .work i) trivial hpool) hmain ?_
      (Pool.started_work hpool hgot) fun j id hj => ?_
    · rw [hacc]
      exact h.exit
    · have hne : j ≠ i := by
        rintro rfl
        have := hover _ hj.1
        rw [hj.2] at this
        cases this
      obtain ⟨t, ht, rfl⟩ := Pool.step_work hpool
      show (t.mThreads j).phase = _
      rw [(Pool.work_spec ht).2.1, Function.update_of_ne hne]
      exact hj.1

theorem Serves.finish (h : s.Serves) (hid : s.stage id = .started) : (s.finish id).Serves where
  inv := h.inv
  main := h.main
  exit := h.exit
  queued id' := by
    show Function.update s.stage id .finished id' = .queued ↔ _
    by_cases hne : id' = id
    · subst hne
      rw [Function.update_self]
      refine ⟨nofun, fun hnot => ?_⟩
      have hq := (h.queued id').2 hnot
      rw [hid] at hq
      cases hq
    · rw [Function.update_of_ne hne]
      exact h.queued id'
  run id' hid' := by
    replace hid' : Function.update s.stage id .finished id' = .started := hid'
    by_cases hne : id' = id
    · subst hne
      rw [Function.update_self] at hid'
      cases hid'
    · rw [Function.update_of_ne hne] at hid'
      exact h.run id' hid'

theorem Serves.not_queued (h : s.Serves) {job : Job} (hp : (s.pool.mThreads i).phase = .running job) :
    s.stage job.id ≠ .queued := by
  have hmem := h.inv.sent.mem_started_of_running hp
  have he := h.inv.sent.started _ hmem
  obtain ⟨id, exit⟩ := job
  obtain rfl : exit = false := he
  exact fun hq => (h.queued id).1 hq i hmem

/-! ### What a step leaves -/

theorem stage_work (h : s.Serves) (hs : s.work i = .ok s') (id : Nat) :
    s'.stage id = s.stage id ∨ s.stage id = .queued ∧ s'.stage id = .started := by
  cases work_cases h hs with
  | started job hp hs' =>
    subst hs'
    obtain ⟨id', exit⟩ := job
    obtain rfl : exit = false := h.exit _ (h.inv.sent.mem_accepted (h.inv.sent.mem_handed_of_got hp))
    by_cases hid : id = id'
    · subst hid
      exact .inr ⟨(h.queued id).2 (h.inv.sent.not_started_of_got hp), Function.update_self ..⟩
    · exact .inl (Function.update_of_ne hid ..)
  | other pool _ _ _ hs' =>
    subst hs'
    exact .inl rfl

theorem accepted_work (h : s.Serves) (hs : s.work i = .ok s') : s'.pool.log.accepted = s.pool.log.accepted := by
  cases work_cases h hs with
  | started job _ hs' =>
    subst hs'
    rfl
  | other pool _ _ hpool hs' =>
    subst hs'
    exact (Pool.accepted_work hpool).1

theorem spurious_cases (hs : s.spurious i = .ok s') :
    s'.stage = s.stage ∧ s'.pool.log.accepted = s.pool.log.accepted := by
  obtain ⟨pool, hpool, hs⟩ := Res.of_bind hs
  obtain rfl := Except.ok.inj hs
  obtain ⟨-, rfl⟩ := Pool.step_spurious_cases hpool
  exact ⟨rfl, rfl⟩

theorem Serves.queued_of_not_mem (h : s.Serves) (hid : ⟨id, false⟩ ∉ s.pool.log.accepted) : s.stage id = .queued :=
  (h.queued id).2 fun _ hmem => hid (h.inv.sent.mem_accepted (h.inv.sent.deliversAll.sub _ hmem))

theorem stage_finish (s : Service n) (id id' : Nat) :
    (s.finish id).stage id' = if id' = id then .finished else s.stage id' := Function.update_apply ..

/-! ### Workers at rest -/

/-- Where the workers can do no more. -/
structure Rests (s : Service n) : Prop where
  worker : ∀ i, (s.pool.mThreads i).phase = .waiting ∨ ∃ id, s.Serving i id
  busy : s.pool.mJobQueue ≠ [] → ∀ i, ∃ id, s.Serving i id

theorem Serves.not_tookExit (h : s.Serves) (i : Fin n) : (s.pool.mThreads i).phase.tookExit = false := by
  by_contra ht
  have hpos : 0 < Tally.tally (·.phase.tookExit) s.pool.mThreads := Tally.tally_pos.2 ⟨i, by simpa using ht⟩
  have hexits := h.inv.exits
  rw [h.main, Main.exits] at hexits
  omega

/-- A worker that is not in a dispatch can go on, if it does not wait. -/
theorem Serves.exists_work (h : s.Serves) (hw : (s.pool.mThreads i).phase ≠ .waiting) (hd : ∀ id, ¬ s.Serving i id) :
    ∃ s', s.work i = .ok s' := by
  have hunborn : (s.pool.mThreads i).phase ≠ .unborn := by
    intro hp
    have hle := (h.inv.born i).1 hp
    rw [h.main] at hle
    exact absurd i.isLt (Nat.not_lt.2 hle)
  have hexited : (s.pool.mThreads i).phase ≠ .exited := by
    intro hp
    have ht := h.not_tookExit i
    rw [hp] at ht
    cases ht
  obtain ⟨pool, hpool⟩ := Pool.exists_step (a := .work i) (Pool.exists_work hunborn hw hexited)
  unfold Service.work
  rw [hpool]
  split
  · exact ⟨_, rfl⟩
  · rename_i job hp
    have he := h.inv.sent.started _ (h.inv.sent.mem_started_of_running hp)
    obtain ⟨id, exit⟩ := job
    obtain rfl : exit = false := he
    have hover : s.stage id = .finished := by
      cases hs : s.stage id with
      | queued => exact absurd hs (h.not_queued hp)
      | started => exact absurd ⟨hp, hs⟩ (hd id)
      | finished => rfl
    exact ⟨_, if_pos hover⟩
  · exact ⟨_, rfl⟩

theorem Serves.mem_queue (h : s.Serves) (hr : s.Rests) (hacc : ⟨id, false⟩ ∈ s.pool.log.accepted)
    (hq : s.stage id = .queued) : ⟨id, false⟩ ∈ s.pool.mJobQueue := by
  rw [h.inv.sent.queue, List.mem_append] at hacc
  refine hacc.resolve_left fun hmem => ?_
  obtain ⟨⟨i, job⟩, hmem, rfl⟩ := List.mem_map.1 hmem
  have hlog := (h.inv.sent.worker i).jobs
  have heq : byWorker i s.pool.log.handed = byWorker i s.pool.log.started := by
    rcases hr.worker i with hp | ⟨id', hp, -⟩
    · rw [hp] at hlog
      exact hlog.1
    · rw [hp] at hlog
      exact hlog.1
  exact (h.queued id).1 hq i (mem_byWorker.1 (heq ▸ mem_byWorker.2 hmem))

theorem Serves.mem_accepted (h : s.Serves) {job : Job} (hp : (s.pool.mThreads i).phase = .running job) :
    job ∈ s.pool.log.accepted :=
  h.inv.sent.mem_accepted (h.inv.sent.deliversAll.sub _ (h.inv.sent.mem_started_of_running hp))

/-! ### One worker for each job that has events -/

theorem Serves.length_le (h : s.Serves) {ids : List Nat} (hnodup : ids.Nodup) (hopen : ∀ id ∈ ids, s.stage id = .started) :
    ids.length ≤ n := by
  choose worker hworker using fun x : { id // id ∈ ids } => h.run x.1 (hopen x.1 x.2)
  have hinj : Function.Injective worker := by
    intro x y hxy
    have hx := hworker x
    rw [hxy, hworker y] at hx
    exact Subtype.ext (congrArg Job.id (Phase.running.inj hx)).symm
  have hle := ((List.nodup_attach.2 hnodup).map hinj).length_le_card
  rwa [List.length_map, List.length_attach, Fintype.card_fin] at hle

theorem ahead_work (h : s.Serves) (hs : s.work i = .ok s') : s'.pool.ahead < s.pool.ahead := by
  cases work_cases h hs with
  | started job hp hs' =>
    subst hs'
    exact Pool.ahead_step_work (Pool.step_got hp (h.exit job (h.inv.sent.mem_accepted (h.inv.sent.mem_handed_of_got hp))))
  | other pool _ _ hpool hs' =>
    subst hs'
    exact Pool.ahead_step_work hpool

/-! ### A pool that has just been constructed, and the next job -/

/-- The constructor has returned, and nothing was added yet. -/
structure Ready (pool : Pool n) : Prop where
  reach : Runs.Reach (Runs.Under NoExit (Runs.Ok Pool.step)) (Pool.new n) pool
  main : pool.main = .creating n
  accepted : pool.log.accepted = []

def new (pool : Pool n) : Service n := ⟨pool, fun _ => .queued⟩

theorem Serves.new {pool : Pool n} (h : Ready pool) : (new pool).Serves := by
  have hinv := Pool.Inv.of_reach h.reach
  have hstarted : pool.log.started = [] := by
    refine List.eq_nil_iff_forall_not_mem.2 fun x hx => ?_
    have hacc : x.2 ∈ pool.log.accepted := hinv.sent.mem_accepted (i := x.1) (hinv.sent.deliversAll.sub x hx)
    rw [h.accepted] at hacc
    cases hacc
  refine ⟨hinv, h.main, fun job hjob => ?_, fun id => ?_, fun id hid => by cases hid⟩
  · rw [show (Service.new pool).pool.log.accepted = [] from h.accepted] at hjob
    cases hjob
  · rw [show (Service.new pool).pool.log.started = [] from hstarted]
    exact ⟨fun _ _ => List.not_mem_nil, fun _ => rfl⟩

/-- The pool with its first `k` workers at the queue. -/
def constructing (n k : Nat) : Pool n :=
  ⟨[], fun i => if i < k then ⟨.fetching, ⟨0⟩⟩ else ⟨.unborn, ⟨0⟩⟩, .creating k, ⟨[], [], [], [], []⟩⟩

/-- While the owner waits for worker `k`. -/
def constructingAt (k : Fin n) (w : Worker) (main : Main n) : Pool n :=
  ⟨[], Function.update (constructing n k).mThreads k w, main, ⟨[], [], [], [], []⟩⟩

section
variable {k : Fin n} {w : Worker} {main : Main n}

theorem constructingAt_thread : (constructingAt k w main).mThreads k = w := Function.update_self ..

theorem constructingAt_setThread (w' : Worker) :
    (constructingAt k w main).setThread k w' = constructingAt k w' main := by
  show Pool.mk _ (Function.update (Function.update _ k w) k w') _ _ = _
  rw [Function.update_idem]
  rfl

theorem constructing_eq (k : Fin n) :
    constructing n k = constructingAt k ⟨.unborn, ⟨0⟩⟩ (.creating k) := by
  have hk : (constructing n k).mThreads k = ⟨.unborn, ⟨0⟩⟩ := if_neg (Nat.lt_irrefl k)
  rw [constructingAt, ← hk, Function.update_eq_self]
  rfl

theorem constructing_succ (k : Fin n) :
    constructing n (k + 1) = constructingAt k ⟨.fetching, ⟨0⟩⟩ (.creating (k + 1)) := by
  refine congrArg (fun threads => Pool.mk [] threads _ _) (funext fun i => ?_)
  by_cases hi : i = k
  · rw [hi, Function.update_self, if_pos (Nat.lt_succ_self k)]
  · rw [Function.update_of_ne hi]
    have hne : (i : Nat) ≠ k := fun he => hi (Fin.ext he)
    have hiff : (i : Nat) < k + 1 ↔ (i : Nat) < k := by omega
    exact if_congr hiff rfl rfl

theorem step_starting (k : Fin n) :
    (constructing n k).step (.main 0 none) = .ok (constructingAt k ⟨.booting, ⟨0⟩⟩ (.starting k)) := by
  have hact : (constructing n k).act (.main 0 none) = .ok (constructingAt k ⟨.booting, ⟨0⟩⟩ (.starting k)) := by
    rw [constructing_eq k, Pool.act, Pool.mainStep]
    show (dite _ _ _) = _
    rw [dif_pos k.isLt]
    show Except.ok ((constructingAt k _ (.starting k)).setThread k
      ⟨.booting, ((constructingAt k _ _).mThreads k).mSemaphore⟩) = _
    rw [constructingAt_thread, constructingAt_setThread]
  exact Pool.step_of_act hact

theorem step_booting (k : Fin n) (main : Main n) :
    (constructingAt k ⟨.booting, ⟨0⟩⟩ main).step (.work k) = .ok (constructingAt k ⟨.fetching, ⟨1⟩⟩ main) := by
  have hact : (constructingAt k ⟨.booting, ⟨0⟩⟩ main).act (.work k) = .ok (constructingAt k ⟨.fetching, ⟨1⟩⟩ main) := by
    rw [Pool.act, Pool.work, constructingAt_thread]
    exact congrArg Except.ok (constructingAt_setThread _)
  rw [Pool.step_of_act hact, Pool.record, constructingAt_thread, constructingAt_thread]
  rfl

theorem step_started (k : Fin n) : (constructingAt k ⟨.fetching, ⟨1⟩⟩ (.starting k)).step (.main 0 none) =
    .ok (constructing n (k + 1)) := by
  have hact : (constructingAt k ⟨.fetching, ⟨1⟩⟩ (.starting k)).act (.main 0 none) = .ok (constructing n (k + 1)) := by
    rw [Pool.act, Pool.mainStep, constructing_succ k]
    show Pool.waitFor _ k _ = _
    rw [Pool.waitFor, constructingAt_thread]
    exact congrArg Except.ok (@constructingAt_setThread n k _ (.creating (k + 1)) _)
  exact Pool.step_of_act hact

end

theorem reach_constructing {k : Nat} (hk : k ≤ n) :
    Runs.Reach (Runs.Under NoExit (Runs.Ok Pool.step)) (Pool.new n) (constructing n k) := by
  induction k with
  | zero => exact .refl
  | succ k ih =>
    refine (((ih (Nat.le_of_lt hk)).step ⟨?_, step_starting ⟨k, hk⟩⟩).step ⟨?_, step_booting ⟨k, hk⟩ _⟩).step
      ⟨?_, step_started ⟨k, hk⟩⟩
    · trivial
    · trivial
    · trivial

theorem ready_constructing (n : Nat) : Ready (constructing n n) := ⟨reach_constructing (Nat.le_refl n), rfl, rfl⟩

theorem addJob_cases (h : s.addJob id wake = .ok s') :
    s'.stage = s.stage ∧ s'.pool.log.accepted = s.pool.log.accepted ++ [⟨id, false⟩] ∧
      (∀ i id, s'.Serving i id ↔ s.Serving i id) ∧ s'.pool.ahead ≤ s.pool.ahead + 4 := by
  obtain ⟨pool, hpool, hs⟩ := Res.of_bind h
  obtain rfl := Except.ok.inj hs
  obtain ⟨-, hacc, -, hphase, hahead⟩ := Pool.step_addJob_cases hpool
  exact ⟨rfl, hacc, fun i id => and_congr_left' (hphase i _), hahead⟩

theorem Serves.exists_addJob (h : s.Serves) (hid : ∀ job ∈ s.pool.log.accepted, job.id ≠ id) :
    ∃ wake s', s.addJob id wake = .ok s' := by
  have hmain : s.pool.main ≠ .deleting n := by
    rw [h.main]
    exact nofun
  obtain ⟨wake, hact⟩ : ∃ wake pool, s.pool.act (.addJob ⟨id, false⟩ wake) = .ok pool := by
    by_cases hw : ∃ i, (s.pool.mThreads i).phase = .waiting
    · obtain ⟨i, hi⟩ := hw
      exact ⟨some i, _, by rw [Pool.act, if_neg hmain, Pool.addJob, if_pos hid, Pool.notifyOne, if_pos hi]; rfl⟩
    · have hnone : ∀ i, (s.pool.mThreads i).phase ≠ .waiting := fun i hi => hw ⟨i, hi⟩
      exact ⟨none, _, by rw [Pool.act, if_neg hmain, Pool.addJob, if_pos hid, Pool.notifyOne, if_pos hnone]; rfl⟩
  obtain ⟨pool, hpool⟩ := Pool.exists_step hact
  exact ⟨wake, _, by rw [Service.addJob, hpool]; rfl⟩

end Service

end ChCppUtils.ThreadPool
