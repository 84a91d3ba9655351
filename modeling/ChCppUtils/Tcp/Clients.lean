import ChCppUtils.Tcp.Told

/-!
# The clients

In every interleaving each connection that `accept` does not give descriptor 0 is announced once, in the order of
arrival, and is served in a job of its own; what is told about it is `Told`. A message may come before the
announcement, which another thread makes. At most eight clients and local events are served at a time.
-/

namespace ChCppUtils.Tcp

open ThreadPool Runs

def Routine.isCalling : Routine → Bool
  | .calling _ => true
  | .armed | .again => false

variable {client : Nat} {c : Conn} {calls : List Call} {stage : Stage}

namespace Server

variable {s s' : Server}

structure Jobs (s : Server) : Prop where
  listener : s.listener.Serves
  workers : s.workers.Serves
  /-- The listener has one job after the other. -/
  listens : s.listener.pool.log.accepted = (List.range s.listens).map (⟨·, false⟩)
  last : ∀ id < s.listens, s.listener.stage id = .finished ↔ id + 1 < s.listens
  routine : s.routine ≠ .armed → s.listener.stage (s.listens - 1) = .started
  jobs : ∀ job ∈ s.workers.pool.log.accepted,
    (∃ k < s.accepted, k ∉ s.dropped ∧ job.id = clientJob k) ∨ ∃ t < s.localEvents, job.id = eventJob t
  clients : ∀ k < s.accepted, k ∉ s.dropped → ⟨clientJob k, false⟩ ∈ s.workers.pool.log.accepted

/-- The connections to announce among the first `k`. -/
def toAnnounce (s : Server) (k : Nat) : List Nat := (List.range k).filter (· ∉ s.dropped)

structure Inv (s : Server) : Prop extends s.Jobs where
  le : s.accepted ≤ s.conns.length
  dropped : ∀ k ∈ s.dropped, k < s.accepted
  calling : ∀ k, s.routine = .calling k → k + 1 = s.accepted ∧ k ∉ s.dropped
  announced : s.calls.filterMap Call.connection? = s.toAnnounce (s.accepted - s.routine.isCalling.toNat)
  known : ∀ k, ∀ call ∈ s.calls, call.about k = true → k < s.conns.length
  told : ∀ k c, s.conns[k]? = some c → Told s.calls (s.workers.stage (clientJob k)) k c

theorem Inv.new {listener : Pool 1} {workers : Pool 8} (hl : Service.Ready listener) (hw : Service.Ready workers) :
    (new listener workers).Inv where
  listener := .new hl
  workers := .new hw
  listens := hl.accepted
  last := fun _ hid => absurd hid (Nat.not_lt_zero _)
  routine := fun h => absurd rfl h
  jobs := fun job hjob => by
    have hnone : job ∈ ([] : List Job) := hw.accepted ▸ hjob
    cases hnone
  clients := fun _ hk => absurd hk (Nat.not_lt_zero _)
  le := Nat.le_refl 0
  dropped := fun _ hk => absurd hk List.not_mem_nil
  calling := fun k hk => by cases hk
  announced := rfl
  known := fun _ _ h => absurd h List.not_mem_nil
  told := fun _ _ h => by cases h

/-! ### Steps of the two pools -/

/-- A step that only the pools see, and the listener outside of `mOnConnection`. -/
theorem Inv.of_jobs (h : s.Inv) (hjobs : s'.Jobs) (hconns : s'.conns = s.conns) (hcalls : s'.calls = s.calls)
    (haccepted : s'.accepted = s.accepted) (hdropped : s'.dropped = s.dropped)
    (hcalling : ∀ k, s'.routine = .calling k ↔ s.routine = .calling k)
    (htold : ∀ k c, s.conns[k]? = some c → Told s.calls (s.workers.stage (clientJob k)) k c →
      Told s.calls (s'.workers.stage (clientJob k)) k c) : s'.Inv where
  toJobs := hjobs
  le := by rw [haccepted, hconns]; exact h.le
  dropped := by rw [haccepted, hdropped]; exact h.dropped
  calling k hk := by rw [haccepted, hdropped]; exact h.calling k ((hcalling k).1 hk)
  announced := by
    have hsame : s'.routine.isCalling = s.routine.isCalling := by
      cases hr : s.routine with
      | calling k => rw [(hcalling k).2 hr]
      | armed | again =>
        cases hr' : s'.routine with
        | calling k => rw [(hcalling k).1 hr'] at hr; cases hr
        | armed | again => rfl
    rw [hcalls, haccepted, hsame, toAnnounce, hdropped]
    exact h.announced
  known := by rw [hcalls, hconns]; exact h.known
  told k c hk := by
    rw [hconns] at hk
    rw [hcalls]
    exact htold k c hk (h.told k c hk)

theorem told_of_stage {stage' : Stage} (h : Told calls stage client c)
    (hstage : stage' = stage ∨ stage = .queued ∧ stage' = .started) : Told calls stage' client c := by
  rcases hstage with heq | ⟨-, hopen⟩
  · rw [heq]
    exact h
  · rw [hopen]
    exact h.withOutput c.output

section
variable {i : Fin 8} {listener : Service 1} {workers : Service 8} {wake : Option (Fin 8)} {wake₁ : Option (Fin 1)}
  {id : Nat}

/-- The workers go on with the jobs that they have. -/
theorem Jobs.of_workers (h : s.Jobs) (hserves : workers.Serves)
    (hacc : workers.pool.log.accepted = s.workers.pool.log.accepted) : Jobs { s with workers := workers } :=
  { h with
    workers := hserves
    jobs := fun job hjob => h.jobs job (hacc ▸ hjob)
    clients := fun k hk hd => by
      show _ ∈ workers.pool.log.accepted
      rw [hacc]
      exact h.clients k hk hd }

theorem Jobs.work (h : s.Jobs) (hw : s.workers.work i = .ok workers) : Jobs { s with workers := workers } :=
  h.of_workers (h.workers.work hw) (Service.accepted_work h.workers hw)

theorem Jobs.spurious (h : s.Jobs) (hw : s.workers.spurious i = .ok workers) : Jobs { s with workers := workers } :=
  h.of_workers (h.workers.spurious hw) (Service.spurious_cases hw).2

theorem Jobs.finish (h : s.Jobs) (hid : s.workers.stage id = .started) :
    Jobs { s with workers := s.workers.finish id } :=
  h.of_workers (h.workers.finish hid) rfl

theorem Jobs.newLocalEvent (h : s.Jobs) (hw : s.workers.addJob (eventJob s.localEvents) wake = .ok workers) :
    Jobs { s with workers := workers, localEvents := s.localEvents + 1 } := by
  obtain ⟨-, hacc, -, -⟩ := Service.addJob_cases hw
  refine { h with workers := h.workers.addJob hw, jobs := fun job hjob => ?_, clients := fun k hk hd => ?_ }
  · replace hjob : job ∈ workers.pool.log.accepted := hjob
    rw [hacc, List.mem_append, List.mem_singleton] at hjob
    rcases hjob with hjob | rfl
    · exact (h.jobs job hjob).imp_right fun ⟨t, ht, heq⟩ => ⟨t, Nat.lt_succ_of_lt ht, heq⟩
    · exact .inr ⟨s.localEvents, Nat.lt_succ_self _, rfl⟩
  · show _ ∈ workers.pool.log.accepted
    rw [hacc]
    exact List.mem_append_left _ (h.clients k hk hd)

theorem Jobs.accept (h : s.Jobs) (hdropped : ∀ k ∈ s.dropped, k < s.accepted) (hl : s.Listening .armed)
    (hw : s.workers.addJob (clientJob s.accepted) wake = .ok workers) :
    Jobs { s with workers := workers, accepted := s.accepted + 1, routine := .calling s.accepted } := by
  obtain ⟨-, hacc, -, -⟩ := Service.addJob_cases hw
  refine { h with
    workers := h.workers.addJob hw
    routine := fun _ => hl.1.2
    jobs := fun job hjob => ?_
    clients := fun k hk hd => ?_ }
  · replace hjob : job ∈ workers.pool.log.accepted := hjob
    rw [hacc, List.mem_append, List.mem_singleton] at hjob
    rcases hjob with hjob | rfl
    · exact (h.jobs job hjob).imp_left fun ⟨k, hk, heq⟩ => ⟨k, Nat.lt_succ_of_lt hk, heq⟩
    · exact .inl ⟨s.accepted, Nat.lt_succ_self _, fun hd => Nat.lt_irrefl _ (hdropped _ hd), rfl⟩
  · show _ ∈ workers.pool.log.accepted
    rw [hacc, List.mem_append, List.mem_singleton]
    rcases Nat.lt_succ_iff_lt_or_eq.1 hk with hk | rfl
    · exact .inl (h.clients k hk hd)
    · exact .inr rfl

theorem Jobs.acceptZero (h : s.Jobs) (hl : s.Listening .armed) :
    Jobs { s with accepted := s.accepted + 1, dropped := s.accepted :: s.dropped, routine := .again } := by
  refine { h with routine := fun _ => hl.1.2, jobs := fun job hjob => ?_, clients := fun k hk hd => ?_ }
  · refine (h.jobs job hjob).imp_left fun ⟨k, hk, hd, heq⟩ => ⟨k, Nat.lt_succ_of_lt hk, ?_, heq⟩
    rw [List.mem_cons, not_or]
    exact ⟨Nat.ne_of_lt hk, hd⟩
  · replace hd : k ∉ s.accepted :: s.dropped := hd
    rw [List.mem_cons, not_or] at hd
    exact h.clients k (Nat.lt_of_le_of_ne (Nat.lt_succ_iff.1 hk) hd.1) hd.2

/-- The listener goes on with the job that it has. -/
theorem Jobs.of_listener (h : s.Jobs) (hserves : listener.Serves)
    (hacc : listener.pool.log.accepted = s.listener.pool.log.accepted)
    (hstage : ∀ id, listener.stage id = s.listener.stage id ∨
      s.listener.stage id = .queued ∧ listener.stage id = .started) : Jobs { s with listener := listener } :=
  { h with
    listener := hserves
    listens := hacc.trans h.listens
    last := fun id hid => by
      show listener.stage id = .finished ↔ _
      rw [← h.last id hid]
      rcases hstage id with heq | ⟨hq, hopen⟩
      · rw [heq]
      · rw [hq, hopen]
        exact ⟨nofun, nofun⟩
    routine := fun hr => by
      show listener.stage _ = .started
      rcases hstage (s.listens - 1) with heq | ⟨-, hopen⟩
      · rw [heq]
        exact h.routine hr
      · exact hopen }

theorem Jobs.listen (h : s.Jobs) (hl : s.listener.work listenerThread = .ok listener) : Jobs { s with listener := listener } :=
  h.of_listener (h.listener.work hl) (Service.accepted_work h.listener hl) (Service.stage_work h.listener hl)

theorem Jobs.listenerSpurious (h : s.Jobs) (hl : s.listener.spurious listenerThread = .ok listener) :
    Jobs { s with listener := listener } := by
  obtain ⟨hstage, hacc⟩ := Service.spurious_cases hl
  exact h.of_listener (h.listener.spurious hl) hacc fun id => .inl (congrFun hstage id)

theorem Jobs.start (h : s.Jobs) (h0 : s.listens = 0) (hl : s.listener.addJob 0 wake₁ = .ok listener) :
    Jobs { s with listener := listener, listens := 1 } := by
  obtain ⟨hstage, hacc, -, -⟩ := Service.addJob_cases hl
  have hnone : s.listener.pool.log.accepted = [] := by
    rw [h.listens, h0]
    rfl
  have hqueued : s.listener.stage 0 = .queued := by
    refine h.listener.queued_of_not_mem ?_
    rw [hnone]
    exact List.not_mem_nil
  refine { h with listener := h.listener.addJob hl, listens := ?_, last := fun id hid => ?_, routine := fun hr => ?_ }
  · show listener.pool.log.accepted = _
    rw [hacc, hnone]
    rfl
  · obtain rfl : id = 0 := Nat.lt_one_iff.1 hid
    show listener.stage 0 = .finished ↔ _
    rw [hstage, hqueued]
    exact ⟨nofun, fun hlt => absurd hlt (Nat.lt_irrefl 1)⟩
  · have hopen := h.routine hr
    rw [h0, hqueued] at hopen
    cases hopen

/-- The next job of the listener takes the place of the last one. -/
theorem Jobs.again (h : s.Jobs) (h1 : 1 ≤ s.listens) (hr : s.Listening .again)
    (hl : s.listener.addJob s.listens wake₁ = .ok listener) :
    Jobs { s with listener := listener.finish (s.listens - 1), listens := s.listens + 1, routine := .armed } := by
  obtain ⟨hstage, hacc, -, -⟩ := Service.addJob_cases hl
  have hopen : listener.stage (s.listens - 1) = .started := by
    rw [hstage]
    exact hr.1.2
  have hqueued : s.listener.stage s.listens = .queued := by
    refine h.listener.queued_of_not_mem ?_
    rw [h.listens]
    simp
  refine { h with
    listener := (h.listener.addJob hl).finish hopen
    listens := ?_
    last := fun id hid => ?_
    routine := fun hr => absurd rfl hr }
  · show listener.pool.log.accepted = _
    rw [hacc, h.listens, List.range_succ, List.map_append]
    rfl
  · show (listener.finish _).stage id = .finished ↔ _
    rw [Service.stage_finish, hstage]
    replace hid : id < s.listens + 1 := hid
    show _ ↔ id + 1 < s.listens + 1
    by_cases hlast : id = s.listens - 1
    · rw [if_pos hlast]
      exact ⟨fun _ => by omega, fun _ => rfl⟩
    · rw [if_neg hlast]
      by_cases hnew : id = s.listens
      · rw [hnew, hqueued]
        exact ⟨nofun, fun hlt => absurd hlt (Nat.lt_irrefl _)⟩
      · rw [h.last id (by omega)]
        omega

end

/-! ### Connections -/

/-- One connection changes, and what was told about it. -/
theorem Inv.conn {c' : Conn} {calls : List Call} (h : s.Inv) (hc : s.conns[client]? = some c)
    (hconn : calls.filterMap Call.connection? = s.calls.filterMap Call.connection?)
    (hknown : ∀ call ∈ calls, call ∈ s.calls ∨ ∀ k, call.about k = true → k = client)
    (hother : ∀ k stage c, k ≠ client → Told s.calls stage k c → Told calls stage k c)
    (htold : Told s.calls (s.workers.stage (clientJob client)) client c →
      Told calls (s.workers.stage (clientJob client)) client c') : Inv { s.setConn client c' with calls := calls } where
  toJobs := { h.toJobs with }
  le := by
    show _ ≤ (s.conns.set client c').length
    rw [List.length_set]
    exact h.le
  dropped := h.dropped
  calling := h.calling
  announced := hconn.trans h.announced
  known k call hcall hk := by
    show k < (s.conns.set client c').length
    rw [List.length_set]
    rcases hknown call hcall with hcall | habout
    · exact h.known k call hcall hk
    · rw [habout k hk]
      exact (List.getElem?_eq_some_iff.1 hc).1
  told k c₁ hk := by
    replace hk : (s.conns.set client c')[k]? = some c₁ := hk
    by_cases hkc : k = client
    · subst hkc
      rw [List.getElem?_set_self (List.getElem?_eq_some_iff.1 hc).1] at hk
      obtain rfl := Option.some.inj hk
      exact htold (h.told k c hc)
    · rw [List.getElem?_set_ne (Ne.symm hkc)] at hk
      exact hother k _ c₁ hkc (h.told k c₁ hk)

theorem Inv.setConn {c' : Conn} (h : s.Inv) (hc : s.conns[client]? = some c)
    (htold : Told s.calls (s.workers.stage (clientJob client)) client c →
      Told s.calls (s.workers.stage (clientJob client)) client c') : (s.setConn client c').Inv :=
  h.conn hc rfl (fun _ hcall => .inl hcall) (fun _ _ _ _ ht => ht) htold

theorem Inv.callback {c' : Conn} {call : Call} (h : s.Inv) (hc : s.conns[client]? = some c)
    (hcall : ∀ k, call.about k = true → k = client) (hconn : call.connection? = none)
    (htold : Told s.calls (s.workers.stage (clientJob client)) client c →
      Told (s.calls ++ [call]) (s.workers.stage (clientJob client)) client c') : ((s.setConn client c').call call).Inv := by
  refine h.conn hc ?_ (fun x hx => ?_) (fun k stage c₁ hk ht => ht.other ?_) htold
  · rw [List.filterMap_append, List.filterMap_cons_none hconn, List.filterMap_nil, List.append_nil]
    rfl
  · rcases List.mem_append.1 hx with hx | hx
    · exact .inl hx
    · rw [List.mem_singleton.1 hx]
      exact .inr hcall
  · exact Bool.eq_false_iff.2 fun ha => hk (hcall k ha)

theorem Inv.peer {f : Conn → Conn} (h : s.Inv)
    (hf : ∀ c calls stage, c.closed = false → Told calls stage client c → Told calls stage client (f c))
    (hs : s.peer client f = .ok s') : s'.Inv := by
  unfold Server.peer at hs
  split at hs
  · rename_i c hc
    split at hs
    · cases hs
    · rename_i hopen
      obtain rfl := Except.ok.inj hs
      exact h.setConn hc (hf c _ _ (Bool.eq_false_iff.2 hopen))
  · cases hs

theorem clientJob_inj {k k' : Nat} (h : clientJob k = clientJob k') : k = k' := by
  unfold clientJob at h
  omega

theorem clientJob_ne (k t : Nat) : clientJob k ≠ eventJob t := by
  unfold clientJob eventJob
  omega

theorem Jobs.queued (h : s.Jobs) {k : Nat} (hk : s.accepted ≤ k ∨ k ∈ s.dropped) :
    s.workers.stage (clientJob k) = .queued := by
  refine h.workers.queued_of_not_mem fun hmem => ?_
  rcases h.jobs _ hmem with ⟨k', hk', hd, heq⟩ | ⟨t, -, heq⟩
  · obtain rfl := clientJob_inj heq
    rcases hk with hk | hk
    · omega
    · exact hd hk
  · exact clientJob_ne k t heq

theorem Inv.connect (h : s.Inv) : Inv { s with conns := s.conns ++ [.new] } where
  toJobs := { h.toJobs with }
  le := by
    show _ ≤ (s.conns ++ _).length
    rw [List.length_append]
    exact Nat.le_trans h.le (Nat.le_add_right _ _)
  dropped := h.dropped
  calling := h.calling
  announced := h.announced
  known k call hcall hk := by
    show k < (s.conns ++ _).length
    rw [List.length_append]
    exact Nat.lt_of_lt_of_le (h.known k call hcall hk) (Nat.le_add_right _ _)
  told k c hk := by
    replace hk : (s.conns ++ [.new])[k]? = some c := hk
    by_cases hlt : k < s.conns.length
    · rw [List.getElem?_append_left hlt] at hk
      exact h.told k c hk
    · have hle := Nat.le_of_not_lt hlt
      rw [List.getElem?_append_right hle, List.getElem?_singleton] at hk
      split at hk
      · obtain rfl := Option.some.inj hk
        rw [h.queued (.inl (Nat.le_trans h.le hle))]
        exact .new fun call hcall => Bool.eq_false_iff.2 fun ha => hlt (h.known k call hcall ha)
      · cases hk

/-! ### Callbacks -/

theorem conn?_cases (h : s.conn? client = .ok c) :
    s.conns[client]? = some c ∧ s.workers.stage (clientJob client) = .started := by
  unfold conn? at h
  split at h
  · rename_i c' hc
    split at h
    · rename_i ho
      obtain rfl := Except.ok.inj h
      exact ⟨hc, ho⟩
    · cases h
  · cases h

theorem Inv.read {n : Nat} (h : s.Inv) (hc : s.conn? client = .ok c) (hr : c.reading = true) (hn : 0 < n)
    (hle : n ≤ c.unread.length) :
    Inv ((s.setConn client { c with unread := c.unread.drop n }).call (.onMessage client (c.unread.take n))) := by
  obtain ⟨hconn, ho⟩ := conn?_cases hc
  refine h.callback hconn (fun k hk => (beq_iff_eq.1 hk).symm) rfl fun ht => ?_
  rw [ho] at ht ⊢
  exact ht.message hr hn hle

theorem Inv.onError {what : What} (h : s.Inv) (hc : s.conn? client = .ok c) (he : c.ends what = true) :
    (s.onError client c what).Inv := by
  obtain ⟨hconn, ho⟩ := conn?_cases hc
  refine h.callback hconn (fun k hk => (beq_iff_eq.1 hk).symm) rfl fun ht => ?_
  rw [ho] at ht ⊢
  exact ht.disconnect he

theorem Inv.withOutput (h : s.Inv) (hc : s.conn? client = .ok c) (output : Bool) :
    (s.setConn client { c with output := output }).Inv := by
  obtain ⟨hconn, ho⟩ := conn?_cases hc
  refine h.setConn hconn fun ht => ?_
  rw [ho]
  exact ht.withOutput output

theorem Inv.leave (h : s.Inv) (hc : s.conn? client = .ok c) (hp : c.pending = false) :
    Inv { s with workers := s.workers.finish (clientJob client) } := by
  obtain ⟨hconn, ho⟩ := conn?_cases hc
  refine h.of_jobs (h.toJobs.finish ho) rfl rfl rfl rfl (fun _ => .rfl) fun k c₁ hk ht => ?_
  show Told s.calls ((s.workers.finish (clientJob client)).stage (clientJob k)) k c₁
  rw [Service.stage_finish]
  split
  · rename_i heq
    obtain rfl := clientJob_inj heq
    rw [hconn] at hk
    obtain rfl := Option.some.inj hk
    exact ht.leave hp
  · exact ht

theorem Inv.expire {event : Nat} (h : s.Inv) (ho : s.workers.stage (eventJob event) = .started) :
    Inv ({ s with workers := s.workers.finish (eventJob event) }.call (.onLocalEvent event)) where
  toJobs := { h.toJobs.finish ho with }
  le := h.le
  dropped := h.dropped
  calling := h.calling
  announced := by
    show (s.calls ++ [_]).filterMap Call.connection? = _
    rw [List.filterMap_append]
    exact (List.append_nil _).trans h.announced
  known k x hx hk := by
    rcases List.mem_append.1 hx with hx | hx
    · exact h.known k x hx hk
    · rw [List.mem_singleton.1 hx] at hk
      cases hk
  told k c hk := by
    show Told (s.calls ++ [_]) ((s.workers.finish (eventJob event)).stage (clientJob k)) k c
    rw [Service.stage_finish, if_neg (clientJob_ne k event)]
    exact (h.told k c hk).other rfl

theorem Inv.onConnection {k : Nat} (h : s.Inv) (hr : s.routine = .calling k) :
    Inv ({ s with routine := .again }.call (.onConnection k)) where
  toJobs := { h.toJobs with
    routine := fun _ => h.routine (by rw [hr]; exact nofun) }
  le := h.le
  dropped := h.dropped
  calling := fun _ hk => nomatch hk
  announced := by
    obtain ⟨hk, hd⟩ := h.calling k hr
    have hann := h.announced
    rw [hr] at hann
    show (s.calls ++ [Call.onConnection k]).filterMap Call.connection? = s.toAnnounce (s.accepted - 0)
    rw [List.filterMap_append, hann, ← hk]
    show s.toAnnounce k ++ [k] = s.toAnnounce (k + 1)
    rw [toAnnounce, toAnnounce, List.range_succ, List.filter_append]
    have hself : [k].filter (· ∉ s.dropped) = [k] := List.filter_eq_self.2 fun j hj => by
      rw [List.mem_singleton.1 hj]
      exact decide_eq_true hd
    rw [hself]
  known k x hx hk := by
    rcases List.mem_append.1 hx with hx | hx
    · exact h.known k x hx hk
    · rw [List.mem_singleton.1 hx] at hk
      cases hk
  told k c hk := (h.told k c hk).other rfl

theorem Inv.accept {wake : Option (Fin 8)} (h : s.Inv) (hl : s.Listening .armed) (hlt : s.accepted < s.conns.length)
    (hs : s.accept wake = .ok s') : s'.Inv := by
  obtain ⟨workers, hw, hs⟩ := Res.of_bind hs
  obtain rfl := Except.ok.inj hs
  refine ⟨h.toJobs.accept h.dropped hl hw, hlt, fun k hk => Nat.lt_succ_of_lt (h.dropped k hk), fun k hk => ?_, ?_,
    h.known, fun k c hk => ?_⟩
  · cases hk
    exact ⟨rfl, fun hd => Nat.lt_irrefl _ (h.dropped _ hd)⟩
  · have hann := h.announced
    rw [hl.2] at hann
    exact hann
  · show Told s.calls (workers.stage (clientJob k)) k c
    rw [(Service.addJob_cases hw).1]
    exact h.told k c hk

/-- Nothing more is told of a connection that is dropped. -/
theorem Inv.acceptZero (h : s.Inv) (hl : s.Listening .armed) (hlt : s.accepted < s.conns.length) :
    Inv { s with accepted := s.accepted + 1, dropped := s.accepted :: s.dropped, routine := .again } where
  toJobs := h.toJobs.acceptZero hl
  le := hlt
  dropped k hk := by
    rcases List.mem_cons.1 hk with rfl | hk
    · exact Nat.lt_succ_self _
    · exact Nat.lt_succ_of_lt (h.dropped k hk)
  calling := fun _ hk => nomatch hk
  announced := by
    have hann := h.announced
    rw [hl.2] at hann
    refine hann.trans ?_
    show (List.range s.accepted).filter (· ∉ s.dropped) = (List.range (s.accepted + 1)).filter (· ∉ s.accepted :: s.dropped)
    rw [List.range_succ, List.filter_append, List.filter_cons_of_neg (by simp), List.filter_nil, List.append_nil]
    refine List.filter_congr fun k hk => ?_
    have hne := Nat.ne_of_lt (List.mem_range.1 hk)
    rw [decide_eq_decide, List.mem_cons, or_iff_right hne]
  known := h.known
  told := h.told

theorem Listening.pos (h : s.Jobs) {routine : Routine} (hl : s.Listening routine) : 1 ≤ s.listens := by
  by_contra h0
  have hzero : s.listens = 0 := by omega
  have hqueued : s.listener.stage 0 = .queued := by
    refine h.listener.queued_of_not_mem ?_
    rw [h.listens, hzero]
    exact List.not_mem_nil
  have hopen := hl.1.2
  rw [hzero, hqueued] at hopen
  cases hopen

theorem Inv.step {a : Action} (h : s.Inv) (hs : s.step a = .ok s') : s'.Inv := by
  cases a with
  | connect =>
    obtain rfl := Except.ok.inj hs
    exact h.connect
  | send client bytes =>
    refine h.peer (f := fun c => { c with sent := c.sent ++ bytes, unread := c.unread ++ bytes })
      (fun c calls stage hopen ht => ht.peer hopen (fun told htold => ?_) ⟨rfl, rfl, rfl, rfl⟩) hs
    rw [← List.append_assoc, htold]
  | close client =>
    exact h.peer (f := fun c => { c with closed := true })
      (fun c calls stage hopen ht => ht.peer hopen (fun _ htold => htold) ⟨rfl, rfl, rfl, rfl⟩) hs
  | start wake =>
    rw [Server.step] at hs
    split at hs
    · rename_i h0
      obtain ⟨listener, hl, hs⟩ := Res.of_bind hs
      obtain rfl := Except.ok.inj hs
      exact h.of_jobs (h.toJobs.start h0 hl) rfl rfl rfl rfl (fun _ => .rfl) fun _ _ _ ht => ht
    · cases hs
  | listen =>
    obtain ⟨listener, hl, hs⟩ := Res.of_bind hs
    obtain rfl := Except.ok.inj hs
    exact h.of_jobs (h.toJobs.listen hl) rfl rfl rfl rfl (fun _ => .rfl) fun _ _ _ ht => ht
  | accept wake =>
    rw [Server.step] at hs
    split at hs
    · rename_i hc
      exact h.accept hc.1 hc.2 hs
    · cases hs
  | acceptZero =>
    rw [Server.step] at hs
    split at hs
    · rename_i hc
      obtain rfl := Except.ok.inj hs
      exact h.acceptZero hc.1 hc.2
    · cases hs
  | acceptFails =>
    rw [Server.step] at hs
    split at hs
    · rename_i hl
      obtain rfl := Except.ok.inj hs
      refine h.of_jobs { h.toJobs with routine := fun _ => hl.1.2 } rfl rfl rfl rfl (fun k => ?_) fun _ _ _ ht => ht
      rw [hl.2]
      exact ⟨nofun, nofun⟩
    · cases hs
  | onConnection =>
    rw [Server.step] at hs
    split at hs
    · rename_i k hr
      obtain rfl := Except.ok.inj hs
      exact h.onConnection hr
    · cases hs
    · cases hs
  | again wake =>
    rw [Server.step] at hs
    split at hs
    · rename_i hl
      obtain ⟨listener, hl', hs⟩ := Res.of_bind hs
      obtain rfl := Except.ok.inj hs
      refine h.of_jobs (h.toJobs.again (Listening.pos h.toJobs hl) hl hl') rfl rfl rfl rfl (fun k => ?_)
        fun _ _ _ ht => ht
      rw [hl.2]
      exact ⟨nofun, nofun⟩
    · cases hs
  | newLocalEvent wake =>
    obtain ⟨workers, hw, hs⟩ := Res.of_bind hs
    obtain rfl := Except.ok.inj hs
    exact h.of_jobs (h.toJobs.newLocalEvent hw) rfl rfl rfl rfl (fun _ => .rfl) fun k c _ ht =>
      told_of_stage ht (.inl (congrFun (Service.addJob_cases hw).1 _))
  | work i =>
    obtain ⟨workers, hw, hs⟩ := Res.of_bind hs
    obtain rfl := Except.ok.inj hs
    exact h.of_jobs (h.toJobs.work hw) rfl rfl rfl rfl (fun _ => .rfl) fun k c _ ht =>
      told_of_stage ht (Service.stage_work h.workers hw _)
  | read client n =>
    obtain ⟨c, hc, hs⟩ := Res.of_bind hs
    split at hs
    · rename_i hn
      obtain rfl := Except.ok.inj hs
      exact h.read hc hn.1 hn.2.1 hn.2.2
    · cases hs
  | write client =>
    obtain ⟨c, hc, hs⟩ := Res.of_bind hs
    obtain rfl := Except.ok.inj hs
    exact h.withOutput hc true
  | flush client =>
    obtain ⟨c, hc, hs⟩ := Res.of_bind hs
    split at hs
    · obtain rfl := Except.ok.inj hs
      exact h.withOutput hc false
    · cases hs
  | onError client what =>
    obtain ⟨c, hc, hs⟩ := Res.of_bind hs
    split at hs
    · rename_i he
      obtain rfl := Except.ok.inj hs
      exact h.onError hc he
    · cases hs
  | leave client =>
    obtain ⟨c, hc, hs⟩ := Res.of_bind hs
    split at hs
    · cases hs
    · rename_i hp
      obtain rfl := Except.ok.inj hs
      exact h.leave hc (Bool.eq_false_iff.2 hp)
  | expire event =>
    rw [Server.step] at hs
    split at hs
    · rename_i ho
      obtain rfl := Except.ok.inj hs
      exact h.expire ho
    · cases hs
  | spurious i =>
    obtain ⟨workers, hw, hs⟩ := Res.of_bind hs
    obtain rfl := Except.ok.inj hs
    exact h.of_jobs (h.toJobs.spurious hw) rfl rfl rfl rfl (fun _ => .rfl) fun k c _ ht =>
      told_of_stage ht (.inl (congrFun (Service.spurious_cases hw).1 _))
  | listenerSpurious =>
    obtain ⟨listener, hl, hs⟩ := Res.of_bind hs
    obtain rfl := Except.ok.inj hs
    exact h.of_jobs (h.toJobs.listenerSpurious hl) rfl rfl rfl rfl (fun _ => .rfl) fun _ _ _ ht => ht

theorem Inv.of_reach {listener : Pool 1} {workers : Pool 8} (hl : Service.Ready listener) (hw : Service.Ready workers)
    (h : Reach (Ok Server.step) (Server.new listener workers) s) : s.Inv :=
  h.invariant (Inv.new hl hw) fun _ _ _ hi hs => hi.step hs

/-! ### The results -/

structure Sound (s : Server) : Prop where
  /-- Each connection that was accepted and not dropped is announced, in the order of arrival, and the last one may
  still be. -/
  announced : s.calls.filterMap Call.connection? = s.toAnnounce (s.accepted - s.routine.isCalling.toNat)
  told : ∀ k c, s.conns[k]? = some c → Told s.calls (s.workers.stage (clientJob k)) k c
  /-- Only a connection that is accepted and not dropped is served. -/
  served : ∀ k, s.workers.stage (clientJob k) ≠ .queued → k < s.accepted ∧ k ∉ s.dropped
  /-- The jobs of clients and local events that are served. -/
  capacity : ∀ ids : List Nat, ids.Nodup → (∀ id ∈ ids, s.workers.stage id = .started) → ids.length ≤ 8
  /-- The listener has one job that is not over. -/
  listening : 1 ≤ s.listens → ∀ id < s.listens, s.listener.stage id ≠ .finished ↔ id + 1 = s.listens

theorem Inv.sound (h : s.Inv) : s.Sound where
  announced := h.announced
  told := h.told
  served k hk := by
    constructor
    · by_contra hge
      exact hk (h.queued (.inl (Nat.le_of_not_lt hge)))
    · intro hd
      exact hk (h.queued (.inr hd))
  capacity _ hnodup hopen := h.workers.length_le hnodup hopen
  listening _ id hid := by
    rw [Ne, h.last id hid]
    omega

theorem clients_sound {listener : Pool 1} {workers : Pool 8} (hl : Service.Ready listener)
    (hw : Service.Ready workers) (h : Reach (Ok Server.step) (new listener workers) s) : s.Sound :=
  (Inv.of_reach hl hw h).sound

/-- The first connection has descriptor 0. The second one is heard before it is announced; a write to it fails, and it
goes on until its end. -/
theorem clients_sound_early : ∃ s : Server,
    Reach (Ok Server.step) (new (Service.constructing 1 1) (Service.constructing 8 8)) s ∧
      s.calls = [.onMessage 1 [1, 2], .onConnection 1, .onDisconnect 1 .writing, .onMessage 1 [3], .onDisconnect 1 .eof] ∧
      s.Sound := by
  have hg : Goes Server.step (fun _ _ => True) (fun s : Server => s.calls =
        [.onMessage 1 [1, 2], .onConnection 1, .onDisconnect 1 .writing, .onMessage 1 [3], .onDisconnect 1 .eof])
      (new (Service.constructing 1 1) (Service.constructing 8 8))
      [.start none, .listen, .listen, .connect, .connect, .send 1 [1, 2, 3], .acceptZero, .again none, .listen, .listen,
        .listen, .accept none, .work 5, .work 5, .read 1 2, .onConnection, .write 1, .onError 1 .writing, .close 1,
        .again none, .read 1 1, .onError 1 .eof, .leave 1, .work 5] := by
    decide
  obtain ⟨s, hr, hcalls⟩ := hg.reach_ok
  exact ⟨s, hr, hcalls, clients_sound (Service.ready_constructing 1) (Service.ready_constructing 8) hr⟩

end Server

end ChCppUtils.Tcp
