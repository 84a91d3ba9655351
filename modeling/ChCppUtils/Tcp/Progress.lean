import ChCppUtils.Lib.Progress
import ChCppUtils.Tcp.Clients

/-!
# Nobody waits for nothing

If the peers, the timers, the callbacks and the callers do nothing more, and what was written stays, the threads of the
server come to rest. Then each connection is accepted, and each that `accept` has not given descriptor 0 is announced.
Each of these has been told all that its peer has sent, and the end of the stream if it has one, or that the stream
broke. It has a worker then, or waits because all eight are in the dispatch of other clients or of local events.
-/

namespace ChCppUtils.Tcp

open ThreadPool Runs

/-- A step of a thread of the server, for which nobody outside has to do anything. -/
def Action.Own : Action → Prop
  | .listen | .accept _ | .acceptZero | .onConnection | .again _ | .work _ | .read _ _ | .onError _ .eof | .leave _ => True
  | .connect | .send _ _ | .close _ | .start _ | .acceptFails | .newLocalEvent _ | .write _ | .flush _ | .onError _ .error
  | .onError _ .writing | .expire _ | .spurious _ | .listenerSpurious => False

/-- The steps of the listener after an accepted connection. -/
def Routine.ahead : Routine → Nat
  | .armed => 0
  | .again => 5
  | .calling _ => 6

def Conn.ahead (c : Conn) : Nat := c.unread.length + c.reading.toNat

/-- A dispatch that may still return. -/
def dispatchAhead : Stage → Nat
  | .queued | .started => 1
  | .finished => 0

namespace Server

variable {s s' : Server} {client : Nat} {c : Conn}

def clientAhead (s : Server) (client : Nat) : Nat :=
  (s.conns[client]?.elim 0 Conn.ahead) + dispatchAhead (s.workers.stage (clientJob client))

def clientsAhead (s : Server) : Nat := ∑ client ∈ Finset.range s.conns.length, s.clientAhead client

def ahead (s : Server) : Nat :=
  11 * (s.conns.length - s.accepted) + s.routine.ahead + s.listener.pool.ahead + s.workers.pool.ahead + s.clientsAhead

/-- Something is told of one client, or its dispatch returns. -/
theorem ahead_lt {t : Server} (hc : s.conns[client]? = some c) (hlt : t.clientAhead client < s.clientAhead client)
    (hother : ∀ k, k ≠ client → t.clientAhead k = s.clientAhead k) (hlen : t.conns.length = s.conns.length)
    (haccepted : t.accepted = s.accepted) (hroutine : t.routine = s.routine)
    (hlistener : t.listener.pool = s.listener.pool) (hworkers : t.workers.pool = s.workers.pool) : t.ahead < s.ahead := by
  have hsum : t.clientsAhead < s.clientsAhead := by
    rw [clientsAhead, clientsAhead, hlen]
    refine Finset.sum_lt_sum (fun k _ => ?_) ⟨client, ?_, hlt⟩
    · by_cases hk : k = client
      · rw [hk]
        exact Nat.le_of_lt hlt
      · exact Nat.le_of_eq (hother k hk)
    · exact Finset.mem_range.2 (List.getElem?_eq_some_iff.1 hc).1
  rw [ahead, ahead, hlen, haccepted, hroutine, hlistener, hworkers]
  omega

theorem ahead_setConn {c' : Conn} (hc : s.conns[client]? = some c) (hlt : c'.ahead < c.ahead) (call : Call) :
    ((s.setConn client c').call call).ahead < s.ahead := by
  refine ahead_lt hc ?_ (fun k hk => ?_) ?_ rfl rfl rfl rfl
  · show ((s.conns.set client c')[client]?).elim 0 Conn.ahead + _ < s.clientAhead client
    rw [List.getElem?_set_self (List.getElem?_eq_some_iff.1 hc).1, clientAhead, hc]
    exact Nat.add_lt_add_right hlt _
  · show ((s.conns.set client c')[k]?).elim 0 Conn.ahead + _ = s.clientAhead k
    rw [List.getElem?_set_ne (Ne.symm hk)]
    rfl
  · exact List.length_set ..

theorem ahead_leave (hc : s.conn? client = .ok c) :
    ({ s with workers := s.workers.finish (clientJob client) } : Server).ahead < s.ahead := by
  obtain ⟨hconn, ho⟩ := conn?_cases hc
  refine ahead_lt hconn ?_ (fun k hk => ?_) rfl rfl rfl rfl rfl
  · show _ + dispatchAhead ((s.workers.finish (clientJob client)).stage (clientJob client)) < s.clientAhead client
    rw [Service.stage_finish, if_pos rfl, clientAhead, ho]
    exact Nat.lt_succ_self _
  · show _ + dispatchAhead ((s.workers.finish (clientJob client)).stage (clientJob k)) = s.clientAhead k
    rw [Service.stage_finish, if_neg fun he => hk (clientJob_inj he)]
    rfl

/-- A job that begins may still end. -/
theorem clientsAhead_work {workers : Service 8} (h : ∀ id, workers.stage id = s.workers.stage id ∨
    s.workers.stage id = .queued ∧ workers.stage id = .started) :
    ({ s with workers := workers } : Server).clientsAhead = s.clientsAhead := by
  refine Finset.sum_congr rfl fun k _ => congrArg (_ + ·) ?_
  show dispatchAhead (workers.stage (clientJob k)) = _
  rcases h (clientJob k) with heq | ⟨hq, ho⟩
  · rw [heq]
  · rw [hq, ho]
    rfl

theorem Inv.ahead_step {a : Action} (h : s.Inv) (ha : a.Own) (hs : s.step a = .ok s') : s'.ahead < s.ahead := by
  cases a with
  | connect | send | close | start | acceptFails | newLocalEvent | write | flush | expire | spurious
  | listenerSpurious => exact ha.elim
  | listen =>
    obtain ⟨listener, hl, hs⟩ := Res.of_bind hs
    obtain rfl := Except.ok.inj hs
    have hlt := Service.ahead_work h.listener hl
    show 11 * (s.conns.length - s.accepted) + s.routine.ahead + listener.pool.ahead + s.workers.pool.ahead +
      s.clientsAhead < s.ahead
    rw [ahead]
    omega
  | work i =>
    obtain ⟨workers, hw, hs⟩ := Res.of_bind hs
    obtain rfl := Except.ok.inj hs
    have hlt := Service.ahead_work h.workers hw
    have hclients := clientsAhead_work (Service.stage_work h.workers hw)
    rw [ahead, ahead, hclients]
    show 11 * (s.conns.length - s.accepted) + s.routine.ahead + s.listener.pool.ahead + workers.pool.ahead + _ < _
    omega
  | accept wake =>
    rw [Server.step] at hs
    split at hs
    · rename_i hc
      obtain ⟨workers, hw, hs⟩ := Res.of_bind hs
      obtain rfl := Except.ok.inj hs
      obtain ⟨hstage, -, -, hle⟩ := Service.addJob_cases hw
      have hlt := hc.2
      have hclients : ({ s with workers := workers } : Server).clientsAhead = s.clientsAhead :=
        clientsAhead_work fun id => .inl (congrFun hstage id)
      show 11 * (s.conns.length - (s.accepted + 1)) + 6 + s.listener.pool.ahead + workers.pool.ahead +
        ({ s with workers := workers } : Server).clientsAhead < s.ahead
      rw [hclients, ahead, hc.1.2, Routine.ahead]
      omega
    · cases hs
  | acceptZero =>
    rw [Server.step] at hs
    split at hs
    · rename_i hc
      obtain rfl := Except.ok.inj hs
      have hlt := hc.2
      show 11 * (s.conns.length - (s.accepted + 1)) + 5 + s.listener.pool.ahead + s.workers.pool.ahead +
        s.clientsAhead < s.ahead
      rw [ahead, hc.1.2, Routine.ahead]
      omega
    · cases hs
  | onConnection =>
    rw [Server.step] at hs
    split at hs
    · rename_i k hr
      obtain rfl := Except.ok.inj hs
      show 11 * (s.conns.length - s.accepted) + 5 + s.listener.pool.ahead + s.workers.pool.ahead +
        s.clientsAhead < s.ahead
      rw [ahead, hr, Routine.ahead]
      omega
    · cases hs
    · cases hs
  | again wake =>
    rw [Server.step] at hs
    split at hs
    · rename_i hl
      obtain ⟨listener, hl', hs⟩ := Res.of_bind hs
      obtain rfl := Except.ok.inj hs
      obtain ⟨-, -, -, hle⟩ := Service.addJob_cases hl'
      show 11 * (s.conns.length - s.accepted) + 0 + listener.pool.ahead + s.workers.pool.ahead +
        s.clientsAhead < s.ahead
      rw [ahead, hl.2, Routine.ahead]
      omega
    · cases hs
  | read client n =>
    obtain ⟨c, hc, hs⟩ := Res.of_bind hs
    split at hs
    · rename_i hn
      obtain rfl := Except.ok.inj hs
      have hlt : Conn.ahead { c with unread := c.unread.drop n } < c.ahead := by
        simp only [Conn.ahead, List.length_drop]
        omega
      exact ahead_setConn (conn?_cases hc).1 hlt _
    · cases hs
  | onError client what =>
    cases what with
    | error | writing => exact ha.elim
    | eof =>
      obtain ⟨c, hc, hs⟩ := Res.of_bind hs
      split at hs
      · rename_i he
        obtain rfl := Except.ok.inj hs
        have hr : c.reading = true := by
          simp only [Conn.ends, Bool.and_eq_true] at he
          exact he.1.1
        have hlt : Conn.ahead { c.disable .eof with disconnected := true } < c.ahead := by
          rw [Conn.ahead, Conn.ahead, hr]
          exact Nat.lt_succ_self _
        exact ahead_setConn (conn?_cases hc).1 hlt _
      · cases hs
  | leave client =>
    obtain ⟨c, hc, hs⟩ := Res.of_bind hs
    split at hs
    · cases hs
    · obtain rfl := Except.ok.inj hs
      exact ahead_leave hc

/-! ### Where the threads of the server are at rest -/

/-- At rest the listener waits for a connection. -/
theorem Inv.listening (h : s.Inv) (h1 : 1 ≤ s.listens) (hrest : s.listener.Rests) :
    s.listener.Serving listenerThread (s.listens - 1) := by
  have hlt : s.listens - 1 < s.listens := by omega
  have hnot : s.listener.stage (s.listens - 1) ≠ .finished := by
    rw [Ne, h.last _ hlt]
    omega
  have hopen : s.listener.stage (s.listens - 1) = .started := by
    cases hs : s.listener.stage (s.listens - 1) with
    | started => rfl
    | finished => exact absurd hs hnot
    | queued =>
      -- its only worker would be in the dispatch of another job, which is not over either
      have hacc : ⟨s.listens - 1, false⟩ ∈ s.listener.pool.log.accepted := by
        rw [h.listens]
        exact List.mem_map.2 ⟨_, List.mem_range.2 hlt, rfl⟩
      have hq := h.listener.mem_queue hrest hacc hs
      obtain ⟨id, hrun, ho⟩ := hrest.busy (List.ne_nil_of_mem hq) 0
      have hmem := h.listener.mem_accepted hrun
      rw [h.listens] at hmem
      obtain ⟨id', hid, heq⟩ := List.mem_map.1 hmem
      obtain rfl : id' = id := congrArg Job.id heq
      have hlast := (h.last id' (List.mem_range.1 hid)).not.1 (by rw [ho]; exact nofun)
      have hid := List.mem_range.1 hid
      rw [show s.listens - 1 = id' by omega, ho] at hs
      cases hs
  obtain ⟨i, hi⟩ := h.listener.run _ hopen
  obtain rfl : i = listenerThread := Subsingleton.elim i listenerThread
  exact ⟨hi, hopen⟩

/-- At rest the listener has nothing left to do with a connection. -/
theorem Inv.armed (h : s.Inv) (hl : s.listener.Serving listenerThread (s.listens - 1))
    (hstuck : ∀ a s', Action.Own a → s.step a ≠ .ok s') : s.routine = .armed ∧ s.accepted = s.conns.length := by
  have harmed : s.routine = .armed := by
    cases hr : s.routine with
    | armed => rfl
    | calling k =>
      refine absurd ?_ (hstuck .onConnection ({ s with routine := .again }.call (.onConnection k)) trivial)
      rw [Server.step, hr]
      rfl
    | again =>
      have hnew : ∀ job ∈ s.listener.pool.log.accepted, job.id ≠ s.listens := by
        rw [h.listens]
        intro job hjob
        obtain ⟨id, hid, rfl⟩ := List.mem_map.1 hjob
        exact Nat.ne_of_lt (List.mem_range.1 hid)
      obtain ⟨wake, listener, hw⟩ := h.listener.exists_addJob hnew
      have hstep : ∃ s', s.step (.again wake) = .ok s' :=
        ⟨_, by rw [Server.step, if_pos ⟨hl, hr⟩, Server.again, hw]; rfl⟩
      obtain ⟨s', hs⟩ := hstep
      exact absurd hs (hstuck (.again wake) s' trivial)
  refine ⟨harmed, ?_⟩
  by_contra hne
  have hlt : s.accepted < s.conns.length := Nat.lt_of_le_of_ne h.le hne
  have hnew : ∀ job ∈ s.workers.pool.log.accepted, job.id ≠ clientJob s.accepted := by
    intro job hjob heq
    rcases h.jobs job hjob with ⟨k, hk, -, hid⟩ | ⟨t, -, hid⟩
    · have := clientJob_inj (hid.symm.trans heq)
      omega
    · exact clientJob_ne _ _ (heq.symm.trans hid)
  obtain ⟨wake, workers, hw⟩ := h.workers.exists_addJob hnew
  have hstep : ∃ s', s.step (.accept wake) = .ok s' :=
    ⟨_, by rw [Server.step, if_pos ⟨⟨hl, harmed⟩, hlt⟩, Server.accept, hw]; rfl⟩
  obtain ⟨s', hs⟩ := hstep
  exact hstuck (.accept wake) s' trivial hs

end Server

end ChCppUtils.Tcp
