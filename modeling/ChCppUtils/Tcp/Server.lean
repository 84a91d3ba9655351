import ChCppUtils.ThreadPool.Serving

/-!
# `TcpListener` and `TcpServer` (tcp-listener.cpp, tcp-server.cpp)

The listener has a pool of one worker. Its job waits for the socket to become readable, accepts one connection,
and adds the job again; the event was for one time, so the dispatch returns then. The server has a pool of eight:
a job for each client, whose dispatch goes on while its bufferevent reads or has something to write, and a job for
each local event, until its timer has expired. All of them, the peers and the callers go on at the same time: an
action is a step of one of them. The three callbacks are set before `start`, return, and do nothing to a connection
but write to it, while it is dispatched.
-/

namespace ChCppUtils.Tcp

open ThreadPool

/-- A connection: what its peer has done, what of that is not read yet, and the bufferevent. -/
structure Conn where
  sent : List UInt8
  unread : List UInt8
  closed : Bool
  /-- `EV_READ` is enabled. -/
  reading : Bool
  /-- `EV_WRITE` is enabled. -/
  writing : Bool
  /-- What the callbacks have written is not all gone out. -/
  output : Bool
  /-- `client_ctxt::disconnected` -/
  disconnected : Bool
deriving DecidableEq, Repr

/-- The `what` of `_onError`: `BEV_EVENT_READING` with `BEV_EVENT_EOF` or with `BEV_EVENT_ERROR`, and
`BEV_EVENT_WRITING`. -/
inductive What where
  | eof
  | error
  | writing
deriving DecidableEq, Repr

namespace Conn

/-- Nothing is sent, and the bufferevent will have both its events. -/
def new : Conn := ⟨[], [], false, true, true, false, false⟩

/-- The bufferevent has an event in the event base. -/
def pending (c : Conn) : Bool := c.reading || c.output && c.writing

/-- What can be told of the connection now: an event of its own, and for the end of the stream that all is read. -/
def ends (c : Conn) : What → Bool
  | .eof => c.reading && c.closed && c.unread.isEmpty
  | .error => c.reading
  | .writing => c.writing && c.output

/-- The bufferevent disables the event that failed, before it calls `_onError`. -/
def disable (c : Conn) : What → Conn
  | .eof | .error => { c with reading := false }
  | .writing => { c with writing := false }

end Conn

inductive Call where
  | onConnection (client : Nat)
  | onMessage (client : Nat) (message : List UInt8)
  | onDisconnect (client : Nat) (what : What)
  | onLocalEvent (event : Nat)
deriving DecidableEq, Repr

/-- Where the listener is in `evNewConnection`. -/
inductive Routine where
  /-- Not called yet. -/
  | armed
  /-- The connection is accepted, and its job is added: before `mOnConnection`. -/
  | calling (client : Nat)
  /-- Before its own job is added again. -/
  | again
deriving DecidableEq, Repr

structure Server where
  /-- In the order in which they arrived; clients are numbered by it. -/
  conns : List Conn
  accepted : Nat
  /-- The ones that `accept` has given descriptor 0. -/
  dropped : List Nat
  localEvents : Nat
  /-- The jobs of the listener so far. -/
  listens : Nat
  routine : Routine
  listener : Service 1
  workers : Service 8
  calls : List Call

inductive Action where
  /-- What peers do. -/
  | connect
  | send (client : Nat) (bytes : List UInt8)
  | close (client : Nat)
  /-- `TcpListener::start` adds the first job. -/
  | start (wake : Option (Fin 1))
  /-- The next step of the listener's worker, outside of `evNewConnection`. -/
  | listen
  /-- `accept` and `handleConnection`, up to `mOnConnection`. -/
  | accept (wake : Option (Fin 8))
  /-- `accept` gives a connection with descriptor 0, which is taken for none. -/
  | acceptZero
  /-- `accept` gives no connection. -/
  | acceptFails
  | onConnection
  | again (wake : Option (Fin 1))
  | newLocalEvent (wake : Option (Fin 8))
  /-- The next step of a worker of the server, outside of the dispatch. -/
  | work (i : Fin 8)
  /-- Some bytes are in the buffer of a client: `readMessage`. -/
  | read (client n : Nat)
  /-- A callback writes to a client. -/
  | write (client : Nat)
  /-- All that was written to a client has gone out. -/
  | flush (client : Nat)
  /-- The stream of a client has ended, or broke. -/
  | onError (client : Nat) (what : What)
  /-- `event_base_dispatch` returns for a client: it has no event left. -/
  | leave (client : Nat)
  /-- `onTimerExpiry` -/
  | expire (event : Nat)
  | spurious (i : Fin 8)
  | listenerSpurious
deriving DecidableEq, Repr

def clientJob (client : Nat) : Nat := 2 * client

def eventJob (event : Nat) : Nat := 2 * event + 1

namespace Server

/-- Before `start`; both pools are constructed. -/
def new (listener : Pool 1) (workers : Pool 8) : Server := ⟨[], 0, [], 0, 0, .armed, .new listener, .new workers, []⟩

def call (s : Server) (c : Call) : Server := { s with calls := s.calls ++ [c] }

/-- The only thread of the listener's pool. -/
abbrev listenerThread : Fin 1 := ⟨0, Nat.one_pos⟩

/-- The listener's worker is in the dispatch, and `evNewConnection` is there. -/
def Listening (s : Server) (routine : Routine) : Prop :=
  s.listener.Serving listenerThread (s.listens - 1) ∧ s.routine = routine

instance (s : Server) (routine : Routine) : Decidable (s.Listening routine) := inferInstanceAs (Decidable (_ ∧ _))

/-- The worker of a client is in the dispatch. -/
def conn? (s : Server) (client : Nat) : Res Conn :=
  match s.conns[client]? with
  | some c => if s.workers.stage (clientJob client) = .started then pure c else throw .badAnswer
  | none => throw .badAnswer

def setConn (s : Server) (client : Nat) (c : Conn) : Server := { s with conns := s.conns.set client c }

/-- Any connection, accepted or not. -/
def peer (s : Server) (client : Nat) (f : Conn → Conn) : Res Server :=
  match s.conns[client]? with
  | some c => if c.closed then throw .badAnswer else pure (s.setConn client (f c))
  | none => throw .badAnswer

def accept (s : Server) (wake : Option (Fin 8)) : Res Server := do
  let workers ← s.workers.addJob (clientJob s.accepted) wake
  return { s with workers, accepted := s.accepted + 1, routine := .calling s.accepted }

def again (s : Server) (wake : Option (Fin 1)) : Res Server := do
  let listener ← s.listener.addJob s.listens wake
  return { s with listener := listener.finish (s.listens - 1), listens := s.listens + 1, routine := .armed }

def onError (s : Server) (client : Nat) (c : Conn) (what : What) : Server :=
  (s.setConn client { c.disable what with disconnected := true }).call (.onDisconnect client what)

def step (s : Server) : Action → Res Server
  | .connect => pure { s with conns := s.conns ++ [.new] }
  | .send client bytes => s.peer client fun c => { c with sent := c.sent ++ bytes, unread := c.unread ++ bytes }
  | .close client => s.peer client fun c => { c with closed := true }
  | .start wake =>
    if s.listens = 0 then do
      let listener ← s.listener.addJob 0 wake
      return { s with listener, listens := 1 }
    else throw .badAnswer
  | .listen => do
    let listener ← s.listener.work listenerThread
    return { s with listener }
  | .accept wake =>
    if s.Listening .armed ∧ s.accepted < s.conns.length then s.accept wake else throw .badAnswer
  | .acceptZero =>
    if s.Listening .armed ∧ s.accepted < s.conns.length then
      pure { s with accepted := s.accepted + 1, dropped := s.accepted :: s.dropped, routine := .again }
    else throw .badAnswer
  | .acceptFails => if s.Listening .armed then pure { s with routine := .again } else throw .badAnswer
  | .onConnection =>
    match s.routine with
    | .calling client => pure ({ s with routine := .again }.call (.onConnection client))
    | .armed | .again => throw .badAnswer
  | .again wake => if s.Listening .again then s.again wake else throw .badAnswer
  | .newLocalEvent wake => do
    let workers ← s.workers.addJob (eventJob s.localEvents) wake
    return { s with workers, localEvents := s.localEvents + 1 }
  | .work i => do
    let workers ← s.workers.work i
    return { s with workers }
  | .read client n => do
    let c ← s.conn? client
    if c.reading ∧ 0 < n ∧ n ≤ c.unread.length then
      return (s.setConn client { c with unread := c.unread.drop n }).call (.onMessage client (c.unread.take n))
    else throw .badAnswer
  | .write client => do
    let c ← s.conn? client
    return s.setConn client { c with output := true }
  | .flush client => do
    let c ← s.conn? client
    if c.writing then return s.setConn client { c with output := false } else throw .badAnswer
  | .onError client what => do
    let c ← s.conn? client
    if c.ends what then return s.onError client c what else throw .badAnswer
  | .leave client => do
    let c ← s.conn? client
    if c.pending then throw .badAnswer else return { s with workers := s.workers.finish (clientJob client) }
  | .expire event =>
    if s.workers.stage (eventJob event) = .started then
      pure ({ s with workers := s.workers.finish (eventJob event) }.call (.onLocalEvent event))
    else throw .badAnswer
  | .spurious i => do
    let workers ← s.workers.spurious i
    return { s with workers }
  | .listenerSpurious => do
    let listener ← s.listener.spurious listenerThread
    return { s with listener }

end Server

end ChCppUtils.Tcp
