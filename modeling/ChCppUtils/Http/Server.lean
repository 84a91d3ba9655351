import ChCppUtils.Basic
import ChCppUtils.Lib.Runs
import ChCppUtils.Lib.UnorderedMap

/-!
# The listening sockets of the servers (http-server.cpp, http-thread.cpp)

The servers of a process and libevent's bound sockets. A bound socket is an object on a descriptor;
several can be on the same one, and deleting one of them closes it. The constructor of a server starts
its threads one after the other, each when the one before it is through its `init`. What is read from
a bound socket that is deleted already is up to the environment.
-/

namespace ChCppUtils.Http.Server

/-- `evhttp_bound_socket` -/
structure EvhttpBoundSocket where
  fd : Nat
  freed : Bool
deriving DecidableEq, Repr

/-- `class HttpThread`; `evBoundSocket` is the number of the object. -/
structure HttpThread where
  mPort : UInt16
  evBoundSocket : Nat
deriving DecidableEq, Repr

structure HttpServer where
  mPort : UInt16
  mThreads : List HttpThread
deriving DecidableEq, Repr

/-- The process: `HttpThread::evListenSocket`, the bound sockets made so far, the port each open
listening descriptor is bound to, and the servers there are. -/
structure Process where
  evListenSocket : Option Nat
  boundSockets : List EvhttpBoundSocket
  sockets : UnorderedMap Nat UInt16
  servers : List HttpServer
deriving DecidableEq

/-- What the kernel and the heap return for one `init`: a descriptor that is not open, and what stands
in the place of a deleted bound socket. -/
structure Answer where
  fd : Nat
  stale : Nat
deriving DecidableEq, Repr

namespace Process

def new : Process := ⟨none, [], ∅, []⟩

/-- `evhttp_accept_socket_with_handle(evHttp, fd)` -/
def acceptSocketWithHandle (s : Process) (fd : Nat) : Process × Nat :=
  ({ s with boundSockets := s.boundSockets ++ [⟨fd, false⟩] }, s.boundSockets.length)

/-- `evhttp_bind_socket_with_handle(evHttp, "0.0.0.0", port)`, which succeeds. -/
def bindSocketWithHandle (s : Process) (port : UInt16) (fd : Nat) : Res (Process × Nat) :=
  if fd ∈ s.sockets then throw .badAnswer
  else pure ({ s with sockets := AList.insert fd port s.sockets }.acceptSocketWithHandle fd)

/-- `evhttp_bound_socket_get_fd(bound)` -/
def boundSocketGetFd (s : Process) (bound stale : Nat) : Nat :=
  match s.boundSockets[bound]? with
  | some b => if b.freed = true then stale else b.fd
  | none => stale

/-- `evhttp_del_accept_socket(evHttp, bound)`: the listener closes its descriptor. -/
def delAcceptSocket (s : Process) (bound : Nat) : Process :=
  match s.boundSockets[bound]? with
  | some b => { s with
      boundSockets := s.boundSockets.set bound { b with freed := true }
      sockets := AList.erase b.fd s.sockets }
  | none => s

/-- `HttpThread::init()` -/
def init (s : Process) (mPort : UInt16) (ans : Answer) : Res (Process × HttpThread) :=
  match s.evListenSocket with
  | none => do
    let (s, bound) ← s.bindSocketWithHandle mPort ans.fd
    return ({ s with evListenSocket := some bound }, ⟨mPort, bound⟩)
  | some evListenSocket =>
    let fd := s.boundSocketGetFd evListenSocket ans.stale
    let (s, bound) := s.acceptSocketWithHandle fd
    pure (s, ⟨mPort, bound⟩)

/-- `HttpThread::deinit()` -/
def deinit (s : Process) (thread : HttpThread) : Process := s.delAcceptSocket thread.evBoundSocket

/-- `HttpServer::createThreads()`, with an answer for each of the `uiCount` threads. -/
def createThreads (s : Process) (mPort : UInt16) : List Answer → Res (Process × List HttpThread)
  | [] => pure (s, [])
  | ans :: answers => do
    let (s, thread) ← s.init mPort ans
    let (s, mThreads) ← s.createThreads mPort answers
    return (s, thread :: mThreads)

inductive Action where
  /-- `HttpServer(port, uiCount)`, with as many answers as threads. -/
  | construct (port : UInt16) (answers : List Answer)
  /-- `~HttpServer` of the server at this place among those there are. -/
  | destroy (k : Nat)
deriving DecidableEq, Repr

def step (s : Process) : Action → Res Process
  | .construct port answers => do
    let (s, mThreads) ← s.createThreads port answers
    return { s with servers := s.servers ++ [⟨port, mThreads⟩] }
  | .destroy k =>
    match s.servers[k]? with
    | none => throw .badAnswer
    | some server => pure (server.mThreads.foldl deinit { s with servers := s.servers.eraseIdx k })

end Process

end ChCppUtils.Http.Server
