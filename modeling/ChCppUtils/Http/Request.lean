import ChCppUtils.Http.Client

/-!
# `HttpRequest` (http-request.cpp)

The requests of a process and the clients they share, one for each host and port. A step is a call of
a request, or a call of libevent: the completion callback of a request that was sent, with a response
or with null, or the close callback of a connection.
-/

namespace ChCppUtils.Http.Client

/-- A pointer to an `HttpConnection`: the key of its client in `gClients`, and its number there. -/
structure ConnectionPtr where
  client : Str
  connection : Nat
deriving DecidableEq, Repr

/-- `RequestContext`, with the numbers of the objects it points to. -/
structure RequestContext where
  connection : Option ConnectionPtr
  request : Option Nat
deriving DecidableEq, Repr

inductive Stage where
  | created | sent | done
deriving DecidableEq, Repr

/-- An `evhttp_request`: `arg` is the `HttpRequest` its callback is called with, `evcon` the connection it was
made on, which is set when it is sent. -/
structure EvhttpRequest where
  arg : Nat
  stage : Stage
  evcon : Option ConnectionPtr
deriving DecidableEq, Repr

/-- What libevent has read when it calls back with a request that is not null. -/
structure EvhttpReply where
  response_code : Nat
  response_code_line : Option Str
  input_headers : List (Str × Str)
deriving DecidableEq, Repr

/-- `class HttpResponse`; `request` is the number of the `HttpRequest`. -/
structure HttpResponse where
  request : Nat
  responseCode : Nat
  responseText : Str
  headers : UnorderedMap Str Str
deriving DecidableEq

namespace HttpResponse

def new (request : Nat) : HttpResponse := ⟨request, 0, [], ∅⟩

/-- The names are put in lower case, and the first header of a name is kept. -/
def buildHeaderMap (this : HttpResponse) (req : EvhttpReply) : HttpResponse :=
  { this with
    headers := req.input_headers.foldl (fun m (name, value) => m.emplace (name.map Char.toLower) value)
      this.headers }

end HttpResponse

/-- The part of a parsed URL that `open` reads: host and port, `-1` where it names none. -/
structure EvhttpUri where
  host : Str
  port : Int
deriving DecidableEq, Repr

/-- The `HttpRequest`s, each with its context, on the clients of the process. `returned` has the connections that
completed requests were made on, each until an `open` takes its id: the code keeps no such set, `step` does. -/
structure Session where
  gClients : UnorderedMap Str HttpClientImpl
  requests : List RequestContext
  evRequests : List EvhttpRequest
  returned : Finset ConnectionPtr

namespace Session

def new : Session := ⟨∅, [], [], ∅⟩

def clientKey (hostname : Str) (port : UInt16) : Str := hostname ++ [':'] ++ (toString port.toNat).toList

/-- `HttpClientImpl::NewInstance(hostname, port)` -/
def newInstance (s : Session) (hostname : Str) (port : UInt16) : Session × HttpClientImpl :=
  match s.gClients.lookup (clientKey hostname port) with
  | none =>
    let client := HttpClientImpl.new hostname port
    ({ s with gClients := s.gClients.emplace (clientKey hostname port) client }, client)
  | some client => (s, client)

def setClient (s : Session) (key : Str) (client : HttpClientImpl) : Session :=
  { s with gClients := AList.insert key client s.gClients }

/-- `open(method, url)`, on the `HttpRequest` number `r`. -/
def «open» (s : Session) (r : Nat) (uri : EvhttpUri) (first : Str) (ev : Nat) : Res Session :=
  if r < s.requests.length then do
    let port := UInt16.ofInt uri.port
    let (s, client) := s.newInstance uri.host port
    let (client, connection) ← client.open first ev
    let key := clientKey uri.host port
    let s := s.setClient key client
    return { s with
      requests := s.requests.set r ⟨some ⟨key, connection⟩, some s.evRequests.length⟩
      evRequests := s.evRequests ++ [⟨r, .created, none⟩] }
  else throw .badAnswer

/-- `send()`: a context without connection or request, or a connection without libevent context, is
followed all the same. A request is sent once. -/
def send (s : Session) (r : Nat) : Res Session :=
  match s.requests[r]? with
  | none => throw .badAnswer
  | some context =>
    match context.request, context.connection with
    | some e, some p =>
      match s.gClients.lookup p.client with
      | none => throw .nullDeref
      | some client =>
        if (client.heap p.connection).connection = none then throw .nullDeref
        else if s.evRequests[e]? = some ⟨r, .created, none⟩ then
          pure { s with evRequests := s.evRequests.set e ⟨r, .sent, some p⟩ }
        else throw .badAnswer
    | _, _ => throw .nullDeref

/-- `connection->release()` -/
def release (s : Session) (p : ConnectionPtr) : Res Session :=
  match s.gClients.lookup p.client with
  | none => throw .nullDeref
  | some client => pure (s.setClient p.client (client.close p.connection))

/-- `evHttpReqDone(req)` of the `HttpRequest` number `r`, with the response its `onload` is fired with. -/
def evHttpReqDone (s : Session) (r : Nat) (context : RequestContext) (req : Option EvhttpReply) :
    Res (Session × HttpResponse) :=
  match req with
  | none => pure (s, { HttpResponse.new r with responseCode := 0, responseText := [] })
  | some req =>
    match context.connection with
    | none => throw .nullDeref
    | some p => do
      let s ← s.release p
      return (s, { (HttpResponse.new r).buildHeaderMap req with
        responseCode := req.response_code
        responseText := req.response_code_line.getD [] })

inductive Action where
  /-- A new `HttpRequest`. -/
  | make
  | «open» (r : Nat) (uri : EvhttpUri) (first : Str) (ev : Nat)
  | send (r : Nat)
  /-- libevent calls the callback of an `evhttp_request`. -/
  | done (e : Nat) (req : Option EvhttpReply)
  /-- libevent calls the close callback of a connection. -/
  | closed (p : ConnectionPtr)

/-- The callback of the `evhttp_request` number `e` is called, once it has been sent. -/
def complete (s : Session) (e : Nat) (req : Option EvhttpReply) : Res (Session × HttpResponse) :=
  match s.evRequests[e]? with
  | some ⟨r, .sent, evcon⟩ =>
    match s.requests[r]? with
    | none => throw .badAnswer
    | some context => { s with evRequests := s.evRequests.set e ⟨r, .done, evcon⟩ }.evHttpReqDone r context req
  | _ => throw .badAnswer

/-- Only a connection with a context can be closed by the peer. -/
def evConnectionClosed (s : Session) (p : ConnectionPtr) : Res Session :=
  match s.gClients.lookup p.client with
  | none => throw .badAnswer
  | some client =>
    if p.connection < client.fresh ∧ (client.heap p.connection).connection ≠ none then
      pure (s.setClient p.client (client.evConnectionClosed p.connection))
    else throw .badAnswer

def act (s : Session) : Action → Res Session
  | .make => pure { s with requests := s.requests ++ [⟨none, none⟩] }
  | .open r uri first ev => s.open r uri first ev
  | .send r => s.send r
  | .done e req => (s.complete e req).map Prod.fst
  | .closed p => s.evConnectionClosed p

/-- The connections are of one client and have the same id. -/
def SameId (s : Session) (p q : ConnectionPtr) : Prop :=
  p.client = q.client ∧ ∃ client ∈ s.gClients.lookup q.client,
    client.getConnectionId p.connection = client.getConnectionId q.connection

instance (s : Session) (p q : ConnectionPtr) : Decidable (s.SameId p q) :=
  inferInstanceAs (Decidable (_ ∧ ∃ client ∈ s.gClients.lookup q.client, _))

/-- The connections of `returned` once the action has led from `s` to `s'`. -/
def returnedBy (s s' : Session) : Action → Finset ConnectionPtr
  | .open r _ _ _ => s.returned.filter fun p =>
      ¬ ∃ context ∈ s'.requests[r]?, ∃ q ∈ context.connection, s'.SameId p q
  | .done e _ => s.returned ∪ ((s.evRequests[e]?.bind (·.evcon)).elim ∅ fun p => {p})
  | .make | .send _ | .closed _ => s.returned

def step (s : Session) (a : Action) : Res Session := do
  let s' ← s.act a
  return { s' with returned := s.returnedBy s' a }

end Session

end ChCppUtils.Http.Client
