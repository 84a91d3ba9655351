import ChCppUtils.Basic
import ChCppUtils.Lib.Runs
import ChCppUtils.Lib.UnorderedMap
import Mathlib.Data.Finset.Card

/-!
# The connections of an HTTP client (http-client.cpp, http-connection.cpp)

`HttpClientImpl` keeps its connections by id and the ids of the free ones. An id is made of host and
port only, so all connections of a client have the same one and the map keeps the first of them.
`Pool` adds what the callers hold: a ticket for each `open`, until it is released or the peer closes
the connection. Each step is one critical section of `mMutex`.
-/

namespace ChCppUtils.Http.Client

/-- `class HttpConnection`; `connection` is the libevent context. -/
structure HttpConnection where
  connection : Option Nat
  busy : Bool
  mHostname : Str
  mPort : UInt16

namespace HttpConnection

def new (hostname : Str) (port : UInt16) : HttpConnection := ⟨none, false, hostname, port⟩

/-- `ev` is the context `evhttp_connection_base_new` returns. The event loop that runs where there is
a context already cannot enter `close` or `evConnectionClosed`: the caller has the mutex. -/
def connect (this : HttpConnection) (ev : Nat) : HttpConnection :=
  if this.connection = none then { this with connection := some ev } else this

def getConnectionId (this : HttpConnection) : Str :=
  this.mHostname ++ [':'] ++ (toString this.mPort.toNat).toList ++ [':']

def setBusy (this : HttpConnection) (busy : Bool) : HttpConnection := { this with busy := busy }

def reset (this : HttpConnection) : HttpConnection := { this with connection := none }.setBusy false

variable (this : HttpConnection)

@[simp] theorem getConnectionId_connect (ev : Nat) :
    (this.connect ev).getConnectionId = this.getConnectionId := by
  unfold connect; split <;> rfl

@[simp] theorem getConnectionId_setBusy (busy : Bool) :
    (this.setBusy busy).getConnectionId = this.getConnectionId := rfl

@[simp] theorem getConnectionId_reset : this.reset.getConnectionId = this.getConnectionId := rfl

end HttpConnection

/-- `class HttpClientImpl`. A pointer is the number of the object it points to: `heap` has the
objects made so far at the numbers below `fresh`. -/
structure HttpClientImpl where
  mHostname : Str
  mPort : UInt16
  mConnections : UnorderedMap Str Nat
  mFree : Finset Str
  heap : Nat → HttpConnection
  fresh : Nat

namespace HttpClientImpl

def new (hostname : Str) (port : UInt16) : HttpClientImpl :=
  ⟨hostname, port, ∅, ∅, fun _ => .new hostname port, 0⟩

def update (this : HttpClientImpl) (connection : Nat) (f : HttpConnection → HttpConnection) :
    HttpClientImpl :=
  { this with heap := Function.update this.heap connection (f (this.heap connection)) }

def getConnectionId (this : HttpClientImpl) (connection : Nat) : Str :=
  (this.heap connection).getConnectionId

def evConnectionClosed (this : HttpClientImpl) (connection : Nat) : HttpClientImpl :=
  let this := this.update connection HttpConnection.reset
  { this with mFree := insert (this.getConnectionId connection) this.mFree }

/-- `new HttpConnection(this, mHostname, mPort)`, entered under its id. -/
def create (this : HttpClientImpl) : HttpClientImpl × Nat :=
  let connection := this.fresh
  let this := { this with fresh := connection + 1 }.update connection
    fun _ => .new this.mHostname this.mPort
  ({ this with mConnections := this.mConnections.emplace (this.getConnectionId connection) connection },
    connection)

/-- `first` is the id at `mFree.begin()`, an arbitrary element of the set. -/
def acquire (this : HttpClientImpl) (first : Str) : Res (HttpClientImpl × Nat) :=
  if 0 < this.mFree.card then
    if first ∈ this.mFree then
      match this.mConnections.lookup first with
      | none => throw .endDeref
      | some connection => pure (this, connection)
    else throw .badAnswer
  else pure this.create

def «open» (this : HttpClientImpl) (first : Str) (ev : Nat) : Res (HttpClientImpl × Nat) := do
  let (this, connection) ← this.acquire first
  let this := this.update connection (·.connect ev)
  let this := this.update connection (·.setBusy true)
  return ({ this with mFree := this.mFree.erase (this.getConnectionId connection) }, connection)

def close (this : HttpClientImpl) (connection : Nat) : HttpClientImpl :=
  let this := this.update connection (·.setBusy false)
  { this with mFree := insert (this.getConnectionId connection) this.mFree }

/-- The client after `closeConnctions()`, and the connections it deletes in the order of the map. -/
def closeConnctions (this : HttpClientImpl) : HttpClientImpl × List Nat :=
  ({ this with mConnections := ∅ }, this.mConnections.entries.map (·.2))

end HttpClientImpl

namespace HttpClientImpl

variable {this this' : HttpClientImpl} {first : Str} {ev connection : Nat}
  {f : HttpConnection → HttpConnection}

theorem getConnectionId_update (hf : ∀ c, (f c).getConnectionId = c.getConnectionId) (q : Nat) :
    (this.update connection f).getConnectionId q = this.getConnectionId q := by
  show (Function.update this.heap connection (f (this.heap connection)) q).getConnectionId = _
  by_cases hq : q = connection
  · rw [hq, Function.update_self, hf]; rfl
  · rw [Function.update_of_ne hq]; rfl

/-- The id of every connection the client makes. -/
def newId (this : HttpClientImpl) : Str := (HttpConnection.new this.mHostname this.mPort).getConnectionId

theorem open_cases (h : this.open first ev = .ok (this', connection)) :
    ∃ c₁, this.acquire first = .ok (c₁, connection) ∧
      this'.mFree = c₁.mFree.erase (c₁.getConnectionId connection) ∧
      this'.mConnections = c₁.mConnections ∧ this'.fresh = c₁.fresh ∧ this'.newId = c₁.newId ∧
      ∀ q, this'.getConnectionId q = c₁.getConnectionId q := by
  unfold «open» at h
  obtain ⟨⟨c₁, c⟩, ha, h⟩ := Res.of_bind h
  obtain ⟨rfl, rfl⟩ := Prod.mk.inj (Except.ok.inj h)
  have hids : ∀ q, ((c₁.update c (·.connect ev)).update c (·.setBusy true)).getConnectionId q =
      c₁.getConnectionId q := by
    intro q
    rw [getConnectionId_update (fun x => x.getConnectionId_setBusy true),
      getConnectionId_update fun x => x.getConnectionId_connect ev]
  exact ⟨c₁, ha, by rw [hids]; rfl, rfl, rfl, rfl, hids⟩

theorem acquire_free (h : this.acquire first = .ok (this', connection)) (hf : this.mFree.Nonempty) :
    first ∈ this.mFree ∧ this.mConnections.lookup first = some connection ∧ this' = this := by
  unfold acquire at h
  rw [if_pos (Finset.card_pos.2 hf)] at h
  by_cases hm : first ∈ this.mFree
  · rw [if_pos hm] at h
    cases hl : this.mConnections.lookup first with
    | none => rw [hl] at h; cases h
    | some c =>
      rw [hl] at h
      obtain ⟨rfl, rfl⟩ := Prod.mk.inj (Except.ok.inj h)
      exact ⟨hm, rfl, rfl⟩
  · rw [if_neg hm] at h; cases h

theorem getConnectionId_create (q : Nat) :
    this.create.1.getConnectionId q = if q = this.fresh then this.newId else this.getConnectionId q := by
  show (Function.update this.heap this.fresh _ q).getConnectionId = _
  by_cases hq : q = this.fresh
  · rw [if_pos hq, hq, Function.update_self]; rfl
  · rw [if_neg hq, Function.update_of_ne hq]; rfl

theorem acquire_new (h : this.acquire first = .ok (this', connection)) (hf : ¬ this.mFree.Nonempty) :
    connection = this.fresh ∧ this' = this.create.1 ∧
      this'.mConnections = this.mConnections.emplace this.newId this.fresh := by
  unfold acquire at h
  rw [if_neg fun hc => hf (Finset.card_pos.1 hc)] at h
  have hc : this.create = (this', connection) := Except.ok.inj h
  have hid : this.create.1.mConnections =
      this.mConnections.emplace (this.create.1.getConnectionId this.fresh) this.fresh := rfl
  rw [getConnectionId_create, if_pos rfl] at hid
  exact ⟨(congrArg Prod.snd hc).symm, (congrArg Prod.fst hc).symm, by rw [← hid, hc]⟩

theorem getConnectionId_close (q : Nat) : (this.close connection).getConnectionId q = this.getConnectionId q :=
  getConnectionId_update (fun c => c.getConnectionId_setBusy false) q

theorem getConnectionId_evConnectionClosed (q : Nat) :
    (this.evConnectionClosed connection).getConnectionId q = this.getConnectionId q :=
  getConnectionId_update HttpConnection.getConnectionId_reset q

theorem mFree_close :
    (this.close connection).mFree = insert (this.getConnectionId connection) this.mFree := by
  rw [← getConnectionId_close]; rfl

theorem mFree_evConnectionClosed :
    (this.evConnectionClosed connection).mFree = insert (this.getConnectionId connection) this.mFree := by
  rw [← getConnectionId_evConnectionClosed]; rfl

/-! ### One id -/

/-- All connections of the client have the one `id`, and it is entered with the first of them. -/
structure OneId (id : Str) (this : HttpClientImpl) : Prop where
  newId : this.newId = id
  same : ∀ c < this.fresh, this.getConnectionId c = id
  entered : this.mConnections.lookup id = if this.fresh = 0 then none else some 0
  free_sub : ∀ x ∈ this.mFree, x = id

variable {id : Str}

theorem OneId.new (hostname : Str) (port : UInt16) :
    OneId (HttpConnection.new hostname port).getConnectionId (new hostname port) where
  newId := rfl
  same c h := absurd h (Nat.not_lt_zero c)
  entered := rfl
  free_sub x h := absurd h (Finset.notMem_empty x)

theorem OneId.lt_of_free (h : OneId id this) {x : Str} {c : Nat} (hx : x ∈ this.mFree)
    (hl : this.mConnections.lookup x = some c) : c < this.fresh ∧ c = 0 := by
  rw [h.free_sub x hx, h.entered] at hl
  by_cases h0 : this.fresh = 0
  · rw [if_pos h0] at hl; cases hl
  · rw [if_neg h0] at hl
    obtain rfl : 0 = c := Option.some.inj hl
    exact ⟨by omega, rfl⟩

theorem OneId.create (h : OneId id this)
    (hconn : this.create.1.mConnections = this.mConnections.emplace this.newId this.fresh) :
    OneId id this.create.1 := by
  refine ⟨h.newId, fun c hc => ?_, ?_, h.free_sub⟩
  · have hc : c < this.fresh + 1 := hc
    rw [getConnectionId_create]
    split
    · exact h.newId
    · exact h.same c (by omega)
  · rw [hconn, h.newId, if_neg (show this.create.1.fresh ≠ 0 from Nat.succ_ne_zero this.fresh)]
    by_cases h0 : this.fresh = 0
    · have hnone := h.entered
      rw [if_pos h0] at hnone
      rw [UnorderedMap.lookup_emplace_of_none hnone, h0]
    · have hsome := h.entered
      rw [if_neg h0] at hsome
      exact UnorderedMap.lookup_emplace_of_some hsome

theorem OneId.acquire (h : OneId id this) (ha : this.acquire first = .ok (this', connection)) :
    OneId id this' ∧ connection < this'.fresh := by
  by_cases hf : this.mFree.Nonempty
  · obtain ⟨hfirst, hl, rfl⟩ := acquire_free ha hf
    exact ⟨h, (h.lt_of_free hfirst hl).1⟩
  · obtain ⟨rfl, rfl, hl⟩ := acquire_new ha hf
    exact ⟨h.create hl, Nat.lt_succ_self _⟩

theorem fresh_le_open (ho : this.open first ev = .ok (this', connection)) : this.fresh ≤ this'.fresh := by
  obtain ⟨c₁, ha, -, -, hfresh, -⟩ := open_cases ho
  rw [hfresh]
  by_cases hf : this.mFree.Nonempty
  · obtain ⟨-, -, rfl⟩ := acquire_free ha hf
    exact le_rfl
  · obtain ⟨-, rfl, -⟩ := acquire_new ha hf
    exact Nat.le_succ _

theorem OneId.open (h : OneId id this) (ho : this.open first ev = .ok (this', connection)) :
    OneId id this' ∧ connection < this'.fresh ∧ this'.mFree = ∅ := by
  obtain ⟨c₁, ha, hfree, hconn, hfresh, hnew, hids⟩ := open_cases ho
  obtain ⟨h₁, hlt⟩ := h.acquire ha
  have hempty : this'.mFree = ∅ := by
    refine Finset.eq_empty_of_forall_notMem fun x hx => ?_
    rw [hfree, h₁.same _ hlt] at hx
    exact (Finset.mem_erase.1 hx).1 (h₁.free_sub x (Finset.mem_erase.1 hx).2)
  refine ⟨⟨hnew.trans h₁.newId, fun c hc => ?_, ?_, fun x hx => ?_⟩, by rw [hfresh]; exact hlt, hempty⟩
  · rw [hids]; exact h₁.same c (hfresh ▸ hc)
  · rw [hconn, hfresh]; exact h₁.entered
  · exact absurd (hempty ▸ hx) (Finset.notMem_empty x)

theorem OneId.freed (h : OneId id this) (hc : connection < this.fresh)
    (hfree : this'.mFree = insert (this.getConnectionId connection) this.mFree)
    (hids : ∀ q, this'.getConnectionId q = this.getConnectionId q)
    (hrest : this'.mConnections = this.mConnections ∧ this'.fresh = this.fresh ∧ this'.newId = this.newId) :
    OneId id this' := by
  obtain ⟨hconn, hfresh, hnew⟩ := hrest
  refine ⟨hnew.trans h.newId, fun c hc => ?_, ?_, fun x hx => ?_⟩
  · rw [hids]; exact h.same c (hfresh ▸ hc)
  · rw [hconn, hfresh]; exact h.entered
  · rw [hfree, h.same _ hc] at hx
    rcases Finset.mem_insert.1 hx with rfl | hx
    · rfl
    · exact h.free_sub x hx

theorem OneId.close (h : OneId id this) (hc : connection < this.fresh) : OneId id (this.close connection) :=
  h.freed hc mFree_close (fun q => getConnectionId_close q) ⟨rfl, rfl, rfl⟩

theorem OneId.evConnectionClosed (h : OneId id this) (hc : connection < this.fresh) :
    OneId id (this.evConnectionClosed connection) :=
  h.freed hc mFree_evConnectionClosed (fun q => getConnectionId_evConnectionClosed q) ⟨rfl, rfl, rfl⟩

end HttpClientImpl

/-! ### Holders -/

/-- What has become of a connection since `open` returned it. -/
inductive Checkout where
  | held | closedByPeer | released
deriving DecidableEq, Repr

structure Ticket where
  connection : Nat
  checkout : Checkout
deriving DecidableEq, Repr

def Ticket.peerClosed (t : Ticket) (connection : Nat) : Ticket :=
  if t.connection = connection ∧ t.checkout = .held then { t with checkout := .closedByPeer } else t

theorem Ticket.connection_peerClosed (t : Ticket) (connection : Nat) :
    (t.peerClosed connection).connection = t.connection := by
  unfold peerClosed; split <;> rfl

/-- A client with the tickets of its `open` calls, oldest first. -/
structure Pool where
  client : HttpClientImpl
  tickets : List Ticket

inductive Action where
  | «open» (first : Str) (ev : Nat)
  | release (t : Nat)
  | peerClosed (connection : Nat)

namespace Pool

def new (hostname : Str) (port : UInt16) : Pool := ⟨.new hostname port, []⟩

/-- A holder releases once; the peer closes a connection that has a context. -/
def step (s : Pool) : Action → Res Pool
  | .open first ev => do
    let (client, connection) ← s.client.open first ev
    return ⟨client, s.tickets ++ [⟨connection, .held⟩]⟩
  | .release t =>
    match s.tickets[t]? with
    | none => throw .badAnswer
    | some tk =>
      if tk.checkout = .released then throw .badAnswer
      else pure ⟨s.client.close tk.connection, s.tickets.set t { tk with checkout := .released }⟩
  | .peerClosed connection =>
    if connection < s.client.fresh ∧ (s.client.heap connection).connection ≠ none then
      pure ⟨s.client.evConnectionClosed connection, s.tickets.map (·.peerClosed connection)⟩
    else throw .badAnswer

variable {s s' : Pool}

theorem step_open {first : Str} {ev : Nat} (h : s.step (.open first ev) = .ok s') :
    ∃ client connection, s.client.open first ev = .ok (client, connection) ∧
      s' = ⟨client, s.tickets ++ [⟨connection, .held⟩]⟩ := by
  obtain ⟨⟨client, connection⟩, ho, h⟩ := Res.of_bind h
  exact ⟨client, connection, ho, (Except.ok.inj h).symm⟩

theorem step_release {t : Nat} (h : s.step (.release t) = .ok s') :
    ∃ tk, s.tickets[t]? = some tk ∧
      s' = ⟨s.client.close tk.connection, s.tickets.set t { tk with checkout := .released }⟩ := by
  cases ht : s.tickets[t]? with
  | none => simp only [step, ht] at h; cases h
  | some tk =>
    simp only [step, ht] at h
    split at h
    · cases h
    · exact ⟨tk, rfl, (Except.ok.inj h).symm⟩

theorem step_peerClosed {connection : Nat} (h : s.step (.peerClosed connection) = .ok s') :
    connection < s.client.fresh ∧
      s' = ⟨s.client.evConnectionClosed connection, s.tickets.map (·.peerClosed connection)⟩ := by
  rw [step] at h
  split at h
  · rename_i hc; exact ⟨hc.1, (Except.ok.inj h).symm⟩
  · cases h

/-- The client of the pool has one id, and the tickets are for connections that it has made. -/
structure Sound (id : Str) (s : Pool) : Prop where
  oneId : s.client.OneId id
  live : ∀ tk ∈ s.tickets, tk.connection < s.client.fresh

variable {id : Str}

theorem Sound.new (hostname : Str) (port : UInt16) :
    Sound (HttpConnection.new hostname port).getConnectionId (new hostname port) :=
  ⟨.new hostname port, fun _ h => absurd h List.not_mem_nil⟩

theorem Sound.step {a : Action} (h : s.Sound id) (hs : s.step a = .ok s') : s'.Sound id := by
  cases a with
  | «open» first ev =>
    obtain ⟨client, connection, ho, rfl⟩ := step_open hs
    obtain ⟨hone, hlt, -⟩ := h.oneId.open ho
    refine ⟨hone, fun tk htk => ?_⟩
    rcases List.mem_append.1 htk with htk | htk
    · exact lt_of_lt_of_le (h.live tk htk) (HttpClientImpl.fresh_le_open ho)
    · rw [List.mem_singleton.1 htk]; exact hlt
  | release t =>
    obtain ⟨tk, ht, rfl⟩ := step_release hs
    have hlt := h.live tk (List.mem_of_getElem? ht)
    refine ⟨h.oneId.close hlt, fun u hu => ?_⟩
    rcases List.mem_or_eq_of_mem_set hu with hu | rfl
    · exact h.live u hu
    · exact hlt
  | peerClosed connection =>
    obtain ⟨hlt, rfl⟩ := step_peerClosed hs
    refine ⟨h.oneId.evConnectionClosed hlt, fun u hu => ?_⟩
    obtain ⟨tk, htk, rfl⟩ := List.mem_map.1 hu
    rw [Ticket.connection_peerClosed]; exact h.live tk htk

end Pool

end ChCppUtils.Http.Client
