import ChCppUtils.Lib.Split
import ChCppUtils.Http.RequestRelease

/-!
# The clients of the process (`HttpClientImpl::NewInstance`)

`gClients` has a pointer to a client object for each key, made of a host and a port. The last `:` of a key
comes before the port, so requests share a client exactly when they have the same host and the same 16 bits
of a port. `evhttp_uri_get_port` is -1 for a URL without port: such a request gets port 65535. The
clients are shared as the URLs say exactly in the runs that open URLs with a port (`eachState_shared_iff`).
-/

namespace ChCppUtils.Http.Client

open Runs

/-! ### Keys -/

theorem toList_toString_inj {m n : Nat} (h : (toString m).toList = (toString n).toList) : m = n := by
  simp only [Nat.toString_eq_repr, Nat.toList_repr] at h
  have := congrArg (fun digits => Nat.ofDigitChars 10 digits 0) h
  simpa only [Nat.ofDigitChars_ten_toDigits] using this

theorem colon_not_mem_toString (n : Nat) : ':' ∉ (toString n).toList := by
  intro h
  rw [Nat.toString_eq_repr, Nat.toList_repr] at h
  exact absurd (Nat.isDigit_of_mem_toDigits (by decide) (by decide) h) (by decide)

/-- A host may have a `:`, a port has none. -/
theorem clientKey_inj {hostname hostname' : Str} {port port' : UInt16} :
    Session.clientKey hostname port = Session.clientKey hostname' port' ↔ hostname = hostname' ∧ port = port' := by
  refine ⟨fun h => ?_, fun ⟨hh, hp⟩ => by rw [hh, hp]⟩
  simp only [Session.clientKey, List.append_assoc, List.singleton_append] at h
  have hhost := congrArg (Split.upToLast ':') h
  rw [Split.upToLast_append (colon_not_mem_toString _), Split.upToLast_append (colon_not_mem_toString _)] at hhost
  subst hhost
  exact ⟨rfl, UInt16.toNat_inj.1 (toList_toString_inj (List.cons.inj (List.append_cancel_left h)).2)⟩

theorem getConnectionId_eq (connection : HttpConnection) : connection.getConnectionId =
    Session.clientKey connection.mHostname connection.mPort ++ [':'] := rfl

/-! ### The objects -/

/-- What libevent makes of a URL: a port that it names has 16 bits. -/
structure HttpUri extends EvhttpUri where
  range : -1 ≤ port ∧ port ≤ 65535

/-- The port of the server that the URL names. -/
def HttpUri.effectivePort (uri : HttpUri) : Int := if uri.port = -1 then 80 else uri.port

/-- A call of `HttpRequest::open`, with the client object it got and the connection that this returned. -/
structure Opening where
  uri : HttpUri
  client : Nat
  connection : HttpConnection

def Opening.key (x : Opening) : Str := Session.clientKey x.uri.host (UInt16.ofInt x.uri.port)

/-- A pointer to an `HttpClientImpl` is its number in `objects`. -/
structure Instances where
  gClients : UnorderedMap Str Nat
  objects : List HttpClientImpl
  opened : List Opening

namespace Instances

def new : Instances := ⟨∅, [], []⟩

/-- `HttpClientImpl::NewInstance(hostname, port)` -/
def newInstance (s : Instances) (hostname : Str) (port : UInt16) : Instances × Nat :=
  match s.gClients.lookup (Session.clientKey hostname port) with
  | none =>
    let client := s.objects.length
    (⟨s.gClients.emplace (Session.clientKey hostname port) client, s.objects ++ [.new hostname port], s.opened⟩,
      client)
  | some client => (s, client)

/-- `HttpRequest::open` with a URL that is parsed. -/
def «open» (s : Instances) (uri : HttpUri) (first : Str) (ev : Nat) : Res Instances := do
  let (s, client) := s.newInstance uri.host (UInt16.ofInt uri.port)
  match s.objects[client]? with
  | none => throw .nullDeref
  | some this => do
    let (this, connection) ← this.open first ev
    return { s with
      objects := s.objects.set client this
      opened := s.opened ++ [⟨uri, client, this.heap connection⟩] }

/-- A call to a client with a connection that it has made. -/
def call (s : Instances) (client connection : Nat) (f : HttpClientImpl → HttpClientImpl) : Res Instances :=
  match s.objects[client]? with
  | none => throw .badAnswer
  | some this =>
    if connection < this.fresh then pure { s with objects := s.objects.set client (f this) } else throw .badAnswer

inductive Action where
  | «open» (uri : HttpUri) (first : Str) (ev : Nat)
  | close (client connection : Nat)
  | evConnectionClosed (client connection : Nat)

def step (s : Instances) : Action → Res Instances
  | .open uri first ev => s.open uri first ev
  | .close client connection => s.call client connection (·.close connection)
  | .evConnectionClosed client connection => s.call client connection (·.evConnectionClosed connection)

/-- Requests have the same client iff their URLs name the same server, and the client connects to its port. -/
structure Shared (s : Instances) : Prop where
  same : ∀ x ∈ s.opened, ∀ y ∈ s.opened, x.client = y.client ↔
    x.uri.host = y.uri.host ∧ x.uri.effectivePort = y.uri.effectivePort
  connects : ∀ x ∈ s.opened, (x.connection.mPort.toNat : Int) = x.uri.effectivePort

/-- A URL that is opened names its port. -/
def NamesPort (_ : Instances) : Action → Prop
  | .open uri _ _ => uri.port ≠ -1
  | .close _ _ | .evConnectionClosed _ _ => True

instance (s : Instances) : ∀ a, Decidable (s.NamesPort a)
  | .open uri _ _ => inferInstanceAs (Decidable (uri.port ≠ -1))
  | .close _ _ | .evConnectionClosed _ _ => inferInstanceAs (Decidable True)

variable {s s' : Instances} {x y : Opening}

theorem newInstance_cases {hostname : Str} {port : UInt16} {client : Nat}
    (h : s.newInstance hostname port = (s', client)) :
    s.gClients.lookup (Session.clientKey hostname port) = some client ∧ s' = s ∨
      s.gClients.lookup (Session.clientKey hostname port) = none ∧ client = s.objects.length ∧
        s' = ⟨s.gClients.emplace (Session.clientKey hostname port) client, s.objects ++ [.new hostname port],
          s.opened⟩ := by
  unfold newInstance at h
  split at h
  · rename_i hl
    obtain ⟨rfl, rfl⟩ := Prod.mk.inj h
    exact .inr ⟨hl, rfl, rfl⟩
  · rename_i hl
    obtain ⟨rfl, rfl⟩ := Prod.mk.inj h
    exact .inl ⟨hl, rfl⟩

theorem open_cases {uri : HttpUri} {first : Str} {ev : Nat} (h : s.open uri first ev = .ok s') :
    ∃ s₁ client this this' connection,
      s.newInstance uri.host (UInt16.ofInt uri.port) = (s₁, client) ∧ s₁.objects[client]? = some this ∧
      this.open first ev = .ok (this', connection) ∧
      s' = { s₁ with
        objects := s₁.objects.set client this'
        opened := s₁.opened ++ [⟨uri, client, this'.heap connection⟩] } := by
  unfold «open» at h
  obtain ⟨s₁, client, hn⟩ : ∃ s₁ client, s.newInstance uri.host (UInt16.ofInt uri.port) = (s₁, client) := ⟨_, _, rfl⟩
  cases hthis : s₁.objects[client]? with
  | none => simp only [hn, hthis] at h; cases h
  | some this =>
    simp only [hn, hthis] at h
    obtain ⟨⟨this', connection⟩, ho, h⟩ := Res.of_bind h
    exact ⟨s₁, client, this, this', connection, hn, hthis, ho, (Except.ok.inj h).symm⟩

theorem call_cases {client connection : Nat} {f : HttpClientImpl → HttpClientImpl}
    (h : s.call client connection f = .ok s') : ∃ this, s.objects[client]? = some this ∧ connection < this.fresh ∧
      s' = { s with objects := s.objects.set client (f this) } := by
  unfold call at h
  split at h
  · cases h
  · rename_i this hthis
    split at h
    · rename_i hc; exact ⟨this, hthis, hc, (Except.ok.inj h).symm⟩
    · cases h

/-! ### The registry -/

/-- The key of a client says which connections it makes, so no two keys have one client. -/
structure Inv (s : Instances) : Prop where
  filed : ∀ key client, s.gClients.lookup key = some client →
    ∃ this, s.objects[client]? = some this ∧ this.OneId (key ++ [':'])
  opened : ∀ x ∈ s.opened, s.gClients.lookup x.key = some x.client
  connected : ∀ x ∈ s.opened, x.connection.getConnectionId = x.key ++ [':']

theorem Inv.new : Inv new where
  filed _ _ h := nomatch h
  opened _ h := absurd h List.not_mem_nil
  connected _ h := absurd h List.not_mem_nil

theorem Inv.newInstance (h : s.Inv) {hostname : Str} {port : UInt16} {client : Nat}
    (hn : s.newInstance hostname port = (s', client)) :
    s'.Inv ∧ s'.gClients.lookup (Session.clientKey hostname port) = some client ∧ s'.opened = s.opened := by
  rcases newInstance_cases hn with ⟨hl, rfl⟩ | ⟨hl, rfl, rfl⟩
  · exact ⟨h, hl, rfl⟩
  · refine ⟨⟨fun key client hc => ?_, fun x hx => ?_, h.connected⟩, UnorderedMap.lookup_emplace_of_none hl, rfl⟩
    · by_cases hk : key = Session.clientKey hostname port
      · subst hk
        rw [UnorderedMap.lookup_emplace_of_none hl] at hc
        obtain rfl := Option.some.inj hc
        exact ⟨_, by simp, .new hostname port⟩
      · rw [UnorderedMap.lookup_emplace_ne hk] at hc
        obtain ⟨this, hthis, hone⟩ := h.filed key client hc
        exact ⟨this, by rw [List.getElem?_append_left (List.getElem?_eq_some_iff.1 hthis).1, hthis], hone⟩
    · have hx' := h.opened x hx
      have hk : x.key ≠ Session.clientKey hostname port := by
        intro hk
        rw [hk, hl] at hx'
        cases hx'
      rw [UnorderedMap.lookup_emplace_ne hk, hx']

/-- An operation of a client leaves the registry as it is. -/
theorem Inv.set (h : s.Inv) {client : Nat} {this this' : HttpClientImpl} (hthis : s.objects[client]? = some this)
    (hone : ∀ id, this.OneId id → this'.OneId id) : Inv { s with objects := s.objects.set client this' } := by
  refine ⟨fun key p hp => ?_, h.opened, h.connected⟩
  obtain ⟨that, hthat, hid⟩ := h.filed key p hp
  by_cases hc : p = client
  · subst hc
    obtain rfl : this = that := Option.some.inj (hthis.symm.trans hthat)
    exact ⟨this', List.getElem?_set_self (List.getElem?_eq_some_iff.1 hthis).1, hone _ hid⟩
  · exact ⟨that, by rw [List.getElem?_set_ne (Ne.symm hc), hthat], hid⟩

theorem Inv.step {a : Action} (h : s.Inv) (hs : s.step a = .ok s') : s'.Inv := by
  cases a with
  | «open» uri first ev =>
    obtain ⟨s₁, client, this, this', connection, hn, hthis, ho, rfl⟩ := open_cases hs
    obtain ⟨h₁, hl, -⟩ := h.newInstance hn
    have hset := h₁.set hthis fun id hid => (hid.open ho).1
    refine ⟨hset.filed, fun x hx => ?_, fun x hx => ?_⟩
    · rcases List.mem_append.1 hx with hx | hx
      · exact h₁.opened x hx
      · rw [List.mem_singleton.1 hx]; exact hl
    · rcases List.mem_append.1 hx with hx | hx
      · exact h₁.connected x hx
      · rw [List.mem_singleton.1 hx]
        obtain ⟨that, hthat, hid⟩ := h₁.filed _ _ hl
        obtain rfl : this = that := Option.some.inj (hthis.symm.trans hthat)
        obtain ⟨hid', hlt, -⟩ := hid.open ho
        exact hid'.same connection hlt
  | close client connection =>
    obtain ⟨this, hthis, hlt, rfl⟩ := call_cases hs
    exact h.set hthis fun id hid => hid.close hlt
  | evConnectionClosed client connection =>
    obtain ⟨this, hthis, hlt, rfl⟩ := call_cases hs
    exact h.set hthis fun id hid => hid.evConnectionClosed hlt

theorem Inv.key_inj (h : s.Inv) {key key' : Str} {client : Nat} (hk : s.gClients.lookup key = some client)
    (hk' : s.gClients.lookup key' = some client) : key = key' := by
  obtain ⟨this, hthis, hid⟩ := h.filed key client hk
  obtain ⟨that, hthat, hid'⟩ := h.filed key' client hk'
  obtain rfl : this = that := Option.some.inj (hthis.symm.trans hthat)
  exact List.append_cancel_right (hid.newId.symm.trans hid'.newId)

theorem Inv.client_eq_iff (h : s.Inv) (hx : x ∈ s.opened) (hy : y ∈ s.opened) : x.client = y.client ↔
    x.uri.host = y.uri.host ∧ UInt16.ofInt x.uri.port = UInt16.ofInt y.uri.port := by
  have hlx := h.opened x hx
  have hly := h.opened y hy
  rw [← clientKey_inj]
  constructor
  · intro he
    rw [← he] at hly
    exact h.key_inj hlx hly
  · intro hk
    rw [show x.key = y.key from hk, hly] at hlx
    exact (Option.some.inj hlx).symm

theorem Inv.mPort_eq (h : s.Inv) (hx : x ∈ s.opened) : x.connection.mPort = UInt16.ofInt x.uri.port := by
  have hid := h.connected x hx
  rw [getConnectionId_eq] at hid
  exact (clientKey_inj.1 (List.append_cancel_right hid)).2

/-! ### The sessions -/

/-- The clients of the session are the objects that the pointers lead to. -/
def Agrees (s : Instances) (t : Session) : Prop :=
  ∀ key, t.gClients.lookup key = (s.gClients.lookup key).bind fun client => s.objects[client]?

theorem Agrees.new : new.Agrees Session.new := fun _ => rfl

theorem Agrees.newInstance {t : Session} {hostname : Str} {port : UInt16} {client : Nat} (h : s.Agrees t)
    (hinv : s.Inv) (hn : s.newInstance hostname port = (s', client)) : ∃ this, s'.objects[client]? = some this ∧
      (t.newInstance hostname port).2 = this ∧ s'.Agrees (t.newInstance hostname port).1 := by
  have hkey := h (Session.clientKey hostname port)
  unfold Session.newInstance
  rcases newInstance_cases hn with ⟨hl, rfl⟩ | ⟨hl, rfl, rfl⟩
  · obtain ⟨this, hthis, -⟩ := hinv.filed _ _ hl
    rw [hl, Option.bind_some, hthis] at hkey
    simp only [hkey]
    exact ⟨this, hthis, rfl, h⟩
  · rw [hl, Option.bind_none] at hkey
    simp only [hkey]
    refine ⟨_, by simp, rfl, fun key => ?_⟩
    by_cases hk : key = Session.clientKey hostname port
    · subst hk
      simp [UnorderedMap.lookup_emplace_of_none hkey, UnorderedMap.lookup_emplace_of_none hl]
    · rw [UnorderedMap.lookup_emplace_ne hk, UnorderedMap.lookup_emplace_ne hk, h key]
      cases hc : s.gClients.lookup key with
      | none => rfl
      | some client =>
        obtain ⟨this, hthis, -⟩ := hinv.filed key client hc
        exact (List.getElem?_append_left (List.getElem?_eq_some_iff.1 hthis).1).symm

theorem Agrees.setClient {t : Session} {key : Str} {client : Nat} {this : HttpClientImpl} (h : s.Agrees t)
    (hinv : s.Inv) (hl : s.gClients.lookup key = some client) (this' : HttpClientImpl)
    (hthis : s.objects[client]? = some this) :
    Agrees { s with objects := s.objects.set client this' } (t.setClient key this') := by
  intro key'
  show (AList.insert key this' t.gClients).lookup key' =
    (s.gClients.lookup key').bind fun p => (s.objects.set client this')[p]?
  by_cases hk : key' = key
  · rw [hk, AList.lookup_insert, hl, Option.bind_some,
      List.getElem?_set_self (List.getElem?_eq_some_iff.1 hthis).1]
  · rw [AList.lookup_insert_ne hk, h key']
    cases hc : s.gClients.lookup key' with
    | none => rfl
    | some p =>
      have hne : client ≠ p := fun he => hk (hinv.key_inj hc (he ▸ hl))
      exact (List.getElem?_set_ne hne).symm

/-- A call of a client of the session is one of the object of its key. -/
theorem Agrees.call {t : Session} {key : Str} {this : HttpClientImpl} {connection : Nat} (h : s.Agrees t)
    (hinv : s.Inv) (hl : t.gClients.lookup key = some this) (hc : connection < this.fresh)
    (f : HttpClientImpl → HttpClientImpl) :
    ∃ client s', s.call client connection f = .ok s' ∧ s'.Agrees (t.setClient key (f this)) := by
  obtain ⟨client, hcl, hthis⟩ := Option.bind_eq_some_iff.1 ((h key).symm.trans hl)
  refine ⟨client, _, ?_, h.setClient hinv hcl (f this) hthis⟩
  unfold Instances.call
  rw [hthis]
  exact if_pos hc

/-- What a request opens in a session it opens on the object of its key. -/
theorem Agrees.open {t t' : Session} {r : Nat} {uri : HttpUri} {first : Str} {ev : Nat} (h : s.Agrees t)
    (hinv : s.Inv) (ho : t.open r uri.toEvhttpUri first ev = .ok t') :
    ∃ s', s.open uri first ev = .ok s' ∧ s'.Agrees t' := by
  cases hn : s.newInstance uri.host (UInt16.ofInt uri.port) with
  | mk s₁ client =>
    obtain ⟨this, hthis, heq, h₁⟩ := h.newInstance hinv hn
    obtain ⟨hinv₁, hl, -⟩ := hinv.newInstance hn
    unfold Session.open at ho
    split at ho
    swap
    · cases ho
    simp only [heq] at ho
    obtain ⟨⟨this', connection⟩, hopen, ho⟩ := Res.of_bind ho
    obtain rfl := Except.ok.inj ho
    unfold Instances.open
    simp only [hn, hthis, hopen]
    exact ⟨_, rfl, h₁.setClient hinv₁ hl this' hthis⟩

/-- A URL is parsed to a port of 16 bits, or to none. -/
def InRange (_ : Session) : Session.Action → Prop
  | .open _ uri _ _ => -1 ≤ uri.port ∧ uri.port ≤ 65535
  | .make | .send _ | .done _ _ | .closed _ => True

/-- A step of the session is a step on the objects, or none. -/
theorem Agrees.act {t t' : Session} {a : Session.Action} (h : s.Agrees t) (hinv : s.Inv) (ht : t.Sound)
    (hr : InRange t a) (ha : t.act a = .ok t') :
    ∃ s', (s' = s ∨ ∃ b, s.step b = .ok s') ∧ s'.Agrees t' := by
  cases a with
  | make =>
    obtain rfl := Except.ok.inj ha
    exact ⟨s, .inl rfl, h⟩
  | «open» r uri first ev =>
    have ho : t.open r (HttpUri.toEvhttpUri ⟨uri, hr⟩) first ev = .ok t' := ha
    obtain ⟨s', hs, h'⟩ := h.open hinv ho
    exact ⟨s', .inr ⟨.open ⟨uri, hr⟩ first ev, hs⟩, h'⟩
  | send r =>
    obtain ⟨context, -, p, -, e, rfl⟩ := Session.send_cases ha
    exact ⟨s, .inl rfl, h⟩
  | done e req =>
    obtain ⟨response, hc⟩ := Session.act_done ha
    obtain ⟨r, evcon, context, -, hctx, ⟨-, rfl⟩ | ⟨q, this, -, hq, hl, rfl⟩⟩ := Session.complete_cases hc
    · exact ⟨s, .inl rfl, h⟩
    · obtain ⟨that, hthat, hlt⟩ := ht.contexts context (List.mem_of_getElem? hctx) q hq
      obtain rfl : this = that := Option.some.inj (hl.symm.trans hthat)
      obtain ⟨client, s', hs, h'⟩ := h.call hinv hl hlt (·.close q.connection)
      exact ⟨s', .inr ⟨.close client q.connection, hs⟩, h'⟩
  | closed q =>
    obtain ⟨this, hl, hlt, rfl⟩ := Session.evConnectionClosed_cases ha
    obtain ⟨client, s', hs, h'⟩ := h.call hinv hl hlt (·.evConnectionClosed q.connection)
    exact ⟨s', .inr ⟨.evConnectionClosed client q.connection, hs⟩, h'⟩

/-- The clients of a session are those that a run on the objects comes to. -/
theorem agrees_of_reach {t : Session} (h : Reach (Under InRange (Ok Session.step)) Session.new t) :
    ∃ s, Reach (Ok step) new s ∧ s.Agrees t := by
  suffices hall : (∃ s, Reach (Ok step) new s ∧ s.Agrees t) ∧ t.Sound from hall.1
  refine h.invariant (I := fun t => (∃ s, Reach (Ok step) new s ∧ s.Agrees t) ∧ t.Sound)
    ⟨⟨new, .refl, .new⟩, Session.Inv.new.toSound⟩ ?_
  rintro t a t' ⟨⟨s, hs, hag⟩, ht⟩ ⟨hr, hstep⟩
  obtain ⟨t₁, hact, rfl⟩ := Session.step_cases hstep
  have hinv := hs.invariant Inv.new fun _ _ _ hi hs => hi.step hs
  obtain ⟨s', hs', hag'⟩ := hag.act hinv ht hr hact
  have ht₁ := ht.act hact
  refine ⟨⟨s', ?_, hag'⟩, ht₁.ids, ht₁.contexts, ht₁.evcons⟩
  rcases hs' with rfl | ⟨b, hb⟩
  · exact hs
  · exact hs.step hb

/-! ### Ports -/

theorem toNat_port {uri : HttpUri} (h : uri.port ≠ -1) : ((UInt16.ofInt uri.port).toNat : Int) = uri.effectivePort := by
  obtain ⟨hlo, hhi⟩ := uri.range
  rw [HttpUri.effectivePort, if_neg h, UInt16.ofInt, UInt16.toNat_ofNat']
  omega

theorem toNat_port_absent {uri : HttpUri} (h : uri.port = -1) : (UInt16.ofInt uri.port).toNat = 65535 := by
  rw [h]; rfl

theorem port_eq_iff {uri uri' : HttpUri} (h : uri.port ≠ -1) (h' : uri'.port ≠ -1) :
    UInt16.ofInt uri.port = UInt16.ofInt uri'.port ↔ uri.effectivePort = uri'.effectivePort := by
  rw [← toNat_port h, ← toNat_port h', Int.natCast_inj, UInt16.toNat_inj]

/-- Where all URLs have named their port, the clients are shared as they should be. -/
theorem Inv.shared (h : s.Inv) (hnamed : ∀ x ∈ s.opened, x.uri.port ≠ -1) : s.Shared where
  same x hx y hy := by rw [h.client_eq_iff hx hy, port_eq_iff (hnamed x hx) (hnamed y hy)]
  connects x hx := by rw [h.mPort_eq hx, toNat_port (hnamed x hx)]

theorem exists_opening {uri : HttpUri} {first : Str} {ev : Nat} (ho : s.open uri first ev = .ok s') :
    ∃ x, x.uri = uri ∧ s'.opened = s.opened ++ [x] := by
  obtain ⟨s₁, client, this, this', connection, hn, -, -, rfl⟩ := open_cases ho
  refine ⟨⟨uri, client, this'.heap connection⟩, rfl, ?_⟩
  rcases newInstance_cases hn with ⟨-, rfl⟩ | ⟨-, -, rfl⟩ <;> rfl

theorem opened_call {client connection : Nat} {f : HttpClientImpl → HttpClientImpl}
    (h : s.call client connection f = .ok s') : s'.opened = s.opened := by
  obtain ⟨this, -, -, rfl⟩ := call_cases h
  rfl

theorem named_step {a : Action} (hc : s.NamesPort a) (hs : s.step a = .ok s')
    (hnamed : ∀ x ∈ s.opened, x.uri.port ≠ -1) : ∀ x ∈ s'.opened, x.uri.port ≠ -1 := by
  cases a with
  | «open» uri first ev =>
    obtain ⟨x, rfl, hopened⟩ := exists_opening hs
    intro y hy
    rw [hopened] at hy
    rcases List.mem_append.1 hy with hy | hy
    · exact hnamed y hy
    · rw [List.mem_singleton.1 hy]; exact hc
  | close client connection => rwa [opened_call hs]
  | evConnectionClosed client connection => rwa [opened_call hs]

/-- A request for a URL without port is connected to port 65535. -/
theorem Shared.namesPort {a : Action} (hsh : s'.Shared) (h : s'.Inv) (hs : s.step a = .ok s') : s.NamesPort a := by
  cases a with
  | «open» uri first ev =>
    obtain ⟨x, rfl, hopened⟩ := exists_opening hs
    have hx : x ∈ s'.opened := by rw [hopened]; simp
    intro habsent
    have hport := hsh.connects x hx
    rw [h.mPort_eq hx, toNat_port_absent habsent, HttpUri.effectivePort, if_pos habsent] at hport
    exact absurd hport (by decide)
  | close client connection => trivial
  | evConnectionClosed client connection => trivial

/-- The states of a run share the clients as the URLs say iff it opens no URL without port. -/
theorem eachState_shared_iff (tr : List (Action × Instances)) (hrun : Run (Ok step) new tr) :
    EachState Shared new tr ↔ EachStep NamesPort new tr :=
  Run.eachState_iff (I := fun s => s.Inv ∧ ∀ x ∈ s.opened, x.uri.port ≠ -1) (fun _ h => h.1.shared h.2)
    (fun _ _ _ h hc hs => ⟨h.1.step hs, named_step hc hs h.2⟩)
    (fun _ _ _ h hs hsh => hsh.namesPort (h.1.step hs) hs) ⟨.new, fun _ h => absurd h List.not_mem_nil⟩ hrun

/-- Two ports of a host, and one of them again. -/
theorem shared_named_ports :
    ∃ tr, exec step new [.open ⟨⟨"h".toList, 80⟩, by decide⟩ [] 0, .open ⟨⟨"h".toList, 81⟩, by decide⟩ [] 1,
        .close 0 0, .open ⟨⟨"h".toList, 80⟩, by decide⟩ "h:80:".toList 2] = .ok tr ∧ EachState Shared new tr := by
  have hg : Goes step NamesPort (fun _ => True) new
      [.open ⟨⟨"h".toList, 80⟩, by decide⟩ [] 0, .open ⟨⟨"h".toList, 81⟩, by decide⟩ [] 1, .close 0 0,
        .open ⟨⟨"h".toList, 80⟩, by decide⟩ "h:80:".toList 2] := by decide
  obtain ⟨tr, htr, hc, -⟩ := hg.exec
  exact ⟨tr, htr, (eachState_shared_iff tr (Run.of_exec htr)).2 hc⟩

/-- `http://h/` and `http://h:80/` have different clients, and the one of `http://h/` is for port 65535. -/
theorem not_shared_absent_port :
    ∃ tr, exec step new [.open ⟨⟨"h".toList, -1⟩, by decide⟩ [] 0, .open ⟨⟨"h".toList, 80⟩, by decide⟩ [] 1] =
        .ok tr ∧ ¬ EachState Shared new tr := by
  have hg : Goes step (fun _ _ => True)
      (fun s => ∃ x ∈ s.opened, ∃ y ∈ s.opened, (x.uri.host = y.uri.host ∧
        x.uri.effectivePort = y.uri.effectivePort) ∧ x.client ≠ y.client ∧ x.connection.mPort = 65535) new
      [.open ⟨⟨"h".toList, -1⟩, by decide⟩ [] 0, .open ⟨⟨"h".toList, 80⟩, by decide⟩ [] 1] := by decide
  obtain ⟨tr, htr, -, s, ⟨x, hx, y, hy, hsame, hne, -⟩, hs⟩ := hg.exec
  exact ⟨tr, htr, fun h => hne (((hs _ h).same x hx y hy).2 hsame)⟩

end Instances

end ChCppUtils.Http.Client
