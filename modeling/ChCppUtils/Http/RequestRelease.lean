import ChCppUtils.Http.Request

/-!
# A connection comes back when its request completes

A response marks free the connection that its `HttpRequest` has by then, and a close notification the one that is
closed. A request that fails marks none. So the connections of all completed requests are free, until an `open`
takes their id, exactly when each of them is free already or is marked by the response (`eachState_returned_iff`).
-/

namespace ChCppUtils.Http.Client

open Runs

namespace HttpClientImpl

variable {this this' : HttpClientImpl} {first : Str} {ev connection : Nat}

theorem acquire_frame (h : this.acquire first = .ok (this', connection)) :
    this'.mFree = this.mFree ∧ ∀ q < this.fresh, this'.heap q = this.heap q := by
  by_cases hf : this.mFree.Nonempty
  · obtain ⟨-, -, rfl⟩ := acquire_free h hf
    exact ⟨rfl, fun _ _ => rfl⟩
  · obtain ⟨-, rfl, -⟩ := acquire_new h hf
    exact ⟨rfl, fun q hq => Function.update_of_ne (Nat.ne_of_lt hq) _ _⟩

/-- `open` touches one connection, and takes its id. -/
theorem open_frame (h : this.open first ev = .ok (this', connection)) :
    this'.mFree = this.mFree.erase (this'.getConnectionId connection) ∧
      ∀ q < this.fresh, this'.getConnectionId q = this.getConnectionId q ∧
        (q ≠ connection → this'.heap q = this.heap q) := by
  obtain ⟨c₁, ha, hfree, -, -, -, hids⟩ := open_cases h
  obtain ⟨hfree₁, hheap⟩ := acquire_frame ha
  refine ⟨by rw [hfree, hfree₁, hids], fun q hq => ⟨?_, fun hne => ?_⟩⟩
  · rw [hids, getConnectionId, hheap q hq]; rfl
  · unfold «open» at h
    rw [ha] at h
    obtain ⟨rfl, -⟩ := Prod.mk.inj (Except.ok.inj h)
    show Function.update (Function.update c₁.heap connection _) connection _ q = _
    rw [Function.update_of_ne hne, Function.update_of_ne hne, hheap q hq]

/-- One connection is marked free. -/
structure Frees (connection : Nat) (this this' : HttpClientImpl) : Prop where
  busy : ∀ q, (this'.heap q).busy = if q = connection then false else (this.heap q).busy
  ids : ∀ q, this'.getConnectionId q = this.getConnectionId q
  mFree : this'.mFree = insert (this.getConnectionId connection) this.mFree
  fresh : this'.fresh = this.fresh

theorem busy_update {f : HttpConnection → HttpConnection} (hf : ∀ c, (f c).busy = false) (q : Nat) :
    ((this.update connection f).heap q).busy = if q = connection then false else (this.heap q).busy := by
  show (Function.update this.heap connection (f (this.heap connection)) q).busy = _
  by_cases hq : q = connection
  · rw [if_pos hq, hq, Function.update_self, hf]
  · rw [if_neg hq, Function.update_of_ne hq]

theorem frees_close : Frees connection this (this.close connection) :=
  ⟨busy_update (f := (·.setBusy false)) fun _ => rfl, fun q => getConnectionId_close q, mFree_close, rfl⟩

theorem frees_evConnectionClosed : Frees connection this (this.evConnectionClosed connection) :=
  ⟨busy_update (f := HttpConnection.reset) fun _ => rfl, fun q => getConnectionId_evConnectionClosed q,
    mFree_evConnectionClosed, rfl⟩

end HttpClientImpl

namespace Session

/-- The connection is not busy and its id is free. -/
def Free (s : Session) (p : ConnectionPtr) : Prop :=
  ∃ client ∈ s.gClients.lookup p.client,
    (client.heap p.connection).busy = false ∧ client.getConnectionId p.connection ∈ client.mFree

def Idle (s : Session) (p : ConnectionPtr) : Prop :=
  ∃ client ∈ s.gClients.lookup p.client, (client.heap p.connection).busy = false

/-- The connections of all completed requests have come back. -/
def Returned (s : Session) : Prop := ∀ p ∈ s.returned, s.Free p

/-- The connection `p` of a request is free already, or the request has a response and its `HttpRequest` still has
`p`, or by now another connection of the client while `p` is not busy. -/
def ComesBack (s : Session) (p : ConnectionPtr) (context : RequestContext) (req : Option EvhttpReply) : Prop :=
  s.Free p ∨ req ≠ none ∧ ∃ q ∈ context.connection, q = p ∨ q.client = p.client ∧ s.Idle p

/-- A request that completes is made on a connection that comes back with it. -/
def CompletesFree (s : Session) : Action → Prop
  | .done e req => ∀ request ∈ s.evRequests[e]?, ∀ context ∈ s.requests[request.arg]?,
    ∀ p ∈ request.evcon, s.ComesBack p context req
  | .make | .open .. | .send _ | .closed _ => True

instance (s : Session) (p : ConnectionPtr) : Decidable (s.Free p) :=
  inferInstanceAs (Decidable (∃ client ∈ s.gClients.lookup p.client, _))

instance (s : Session) (p : ConnectionPtr) : Decidable (s.Idle p) :=
  inferInstanceAs (Decidable (∃ client ∈ s.gClients.lookup p.client, _))

instance (s : Session) (p : ConnectionPtr) (context : RequestContext) (req : Option EvhttpReply) :
    Decidable (s.ComesBack p context req) :=
  inferInstanceAs (Decidable (s.Free p ∨ req ≠ none ∧ ∃ q ∈ context.connection, _))

instance (s : Session) : ∀ a, Decidable (s.CompletesFree a)
  | .done e req => inferInstanceAs (Decidable (∀ request ∈ s.evRequests[e]?,
    ∀ context ∈ s.requests[request.arg]?, ∀ p ∈ request.evcon, s.ComesBack p context req))
  | .make | .open .. | .send _ | .closed _ => inferInstanceAs (Decidable True)

def Live (s : Session) (p : ConnectionPtr) : Prop :=
  ∃ client, s.gClients.lookup p.client = some client ∧ p.connection < client.fresh

/-- The connections that contexts and requests point to have been made. -/
structure Sound (s : Session) : Prop where
  ids : ∀ key client, s.gClients.lookup key = some client → ∃ id, client.OneId id
  contexts : ∀ context ∈ s.requests, ∀ p ∈ context.connection, s.Live p
  evcons : ∀ request ∈ s.evRequests, ∀ p ∈ request.evcon, s.Live p

structure Inv (s : Session) : Prop extends s.Sound where
  live : ∀ p ∈ s.returned, s.Live p
  returned : s.Returned

variable {s s' : Session} {p q : ConnectionPtr} {key : Str} {client client' : HttpClientImpl}

theorem Inv.new : Inv new where
  ids _ _ h := nomatch h
  contexts _ h := absurd h List.not_mem_nil
  evcons _ h := absurd h List.not_mem_nil
  live p h := absurd h (Finset.notMem_empty p)
  returned p h := absurd h (Finset.notMem_empty p)

/-! ### One client changes -/

theorem lookup_setClient (k : Str) :
    (s.setClient key client).gClients.lookup k = if k = key then some client else s.gClients.lookup k := by
  by_cases hk : k = key
  · rw [if_pos hk, hk]; exact AList.lookup_insert _
  · rw [if_neg hk]; exact AList.lookup_insert_ne hk

theorem Live.setClient (h : s.Live p) (hc : s.gClients.lookup key = some client)
    (hfresh : client.fresh ≤ client'.fresh) : (s.setClient key client').Live p := by
  obtain ⟨c, hl, hlt⟩ := h
  by_cases hk : p.client = key
  · rw [hk, hc] at hl
    obtain rfl := Option.some.inj hl
    exact ⟨client', by rw [lookup_setClient, if_pos hk], by omega⟩
  · exact ⟨c, by rw [lookup_setClient, if_neg hk]; exact hl, hlt⟩

theorem Sound.setClient (h : s.Sound) {id : Str} (hc : s.gClients.lookup key = some client)
    (hid : client'.OneId id) (hfresh : client.fresh ≤ client'.fresh) : (s.setClient key client').Sound := by
  refine ⟨fun k c hl => ?_, fun context hm p hp => (h.contexts context hm p hp).setClient hc hfresh,
    fun request hm p hp => (h.evcons request hm p hp).setClient hc hfresh⟩
  rw [lookup_setClient] at hl
  split at hl
  · obtain rfl := Option.some.inj hl
    exact ⟨id, hid⟩
  · exact h.ids k c hl

/-- In the client that changes, a connection is free as the new client says; elsewhere it is as before. -/
theorem free_setClient : (s.setClient key client').Free p ↔
    (p.client = key ∧ (client'.heap p.connection).busy = false ∧
        client'.getConnectionId p.connection ∈ client'.mFree) ∨
      p.client ≠ key ∧ s.Free p := by
  unfold Free
  rw [lookup_setClient]
  by_cases hk : p.client = key
  · simp [hk]
  · simp [hk]

theorem free_frees {id : Str} {c : Nat} (hc : s.gClients.lookup key = some client) (hid : client.OneId id)
    (hf : client.Frees c client') (hlt : c < client.fresh) (hp : s.Live p) :
    (s.setClient key client').Free p ↔ s.Free p ∨ p = ⟨key, c⟩ ∨ p.client = key ∧ s.Idle p := by
  rw [free_setClient]
  by_cases hk : p.client = key
  swap
  · have hne : p ≠ ⟨key, c⟩ := fun he => hk (congrArg ConnectionPtr.client he)
    simp only [hk, hne, ne_eq, false_and, not_false_eq_true, true_and, false_or, or_false]
  obtain ⟨c', hl, hlt'⟩ := hp
  rw [hk, hc] at hl
  obtain rfl := Option.some.inj hl
  have hsame : client.getConnectionId p.connection = client.getConnectionId c :=
    (hid.same _ hlt').trans (hid.same _ hlt).symm
  have hmem : client'.getConnectionId p.connection ∈ client'.mFree := by
    rw [hf.ids, hf.mFree, hsame]
    exact Finset.mem_insert_self _ _
  have hidle : s.Idle p ↔ (client.heap p.connection).busy = false := by
    unfold Idle
    rw [hk, hc]
    exact ⟨fun ⟨c, hc, h⟩ => by rwa [Option.some.inj hc], fun h => ⟨client, rfl, h⟩⟩
  have hfree : s.Free p → s.Idle p := fun ⟨c, hc, h, _⟩ => ⟨c, hc, h⟩
  have hpc : p = ⟨key, c⟩ ↔ p.connection = c := by
    rw [← hk]
    exact ⟨fun he => congrArg ConnectionPtr.connection he, fun he => by rw [← he]⟩
  rw [hf.busy, hpc]
  constructor
  · rintro (⟨-, hbusy, -⟩ | ⟨hne, -⟩)
    · by_cases he : p.connection = c
      · exact .inr (.inl he)
      · rw [if_neg he] at hbusy
        exact .inr (.inr ⟨hk, hidle.2 hbusy⟩)
    · exact absurd hk hne
  · intro h
    refine .inl ⟨hk, ?_, hmem⟩
    split
    · rfl
    · rename_i he
      rcases h with h | h | h
      · exact hidle.1 (hfree h)
      · exact absurd h he
      · exact hidle.1 h.2

theorem Sound.congr (h : s.Sound) (hg : s'.gClients = s.gClients)
    (hctx : ∀ context ∈ s'.requests, ∀ p ∈ context.connection, s.Live p)
    (hev : ∀ request ∈ s'.evRequests, ∀ p ∈ request.evcon, s.Live p) : s'.Sound := by
  have hlive : ∀ p, s.Live p → s'.Live p := by
    rintro p ⟨c, hl, hlt⟩
    exact ⟨c, by rw [hg]; exact hl, hlt⟩
  exact ⟨by rw [hg]; exact h.ids, fun context hm p hp => hlive p (hctx context hm p hp),
    fun request hm p hp => hlive p (hev request hm p hp)⟩

/-! ### The calls -/

/-- A call leaves the connections there are and, but for those with the id it takes, the free ones free. -/
structure Keeps (taken : ConnectionPtr → Prop) (s s' : Session) : Prop where
  sound : s'.Sound
  live : ∀ p, s.Live p → s'.Live p
  free : ∀ p, s.Live p → s.Free p → ¬ taken p → s'.Free p
  returned : s'.returned = s.returned

theorem Keeps.congr {taken : ConnectionPtr → Prop} (h : s'.Sound) (hg : s'.gClients = s.gClients)
    (hr : s'.returned = s.returned) : Keeps taken s s' where
  sound := h
  live := by
    rintro p ⟨c, hl, hlt⟩
    exact ⟨c, by rw [hg]; exact hl, hlt⟩
  free := by
    rintro p - ⟨c, hl, hf⟩ -
    exact ⟨c, by rw [hg]; exact hl, hf⟩
  returned := hr

theorem Keeps.frees (h : s.Sound) {c : Nat} (hc : s.gClients.lookup key = some client)
    (hf : client.Frees c client') (hlt : c < client.fresh)
    (hone : ∀ id, client.OneId id → client'.OneId id) :
    Keeps (fun _ => False) s (s.setClient key client') where
  sound := by
    obtain ⟨id, hid⟩ := h.ids key client hc
    exact h.setClient hc (hone id hid) hf.fresh.ge
  live p hp := hp.setClient hc hf.fresh.ge
  free p hp hfree _ := by
    obtain ⟨id, hid⟩ := h.ids key client hc
    exact (free_frees hc hid hf hlt hp).2 (.inl hfree)
  returned := rfl

theorem newInstance_spec (h : s.Sound) {hostname : Str} {port : UInt16}
    (hn : s.newInstance hostname port = (s', client)) :
    Keeps (fun _ => False) s s' ∧ s'.gClients.lookup (clientKey hostname port) = some client ∧
      s'.requests = s.requests := by
  unfold Session.newInstance at hn
  cases hl : s.gClients.lookup (clientKey hostname port) with
  | some c =>
    rw [hl] at hn
    obtain ⟨rfl, rfl⟩ := Prod.mk.inj hn
    exact ⟨.congr h rfl rfl, hl, rfl⟩
  | none =>
    rw [hl] at hn
    obtain ⟨rfl, rfl⟩ := Prod.mk.inj hn
    -- the clients that are there stay
    have hkeep : ∀ k c, s.gClients.lookup k = some c →
        (s.gClients.emplace (clientKey hostname port) (.new hostname port)).lookup k = some c := by
      intro k c hk
      by_cases he : k = clientKey hostname port
      · rw [he, hl] at hk; cases hk
      · rw [UnorderedMap.lookup_emplace_ne he]; exact hk
    have hlive : ∀ p, s.Live p → Live { s with
        gClients := s.gClients.emplace (clientKey hostname port) (.new hostname port) } p := by
      rintro p ⟨c, hc, hlt⟩
      exact ⟨c, hkeep _ c hc, hlt⟩
    refine ⟨⟨⟨fun k c hk => ?_, fun context hm p hp => hlive p (h.contexts context hm p hp),
      fun request hm p hp => hlive p (h.evcons request hm p hp)⟩, hlive, ?_, rfl⟩,
      UnorderedMap.lookup_emplace_of_none hl, rfl⟩
    · by_cases he : k = clientKey hostname port
      · rw [he] at hk
        have hk := (UnorderedMap.lookup_emplace_of_none hl).symm.trans hk
        obtain rfl := Option.some.inj hk
        exact ⟨_, .new hostname port⟩
      · exact h.ids k c ((UnorderedMap.lookup_emplace_ne he).symm.trans hk)
    · rintro p - ⟨c, hc, hf⟩ -
      exact ⟨c, hkeep _ c hc, hf⟩

/-- What `open` takes is the id of the connection that its context gets. -/
theorem keeps_open (h : s.Sound) {r : Nat} {uri : EvhttpUri} {first : Str} {ev : Nat}
    (hs : s.open r uri first ev = .ok s') :
    Keeps (fun p => ∃ context ∈ s'.requests[r]?, ∃ q ∈ context.connection, s'.SameId p q) s s' := by
  unfold Session.open at hs
  split at hs
  swap
  · cases hs
  rename_i hr
  dsimp only at hs
  cases hn : s.newInstance uri.host (UInt16.ofInt uri.port) with
  | mk s₁ client =>
    rw [hn] at hs
    obtain ⟨⟨client', c⟩, ho, hs⟩ := Res.of_bind hs
    obtain ⟨h₁, hc, hreq⟩ := newInstance_spec h hn
    generalize clientKey uri.host (UInt16.ofInt uri.port) = key at hc hs
    obtain ⟨id, hid⟩ := h₁.sound.ids _ client hc
    obtain ⟨hid', hlt, -⟩ := hid.open ho
    obtain ⟨hfree, hkeep⟩ := HttpClientImpl.open_frame ho
    have hle := HttpClientImpl.fresh_le_open ho
    have hset := h₁.sound.setClient hc hid' hle
    have hlive : ∀ p, s.Live p → (s₁.setClient key client').Live p :=
      fun p hp => (h₁.live p hp).setClient hc hle
    have hlook : (s₁.setClient key client').gClients.lookup key = some client' := by
      rw [lookup_setClient, if_pos rfl]
    have hctx : s'.requests[r]? = some ⟨some ⟨key, c⟩, some s₁.evRequests.length⟩ := by
      rw [← Except.ok.inj hs]
      exact List.getElem?_set_self (by rw [show (s₁.setClient _ client').requests = s.requests from hreq]; exact hr)
    have hg : s'.gClients = (s₁.setClient key client').gClients := by
      rw [← Except.ok.inj hs]
    refine ⟨?_, ?_, ?_, by rw [← Except.ok.inj hs]; exact h₁.returned⟩
    · refine hset.congr hg (fun context hm p hp => ?_) fun request hm p hp => ?_
      · rw [← Except.ok.inj hs] at hm
        rcases List.mem_or_eq_of_mem_set hm with hm | rfl
        · exact hset.contexts context hm p hp
        · obtain rfl := Option.some.inj hp
          exact ⟨client', hlook, hlt⟩
      · rw [← Except.ok.inj hs] at hm
        rcases List.mem_append.1 hm with hm | hm
        · exact hset.evcons request hm p hp
        · rw [List.mem_singleton.1 hm] at hp; cases hp
    · intro p hp
      obtain ⟨c', hl, hlt'⟩ := hlive p hp
      exact ⟨c', by rw [hg]; exact hl, hlt'⟩
    · intro p hp hpfree hnot
      -- the client has this id, or is another one
      have hfree' : (s₁.setClient key client').Free p := by
        refine free_setClient.2 ?_
        by_cases hk : p.client = key
        swap
        · exact .inr ⟨hk, h₁.free p hp hpfree not_false⟩
        refine absurd ⟨_, hctx, _, rfl, hk, client', by rw [hg]; exact hlook, ?_⟩ hnot
        obtain ⟨c', hc', hlt'⟩ := h₁.live p hp
        rw [hk, hc] at hc'
        obtain rfl := Option.some.inj hc'
        exact (hid'.same _ (lt_of_lt_of_le hlt' hle)).trans (hid'.same _ hlt).symm
      obtain ⟨c', hl, hf⟩ := hfree'
      exact ⟨c', by rw [hg]; exact hl, hf⟩

theorem send_cases {r : Nat} (hs : s.send r = .ok s') :
    ∃ context ∈ s.requests, ∃ p ∈ context.connection, ∃ e,
      s' = { s with evRequests := s.evRequests.set e ⟨r, .sent, some p⟩ } := by
  unfold Session.send at hs
  split at hs
  · cases hs
  rename_i context hcontext
  split at hs
  swap
  · cases hs
  rename_i e p he hp
  split at hs
  · cases hs
  split at hs
  · cases hs
  split at hs
  · exact ⟨context, List.mem_of_getElem? hcontext, p, hp, e, (Except.ok.inj hs).symm⟩
  · cases hs

theorem keeps_send (h : s.Sound) {r : Nat} (hs : s.send r = .ok s') : Keeps (fun _ => False) s s' := by
  obtain ⟨context, hm, p, hp, e, rfl⟩ := send_cases hs
  refine .congr (h.congr rfl h.contexts fun request hr q hq => ?_) rfl rfl
  rcases List.mem_or_eq_of_mem_set hr with hr | rfl
  · exact h.evcons request hr q hq
  · obtain rfl := Option.some.inj hq
    exact h.contexts context hm _ hp

theorem evConnectionClosed_cases (hs : s.evConnectionClosed p = .ok s') :
    ∃ client, s.gClients.lookup p.client = some client ∧ p.connection < client.fresh ∧
      s' = s.setClient p.client (client.evConnectionClosed p.connection) := by
  unfold Session.evConnectionClosed at hs
  cases hl : s.gClients.lookup p.client with
  | none => rw [hl] at hs; cases hs
  | some client =>
    rw [hl] at hs
    dsimp only at hs
    split at hs
    · rename_i hc; exact ⟨client, rfl, hc.1, (Except.ok.inj hs).symm⟩
    · cases hs

theorem keeps_evConnectionClosed (h : s.Sound) (hs : s.evConnectionClosed p = .ok s') :
    Keeps (fun _ => False) s s' := by
  obtain ⟨client, hl, hlt, rfl⟩ := evConnectionClosed_cases hs
  exact .frees h hl HttpClientImpl.frees_evConnectionClosed hlt fun id hid => hid.evConnectionClosed hlt

theorem complete_cases {e : Nat} {req : Option EvhttpReply} {response : HttpResponse}
    (hs : s.complete e req = .ok (s', response)) :
    ∃ r evcon context, s.evRequests[e]? = some ⟨r, .sent, evcon⟩ ∧ s.requests[r]? = some context ∧
      (req = none ∧ s' = { s with evRequests := s.evRequests.set e ⟨r, .done, evcon⟩ } ∨
        ∃ q client, req ≠ none ∧ context.connection = some q ∧ s.gClients.lookup q.client = some client ∧
          s' = { s.setClient q.client (client.close q.connection) with
            evRequests := s.evRequests.set e ⟨r, .done, evcon⟩ }) := by
  unfold complete at hs
  split at hs
  swap
  · cases hs
  rename_i r evcon he
  split at hs
  · cases hs
  rename_i context hr
  refine ⟨r, evcon, context, he, hr, ?_⟩
  unfold evHttpReqDone at hs
  cases req with
  | none =>
    obtain ⟨rfl, -⟩ := Prod.mk.inj (Except.ok.inj hs)
    exact .inl ⟨rfl, rfl⟩
  | some reply =>
    dsimp only at hs
    split at hs
    · cases hs
    rename_i q hq
    obtain ⟨s₂, hrel, hs⟩ := Res.of_bind hs
    obtain ⟨rfl, -⟩ := Prod.mk.inj (Except.ok.inj hs)
    unfold release at hrel
    split at hrel
    · cases hrel
    rename_i client hl
    obtain rfl := Except.ok.inj hrel
    exact .inr ⟨q, client, nofun, hq, hl, rfl⟩

theorem keeps_complete (h : s.Sound) {e : Nat} {req : Option EvhttpReply} {response : HttpResponse}
    (hs : s.complete e req = .ok (s', response)) : Keeps (fun _ => False) s s' := by
  obtain ⟨r, evcon, context, he, hr, hcases⟩ := complete_cases hs
  have hev : ∀ request ∈ s.evRequests.set e ⟨r, .done, evcon⟩, ∀ p ∈ request.evcon, s.Live p := by
    intro request hm p hp
    rcases List.mem_or_eq_of_mem_set hm with hm | rfl
    · exact h.evcons request hm p hp
    · exact h.evcons _ (List.mem_of_getElem? he) p hp
  obtain ⟨-, rfl⟩ | ⟨q, client, -, hq, hl, rfl⟩ := hcases
  · exact .congr (h.congr rfl h.contexts hev) rfl rfl
  · obtain ⟨c, hc, hlt⟩ := h.contexts context (List.mem_of_getElem? hr) q hq
    obtain rfl : client = c := Option.some.inj (hl.symm.trans hc)
    have hk := Keeps.frees h hl HttpClientImpl.frees_close hlt fun id hid => hid.close hlt
    refine ⟨hk.sound.congr rfl hk.sound.contexts fun request hm p hp => ?_, hk.live, hk.free, rfl⟩
    exact hk.live p (hev request hm p hp)

/-- After the callback of a request its connection is free iff it was to come back. -/
theorem free_complete_iff (h : s.Sound) {e : Nat} {req : Option EvhttpReply} {response : HttpResponse}
    (hs : s.complete e req = .ok (s', response)) {request : EvhttpRequest} (he : s.evRequests[e]? = some request)
    (hp : request.evcon = some p) {context : RequestContext} (hr : s.requests[request.arg]? = some context) :
    s'.Free p ↔ s.ComesBack p context req := by
  obtain ⟨r, evcon, context', he', hr', hcases⟩ := complete_cases hs
  obtain rfl := Option.some.inj (he.symm.trans he')
  obtain rfl := Option.some.inj (hr.symm.trans hr')
  have hlive := h.evcons _ (List.mem_of_getElem? he) p hp
  obtain ⟨rfl, rfl⟩ | ⟨q, client, hreq, hq, hl, rfl⟩ := hcases
  · exact ⟨.inl, fun hb => hb.resolve_right fun hn => hn.1 rfl⟩
  · obtain ⟨c, hc, hlt⟩ := h.contexts context (List.mem_of_getElem? hr) q hq
    obtain rfl : client = c := Option.some.inj (hl.symm.trans hc)
    obtain ⟨id, hid⟩ := h.ids q.client client hl
    refine (free_frees hl hid HttpClientImpl.frees_close hlt hlive).trans ?_
    unfold ComesBack
    rw [hq]
    refine or_congr_right ⟨fun hb => ⟨hreq, q, rfl, ?_⟩, ?_⟩
    · rcases hb with rfl | ⟨hk, hi⟩
      · exact .inl rfl
      · exact .inr ⟨hk.symm, hi⟩
    · rintro ⟨-, q', hq', hb⟩
      obtain rfl := Option.some.inj hq'
      rcases hb with rfl | ⟨hk, hi⟩
      · exact .inl rfl
      · exact .inr ⟨hk.symm, hi⟩

/-! ### The steps -/

theorem Keeps.inv {taken : ConnectionPtr → Prop} (hk : Keeps taken s s') (h : s.Inv) {ret : Finset ConnectionPtr}
    (hret : ∀ p ∈ ret, p ∈ s.returned ∧ ¬ taken p ∨ s.Live p ∧ s'.Free p) :
    Inv { s' with returned := ret } where
  ids := hk.sound.ids
  contexts := hk.sound.contexts
  evcons := hk.sound.evcons
  live p hp := by
    rcases hret p hp with ⟨hm, -⟩ | ⟨hl, -⟩
    · exact hk.live p (h.live p hm)
    · exact hk.live p hl
  returned p hp := by
    rcases hret p hp with ⟨hm, hn⟩ | ⟨-, hf⟩
    · exact hk.free p (h.live p hm) (h.returned p hm) hn
    · exact hf

theorem keeps_make (h : s.Sound) : Keeps (fun _ => False) s { s with requests := s.requests ++ [⟨none, none⟩] } := by
  refine .congr (h.congr rfl (fun context hm p hp => ?_) h.evcons) rfl rfl
  rcases List.mem_append.1 hm with hm | hm
  · exact h.contexts context hm p hp
  · rw [List.mem_singleton.1 hm] at hp; cases hp

theorem act_done {e : Nat} {req : Option EvhttpReply} (hs : s.act (.done e req) = .ok s') :
    ∃ response, s.complete e req = .ok (s', response) := by
  have hs : (s.complete e req).map Prod.fst = .ok s' := hs
  cases hc : s.complete e req with
  | error f => rw [hc] at hs; cases hs
  | ok x =>
    rw [hc] at hs
    obtain rfl := Except.ok.inj hs
    exact ⟨x.2, rfl⟩

theorem step_cases {a : Action} (hs : s.step a = .ok s') :
    ∃ s₁, s.act a = .ok s₁ ∧ s' = { s₁ with returned := s.returnedBy s₁ a } := by
  obtain ⟨s₁, hact, hs⟩ := Res.of_bind hs
  exact ⟨s₁, hact, (Except.ok.inj hs).symm⟩

theorem Sound.act {a : Action} (h : s.Sound) (hs : s.act a = .ok s') : s'.Sound := by
  cases a with
  | make =>
    obtain rfl := Except.ok.inj hs
    exact (keeps_make h).sound
  | «open» r uri first ev => exact (keeps_open h hs).sound
  | send r => exact (keeps_send h hs).sound
  | done e req =>
    obtain ⟨response, hc⟩ := act_done hs
    exact (keeps_complete h hc).sound
  | closed q => exact (keeps_evConnectionClosed h hs).sound

/-- What a completed request adds is the connection it was made on. -/
theorem mem_returnedBy_done {e : Nat} {req : Option EvhttpReply} :
    p ∈ s.returnedBy s' (.done e req) ↔ p ∈ s.returned ∨ ∃ request ∈ s.evRequests[e]?, p ∈ request.evcon := by
  show p ∈ s.returned ∪ _ ↔ _
  rw [Finset.mem_union]
  cases s.evRequests[e]? with
  | none => simp
  | some request => cases hev : request.evcon <;> simp [hev, eq_comm]

theorem Inv.step {a : Action} (h : s.Inv) (hf : s.CompletesFree a) (hs : s.step a = .ok s') : s'.Inv := by
  obtain ⟨s₁, hact, rfl⟩ := step_cases hs
  cases a with
  | make =>
    obtain rfl := Except.ok.inj hact
    exact (keeps_make h.toSound).inv h fun p hp => .inl ⟨hp, id⟩
  | «open» r uri first ev =>
    exact (keeps_open h.toSound hact).inv h fun p hp => .inl (Finset.mem_filter.1 hp)
  | send r => exact (keeps_send h.toSound hact).inv h fun p hp => .inl ⟨hp, id⟩
  | closed q => exact (keeps_evConnectionClosed h.toSound hact).inv h fun p hp => .inl ⟨hp, id⟩
  | done e req =>
    obtain ⟨response, hc⟩ := act_done hact
    refine (keeps_complete h.toSound hc).inv h fun p hp => ?_
    rcases mem_returnedBy_done.1 hp with hp | ⟨request, he, hp⟩
    · exact .inl ⟨hp, id⟩
    · obtain ⟨r, evcon, context, he', hr, -⟩ := complete_cases hc
      obtain rfl := Option.some.inj (he.symm.trans he')
      exact .inr ⟨h.evcons _ (List.mem_of_getElem? he) p hp,
        (free_complete_iff h.toSound hc he hp hr).2 (hf _ he context hr p hp)⟩

/-- A completed request whose connection has come back had one that was to. -/
theorem completesFree_of_returned {a : Action} (h : s.Inv) (hs : s.step a = .ok s') (hret : s'.Returned) :
    s.CompletesFree a := by
  cases a with
  | make | «open» | send | closed => trivial
  | done e req =>
    obtain ⟨s₁, hact, rfl⟩ := step_cases hs
    obtain ⟨response, hc⟩ := act_done hact
    intro request he context hr p hp
    refine (free_complete_iff h.toSound hc he hp hr).1 ?_
    have hm : p ∈ s.returnedBy s₁ (.done e req) := mem_returnedBy_done.2 (.inr ⟨request, he, hp⟩)
    exact hret p hm

/-- In the states of a run the connections of the completed requests have come back iff every request
of it that completes has one that is free already or that its response gives back. -/
theorem eachState_returned_iff (tr : List (Action × Session)) (hrun : Run (Ok step) new tr) :
    EachState Returned new tr ↔ EachStep CompletesFree new tr :=
  Run.eachState_iff (fun _ h => h.returned) (fun _ _ _ h hc hs => h.step hc hs)
    (fun _ _ _ h hs hret => completesFree_of_returned h hs hret) Inv.new hrun

/-- A request that gets a response, and then one that fails when the peer has closed the connection. -/
theorem returned_response_and_close :
    ∃ tr, exec step new
        [.make, .open 0 ⟨"127.0.0.1".toList, 80⟩ [] 0, .send 0, .done 0 (some ⟨200, none, []⟩),
          .open 0 ⟨"127.0.0.1".toList, 80⟩ "127.0.0.1:80:".toList 1, .send 0,
          .closed ⟨"127.0.0.1:80".toList, 0⟩, .done 1 none] = .ok tr ∧
      EachState Returned new tr := by
  have hg : Goes step CompletesFree (fun _ => True) new
      [.make, .open 0 ⟨"127.0.0.1".toList, 80⟩ [] 0, .send 0, .done 0 (some ⟨200, none, []⟩),
        .open 0 ⟨"127.0.0.1".toList, 80⟩ "127.0.0.1:80:".toList 1, .send 0,
        .closed ⟨"127.0.0.1:80".toList, 0⟩, .done 1 none] := by decide
  obtain ⟨tr, htr, hc, -⟩ := hg.exec
  exact ⟨tr, htr, (eachState_returned_iff tr (Run.of_exec htr)).2 hc⟩

/-- The connection is refused: libevent calls back with null, and nothing else. And an `HttpRequest` is opened
and sent again before its response: both responses release the second connection, the first stays busy. -/
theorem not_returned_refused :
    (∃ tr, exec step new [.make, .open 0 ⟨"127.0.0.1".toList, 80⟩ [] 0, .send 0, .done 0 none] = .ok tr ∧
        ¬ EachState Returned new tr) ∧
      ∃ tr, exec step new [.make, .open 0 ⟨"127.0.0.1".toList, 80⟩ [] 0, .send 0,
          .open 0 ⟨"127.0.0.1".toList, 80⟩ [] 1, .send 0, .done 0 (some ⟨200, none, []⟩),
          .done 1 (some ⟨200, none, []⟩)] = .ok tr ∧ ¬ EachState Returned new tr := by
  have hr : Goes step (fun _ _ => True) (fun s => ∃ p ∈ s.returned, ¬ s.Free p) new
      [.make, .open 0 ⟨"127.0.0.1".toList, 80⟩ [] 0, .send 0, .done 0 none] := by decide
  have ho : Goes step (fun _ _ => True) (fun s => ∃ p ∈ s.returned, ¬ s.Free p) new
      [.make, .open 0 ⟨"127.0.0.1".toList, 80⟩ [] 0, .send 0, .open 0 ⟨"127.0.0.1".toList, 80⟩ [] 1, .send 0,
        .done 0 (some ⟨200, none, []⟩), .done 1 (some ⟨200, none, []⟩)] := by decide
  refine ⟨?_, ?_⟩
  · obtain ⟨tr, htr, -, s, ⟨p, hp, hf⟩, hs⟩ := hr.exec
    exact ⟨tr, htr, fun h => hf (hs _ h p hp)⟩
  · obtain ⟨tr, htr, -, s, ⟨p, hp, hf⟩, hs⟩ := ho.exec
    exact ⟨tr, htr, fun h => hf (hs _ h p hp)⟩

end Session

end ChCppUtils.Http.Client
