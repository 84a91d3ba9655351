import ChCppUtils.Http.Client

/-!
# One holder a connection

`Exclusive`: no connection has two holders and no free id leads to a connection somebody holds, so
`open` does not return one either. The map leads from the only id there is to the first connection
of the client. Whoever releases any other connection marks that one free, held or not; a run is
exclusive exactly when no step does that while another holder has it (`eachState_exclusive_iff`).
-/

namespace ChCppUtils.Http.Client

open Runs

namespace Pool

/-- Ticket number `t` is held on a connection. -/
def Holds (s : Pool) (t connection : Nat) : Prop := s.tickets[t]? = some ⟨connection, .held⟩

/-- The connection a free id of this connection would lead to. -/
def stored (s : Pool) (connection : Nat) : Option Nat :=
  s.client.mConnections.lookup (s.client.getConnectionId connection)

structure Exclusive (s : Pool) : Prop where
  once : ∀ t u connection, s.Holds t connection → s.Holds u connection → t = u
  free : ∀ id ∈ s.client.mFree, ∀ connection, s.client.mConnections.lookup id = some connection →
    ∀ t, ¬ s.Holds t connection

/-- The step frees an id that leads to no connection another holder has. -/
def Alone (s : Pool) : Action → Prop
  | .open _ _ => True
  | .release t => ∀ tk ∈ s.tickets[t]?, ∀ c ∈ s.stored tk.connection,
    ∀ u < s.tickets.length, s.Holds u c → u = t
  | .peerClosed connection => ∀ c ∈ s.stored connection,
    ∀ u < s.tickets.length, s.Holds u c → c = connection

instance (s : Pool) (t connection : Nat) : Decidable (s.Holds t connection) :=
  inferInstanceAs (Decidable (_ = _))

instance (s : Pool) : ∀ a, Decidable (s.Alone a)
  | .open _ _ => inferInstanceAs (Decidable True)
  | .release t => inferInstanceAs (Decidable (∀ tk ∈ s.tickets[t]?, ∀ c ∈ s.stored tk.connection,
    ∀ u < s.tickets.length, s.Holds u c → u = t))
  | .peerClosed connection => inferInstanceAs (Decidable (∀ c ∈ s.stored connection,
    ∀ u < s.tickets.length, s.Holds u c → c = connection))

/-- What the id says, beside `Exclusive`: all connections have the one `id`, and it is entered with
the first of them. -/
structure Inv (id : Str) (s : Pool) : Prop where
  exclusive : s.Exclusive
  newId : s.client.newId = id
  same : ∀ c < s.client.fresh, s.client.getConnectionId c = id
  entered : s.client.mConnections.lookup id = if s.client.fresh = 0 then none else some 0
  free_sub : ∀ x ∈ s.client.mFree, x = id
  live : ∀ tk ∈ s.tickets, tk.connection < s.client.fresh

variable {s s' : Pool} {id : Str}

/-! ### The steps -/

theorem holds_append {s : Pool} {client : HttpClientImpl} {connection t c : Nat} :
    Holds ⟨client, s.tickets ++ [⟨connection, .held⟩]⟩ t c ↔
      s.Holds t c ∨ t = s.tickets.length ∧ c = connection := by
  unfold Holds
  rcases Nat.lt_trichotomy t s.tickets.length with h | h | h
  · rw [List.getElem?_append_left h]
    constructor
    · exact .inl
    · rintro (h' | ⟨rfl, -⟩)
      · exact h'
      · omega
  · subst h
    simp [eq_comm]
  · rw [List.getElem?_append_right h.le]
    have h1 : [(⟨connection, .held⟩ : Ticket)][t - s.tickets.length]? = none := by
      rw [List.getElem?_eq_none_iff]; simp; omega
    rw [h1, List.getElem?_eq_none_iff.2 h.le]
    simp
    omega

theorem holds_set {client : HttpClientImpl} {t u c : Nat} {tk : Ticket}  :
    Holds ⟨client, s.tickets.set t { tk with checkout := .released }⟩ u c ↔ u ≠ t ∧ s.Holds u c := by
  unfold Holds
  by_cases h : u = t
  · subst h
    by_cases hlt : u < s.tickets.length
    · simp [List.getElem?_set_self hlt]
    · rw [List.getElem?_eq_none_iff.2 (by simp; omega)]; simp
  · rw [List.getElem?_set_ne (Ne.symm h)]; simp [h]

theorem holds_map {client : HttpClientImpl} {connection u c : Nat} :
    Holds ⟨client, s.tickets.map (·.peerClosed connection)⟩ u c ↔ c ≠ connection ∧ s.Holds u c := by
  unfold Holds
  rw [List.getElem?_map]
  cases s.tickets[u]? with
  | none => simp
  | some tk =>
    obtain ⟨c', st⟩ := tk
    by_cases h : c' = connection ∧ st = .held
    · obtain ⟨rfl, rfl⟩ := h
      simp [Ticket.peerClosed, eq_comm]
    · rw [Option.map_some, Ticket.peerClosed, if_neg h]
      simp only [Option.some.injEq, Ticket.mk.injEq]
      constructor
      · rintro ⟨rfl, rfl⟩; exact ⟨fun hc => h ⟨hc, rfl⟩, rfl, rfl⟩
      · rintro ⟨-, rfl, rfl⟩; exact ⟨rfl, rfl⟩

theorem Holds.mem {t c : Nat} (h : s.Holds t c) : ⟨c, .held⟩ ∈ s.tickets := List.mem_of_getElem? h

theorem Holds.lt {t c : Nat} (h : s.Holds t c) : t < s.tickets.length := (List.getElem?_eq_some_iff.1 h).1

theorem Inv.sound (h : s.Inv id) : s.Sound id := ⟨⟨h.newId, h.same, h.entered, h.free_sub⟩, h.live⟩

theorem Sound.inv (h : s.Sound id) (he : s.Exclusive) : s.Inv id :=
  ⟨he, h.oneId.newId, h.oneId.same, h.oneId.entered, h.oneId.free_sub, h.live⟩

theorem Inv.new (hostname : Str) (port : UInt16) :
    Inv (HttpConnection.new hostname port).getConnectionId (new hostname port) :=
  (Sound.new hostname port).inv
    ⟨fun t u c h => absurd h (by simp [Holds, Pool.new]), fun id h => absurd h (Finset.notMem_empty id)⟩

theorem Inv.stored_eq (h : s.Inv id) {c : Nat} (hc : c < s.client.fresh) : s.stored c = some 0 := by
  rw [stored, h.same c hc, h.entered, if_neg (by omega)]

/-- `open` returns a connection that nobody holds, and leaves no free id. -/
theorem Inv.open {first : Str} {ev connection : Nat} {client : HttpClientImpl} (h : s.Inv id)
    (ho : s.client.open first ev = .ok (client, connection)) :
    Exclusive ⟨client, s.tickets ++ [⟨connection, .held⟩]⟩ := by
  obtain ⟨-, -, hempty⟩ := h.sound.oneId.open ho
  have hnone : ∀ t, ¬ s.Holds t connection := by
    intro t ht
    obtain ⟨c₁, ha, -⟩ := HttpClientImpl.open_cases ho
    by_cases hf : s.client.mFree.Nonempty
    · obtain ⟨hfirst, hl, -⟩ := HttpClientImpl.acquire_free ha hf
      exact h.exclusive.free first hfirst connection hl t ht
    · obtain ⟨rfl, -, -⟩ := HttpClientImpl.acquire_new ha hf
      exact absurd (h.live _ ht.mem) (Nat.lt_irrefl _)
  refine ⟨fun t u c ht hu => ?_, fun x hx => absurd (hempty ▸ hx) (Finset.notMem_empty x)⟩
  rcases holds_append.1 ht with ht | ⟨rfl, rfl⟩ <;> rcases holds_append.1 hu with hu | ⟨rfl, hc⟩
  · exact h.exclusive.once t u c ht hu
  · exact absurd (hc ▸ ht) (hnone t)
  · exact absurd hu (hnone u)
  · rfl

/-- A step that frees the id of a connection leaves the pool exclusive where nobody holds the
connection the id leads to any more. -/
theorem Inv.freed (h : s.Inv id) (h' : s'.Sound id) (hholds : ∀ t c, s'.Holds t c → s.Holds t c)
    (hnone : ∀ t, ¬ s'.Holds t 0) : s'.Exclusive := by
  refine ⟨fun t u c ht hu => h.exclusive.once t u c (hholds t c ht) (hholds u c hu), fun x hx c hl => ?_⟩
  obtain ⟨-, rfl⟩ := h'.oneId.lt_of_free hx hl
  exact hnone

/-! ### Runs -/

theorem Inv.alone_release (h : s.Inv id) {t : Nat} {tk : Ticket} (ht : s.tickets[t]? = some tk) :
    s.Alone (.release t) ↔ ∀ u, s.Holds u 0 → u = t := by
  have hst := h.stored_eq (h.live tk (List.mem_of_getElem? ht))
  constructor
  · intro ha u hu
    exact ha tk ht 0 hst u hu.lt hu
  · intro ha tk' ht' c hc u _ hu
    obtain rfl : tk = tk' := Option.some.inj (ht.symm.trans ht')
    obtain rfl : 0 = c := Option.some.inj (hst.symm.trans hc)
    exact ha u hu

theorem Inv.alone_peerClosed (h : s.Inv id) {connection : Nat} (hc : connection < s.client.fresh) :
    s.Alone (.peerClosed connection) ↔ ∀ u, s.Holds u 0 → 0 = connection := by
  have hst := h.stored_eq hc
  constructor
  · intro ha u hu
    exact ha 0 hst u hu.lt hu
  · intro ha c hc' u _ hu
    obtain rfl : 0 = c := Option.some.inj (hst.symm.trans hc')
    exact ha u hu

theorem Inv.step {a : Action} (h : s.Inv id) (ha : s.Alone a) (hs : s.step a = .ok s') : s'.Inv id := by
  have hsound := h.sound.step hs
  refine hsound.inv ?_
  cases a with
  | «open» first ev =>
    obtain ⟨client, connection, ho, rfl⟩ := step_open hs
    exact h.open ho
  | release t =>
    obtain ⟨tk, ht, rfl⟩ := step_release hs
    exact h.freed hsound (fun u c hu => (holds_set.1 hu).2) fun u hu =>
      (holds_set.1 hu).1 ((h.alone_release ht).1 ha u (holds_set.1 hu).2)
  | peerClosed connection =>
    obtain ⟨hlt, rfl⟩ := step_peerClosed hs
    exact h.freed hsound (fun u c hu => (holds_map.1 hu).2) fun u hu =>
      (holds_map.1 hu).1 ((h.alone_peerClosed hlt).1 ha u (holds_map.1 hu).2)

/-- A step after which the pool is exclusive has freed no id of a connection that somebody holds. -/
theorem Inv.alone {a : Action} (h : s.Inv id) (hs : s.step a = .ok s') (he : s'.Exclusive) : s.Alone a := by
  cases a with
  | «open» first ev => trivial
  | release t =>
    obtain ⟨tk, ht, rfl⟩ := step_release hs
    have hlt := h.live tk (List.mem_of_getElem? ht)
    refine (h.alone_release ht).2 fun u hu => ?_
    by_contra hne
    have hmem : s.client.getConnectionId tk.connection ∈ (s.client.close tk.connection).mFree := by
      rw [HttpClientImpl.mFree_close]; exact Finset.mem_insert_self _ _
    exact he.free _ hmem 0 (h.stored_eq hlt) u (holds_set.2 ⟨hne, hu⟩)
  | peerClosed connection =>
    obtain ⟨hlt, rfl⟩ := step_peerClosed hs
    refine (h.alone_peerClosed hlt).2 fun u hu => ?_
    by_contra hne
    have hmem : s.client.getConnectionId connection ∈ (s.client.evConnectionClosed connection).mFree := by
      rw [HttpClientImpl.mFree_evConnectionClosed]; exact Finset.mem_insert_self _ _
    exact he.free _ hmem 0 (h.stored_eq hlt) u (holds_map.2 ⟨hne, hu⟩)

/-- The states of a run are exclusive iff none of its steps frees the id while a holder other than
the one that goes has the connection it leads to. -/
theorem eachState_exclusive_iff (hostname : Str) (port : UInt16) (tr : List (Action × Pool))
    (hrun : Run (Ok step) (new hostname port) tr) :
    EachState Exclusive (new hostname port) tr ↔ EachStep Alone (new hostname port) tr :=
  Run.eachState_iff (fun _ h => h.exclusive) (fun _ _ _ h hc hs => h.step hc hs)
    (fun _ _ _ h hs he => h.alone hs he) (Inv.new hostname port) hrun

/-- One after the other: each request releases its connection before the next one opens. -/
theorem exclusive_one_after_the_other :
    ∃ tr, exec step (new "127.0.0.1".toList 80)
        [.open [] 0, .release 0, .open "127.0.0.1:80:".toList 1, .release 1] = .ok tr ∧
      EachState Exclusive (new "127.0.0.1".toList 80) tr := by
  have hg : Goes step Alone (fun _ => True) (new "127.0.0.1".toList 80)
      [.open [] 0, .release 0, .open "127.0.0.1:80:".toList 1, .release 1] := by decide
  obtain ⟨tr, htr, hc, -⟩ := hg.exec
  exact ⟨tr, htr, (eachState_exclusive_iff _ _ tr (Run.of_exec htr)).2 hc⟩

/-- Two requests at a time: the second one releases the second connection, and the next `open` returns
the first one, which its holder still has. -/
theorem not_exclusive_two_at_a_time :
    ∃ tr, exec step (new "127.0.0.1".toList 80)
        [.open [] 0, .open [] 1, .release 1, .open "127.0.0.1:80:".toList 2] = .ok tr ∧
      ¬ EachState Exclusive (new "127.0.0.1".toList 80) tr := by
  have hg : Goes step (fun _ _ => True) (fun s => s.Holds 0 0 ∧ s.Holds 2 0) (new "127.0.0.1".toList 80)
      [.open [] 0, .open [] 1, .release 1, .open "127.0.0.1:80:".toList 2] := by decide
  obtain ⟨tr, htr, -, s, ⟨h0, h2⟩, hs⟩ := hg.exec
  exact ⟨tr, htr, fun h => absurd ((hs _ h).once 0 2 0 h0 h2) (by decide)⟩

end Pool

end ChCppUtils.Http.Client
