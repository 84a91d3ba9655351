import ChCppUtils.Http.Client

/-!
# Free ids and stored connections

The connections that `open` has returned may be closed, by their holders and by the peer, in any order and
any number of times. The only id that gets free that way is the one of the client, and it is in the map
since the first connection was made: a free id leads to a connection (`free_resolves`).
-/

namespace ChCppUtils.Http.Client

open Runs

/-- A client with the connections that its `open` has returned. -/
structure Opened where
  client : HttpClientImpl
  returned : List Nat

namespace Opened

def new (hostname : Str) (port : UInt16) : Opened := ⟨.new hostname port, []⟩

/-- A call with a connection that `open` has returned. -/
def call (s : Opened) (connection : Nat) (f : HttpClientImpl → HttpClientImpl) : Res Opened :=
  if connection ∈ s.returned then pure { s with client := f s.client } else throw .badAnswer

inductive Action where
  | «open» (first : Str) (ev : Nat)
  | close (connection : Nat)
  | evConnectionClosed (connection : Nat)

def step (s : Opened) : Action → Res Opened
  | .open first ev => do
    let (client, connection) ← s.client.open first ev
    return ⟨client, connection :: s.returned⟩
  | .close connection => s.call connection (·.close connection)
  | .evConnectionClosed connection => s.call connection (·.evConnectionClosed connection)

variable {s s' : Opened}

theorem step_open {first : Str} {ev : Nat} (h : s.step (.open first ev) = .ok s') :
    ∃ client connection, s.client.open first ev = .ok (client, connection) ∧
      s' = ⟨client, connection :: s.returned⟩ := by
  obtain ⟨⟨client, connection⟩, ho, h⟩ := Res.of_bind h
  exact ⟨client, connection, ho, (Except.ok.inj h).symm⟩

theorem call_cases {connection : Nat} {f : HttpClientImpl → HttpClientImpl} (h : s.call connection f = .ok s') :
    connection ∈ s.returned ∧ s' = { s with client := f s.client } := by
  unfold call at h
  split at h
  · rename_i hc; exact ⟨hc, (Except.ok.inj h).symm⟩
  · cases h

/-- There is a free id only after a connection has been made, and so entered. -/
structure Inv (id : Str) (s : Opened) : Prop where
  oneId : s.client.OneId id
  made : ∀ c ∈ s.returned, c < s.client.fresh
  freed : s.client.mFree.Nonempty → s.client.fresh ≠ 0

variable {id : Str}

theorem Inv.new (hostname : Str) (port : UInt16) :
    Inv (HttpConnection.new hostname port).getConnectionId (new hostname port) where
  oneId := .new hostname port
  made _ h := absurd h List.not_mem_nil
  freed h := absurd h Finset.not_nonempty_empty

theorem Inv.step {a : Action} (h : s.Inv id) (hs : s.step a = .ok s') : s'.Inv id := by
  cases a with
  | «open» first ev =>
    obtain ⟨client, connection, ho, rfl⟩ := step_open hs
    obtain ⟨hone, hlt, hempty⟩ := h.oneId.open ho
    refine ⟨hone, fun c hc => ?_, fun hf => ?_⟩
    · rcases List.mem_cons.1 hc with rfl | hc
      · exact hlt
      · exact lt_of_lt_of_le (h.made c hc) (HttpClientImpl.fresh_le_open ho)
    · exact absurd hempty hf.ne_empty
  | close connection =>
    obtain ⟨hc, rfl⟩ := call_cases (f := (·.close connection)) hs
    have hlt := h.made connection hc
    exact ⟨h.oneId.close hlt, h.made, fun _ => Nat.ne_zero_of_lt hlt⟩
  | evConnectionClosed connection =>
    obtain ⟨hc, rfl⟩ := call_cases (f := (·.evConnectionClosed connection)) hs
    have hlt := h.made connection hc
    exact ⟨h.oneId.evConnectionClosed hlt, h.made, fun _ => Nat.ne_zero_of_lt hlt⟩

theorem Inv.mem_mConnections (h : s.Inv id) {x : Str} (hx : x ∈ s.client.mFree) : x ∈ s.client.mConnections := by
  have hentered := h.oneId.entered
  rw [if_neg (h.freed ⟨x, hx⟩)] at hentered
  rw [h.oneId.free_sub x hx]
  exact UnorderedMap.mem_of_lookup hentered

end Opened

/-- `open` follows the end iterator only from a free id that is not stored. -/
theorem HttpClientImpl.open_ne_endDeref {this : HttpClientImpl} (h : ∀ id ∈ this.mFree, id ∈ this.mConnections)
    (first : Str) (ev : Nat) : this.open first ev ≠ .error .endDeref := by
  unfold HttpClientImpl.open acquire
  split
  · split
    · rename_i hfirst
      obtain ⟨connection, hl⟩ := UnorderedMap.exists_lookup (h first hfirst)
      rw [hl]
      exact fun he => nomatch he
    · exact fun he => nomatch he
  · exact fun he => nomatch he

namespace Opened

/-- Every free id is in the map, so `open` follows no end iterator, whichever free id it takes. -/
theorem free_resolves (hostname : Str) (port : UInt16) {s : Opened} (h : Reach (Ok step) (new hostname port) s) :
    (∀ id ∈ s.client.mFree, id ∈ s.client.mConnections) ∧
      ∀ first ev, s.client.open first ev ≠ .error .endDeref := by
  have hinv := h.invariant (Inv.new hostname port) fun _ _ _ hi hs => hi.step hs
  have hmem : ∀ id ∈ s.client.mFree, id ∈ s.client.mConnections := fun _ hid => hinv.mem_mConnections hid
  exact ⟨hmem, HttpClientImpl.open_ne_endDeref hmem⟩

/-- Two connections, both closed, the second by the peer as well. -/
theorem free_resolves_closed_twice : ∃ s, Reach (Ok step) (new "127.0.0.1".toList 80) s ∧
    s.client.mFree = {"127.0.0.1:80:".toList} ∧ ∀ id ∈ s.client.mFree, id ∈ s.client.mConnections := by
  have hg : Goes step (fun _ _ => True) (fun s => s.client.mFree = {"127.0.0.1:80:".toList})
      (new "127.0.0.1".toList 80)
      [.open [] 0, .open [] 1, .close 1, .evConnectionClosed 1, .close 0] := by decide
  obtain ⟨s, hr, hfree⟩ := hg.reach_ok
  exact ⟨s, hr, hfree, (free_resolves _ _ hr).1⟩

end Opened

end ChCppUtils.Http.Client
