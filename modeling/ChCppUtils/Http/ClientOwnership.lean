import ChCppUtils.Http.FreeIds

/-!
# Who deletes the connections

`closeConnctions` deletes what `mConnections` has. All connections of a client have one id, and
`insert` keeps the entry that is there, so only the first connection is ever entered: the states of a
run own all their connections exactly when no `open` makes a second one (`eachState_owned_iff`).
-/

namespace ChCppUtils.Http.Client

open Runs

namespace Opened

/-- Every connection that has been made is stored, and the destructor deletes it once. -/
structure Owned (s : Opened) : Prop where
  stored : ∀ c < s.client.fresh, ∃ id, s.client.mConnections.lookup id = some c
  deleted : ∀ c < s.client.fresh, s.client.closeConnctions.2.count c = 1

/-- An `open` that makes a connection finds its id free in the map. -/
def Unentered (s : Opened) : Action → Prop
  | .open _ _ => s.client.mFree = ∅ → s.client.newId ∉ s.client.mConnections
  | .close _ | .evConnectionClosed _ => True

instance (s : Opened) : ∀ a, Decidable (s.Unentered a)
  | .open _ _ => inferInstanceAs (Decidable (_ → _))
  | .close _ | .evConnectionClosed _ => inferInstanceAs (Decidable True)

variable {s s' : Opened} {id : Str}

/-- The one id is the only one in the map. -/
structure Filed (id : Str) (s : Opened) : Prop where
  inv : s.Inv id
  only : ∀ x ∈ s.client.mConnections, x = id

theorem Filed.new (hostname : Str) (port : UInt16) :
    Filed (HttpConnection.new hostname port).getConnectionId (new hostname port) :=
  ⟨.new hostname port, fun x h => absurd h (AList.notMem_empty x)⟩

theorem Filed.step {a : Action} (h : s.Filed id) (hs : s.step a = .ok s') : s'.Filed id := by
  refine ⟨h.inv.step hs, ?_⟩
  cases a with
  | «open» first ev =>
    obtain ⟨client, connection, ho, rfl⟩ := step_open hs
    obtain ⟨c₁, ha, -, hconn, -⟩ := HttpClientImpl.open_cases ho
    show ∀ x ∈ client.mConnections, x = id
    rw [hconn]
    by_cases hf : s.client.mFree.Nonempty
    · obtain ⟨-, -, rfl⟩ := HttpClientImpl.acquire_free ha hf
      exact h.only
    · obtain ⟨-, -, hl⟩ := HttpClientImpl.acquire_new ha hf
      intro x hx
      by_contra hne
      rw [hl, h.inv.oneId.newId, ← AList.lookup_isSome, UnorderedMap.lookup_emplace_ne hne,
        AList.lookup_isSome] at hx
      exact hne (h.only x hx)
  | close connection =>
    obtain ⟨-, rfl⟩ := call_cases (f := (·.close connection)) hs
    exact h.only
  | evConnectionClosed connection =>
    obtain ⟨-, rfl⟩ := call_cases (f := (·.evConnectionClosed connection)) hs
    exact h.only

theorem Filed.stored_eq (h : s.Filed id) {x : Str} {c : Nat} (hl : s.client.mConnections.lookup x = some c) :
    c = 0 := by
  rw [h.only x (AList.lookup_isSome.1 (by rw [hl]; rfl)), h.inv.oneId.entered] at hl
  split at hl
  · cases hl
  · exact (Option.some.inj hl).symm

theorem Filed.owned (h : s.Filed id) (hone : s.client.fresh ≤ 1) : s.Owned := by
  have hentry : ∀ c < s.client.fresh, s.client.mConnections.lookup id = some c := by
    intro c hc
    rw [h.inv.oneId.entered, if_neg (by omega)]
    exact congrArg some (by omega)
  refine ⟨fun c hc => ⟨id, hentry c hc⟩, fun c hc => ?_⟩
  have hentries := UnorderedMap.entries_eq_singleton h.only (hentry c hc)
  simp [HttpClientImpl.closeConnctions, hentries]

theorem Owned.le_one (ho : s.Owned) (h : s.Filed id) : s.client.fresh ≤ 1 := by
  by_contra hgt
  obtain ⟨x, hx⟩ := ho.stored 1 (by omega)
  exact absurd (h.stored_eq hx) (by decide)

theorem Filed.mem_iff (h : s.Filed id) : s.client.newId ∈ s.client.mConnections ↔ s.client.fresh ≠ 0 := by
  rw [h.inv.oneId.newId, ← AList.lookup_isSome, h.inv.oneId.entered]
  split <;> simp [*]

/-- A step makes a second connection exactly where it finds the id entered. -/
theorem Filed.unentered_iff {a : Action} (h : s.Filed id) (hone : s.client.fresh ≤ 1)
    (hs : s.step a = .ok s') : s.Unentered a ↔ s'.client.fresh ≤ 1 := by
  cases a with
  | «open» first ev =>
    obtain ⟨client, connection, ho, rfl⟩ := step_open hs
    obtain ⟨c₁, ha, -, -, hfresh, -⟩ := HttpClientImpl.open_cases ho
    show (s.client.mFree = ∅ → _) ↔ client.fresh ≤ 1
    rw [hfresh, h.mem_iff]
    by_cases hf : s.client.mFree.Nonempty
    · obtain ⟨-, -, rfl⟩ := HttpClientImpl.acquire_free ha hf
      exact iff_of_true (fun he => absurd he hf.ne_empty) hone
    · obtain ⟨-, rfl, -⟩ := HttpClientImpl.acquire_new ha hf
      have hempty := Finset.not_nonempty_iff_eq_empty.1 hf
      show _ ↔ s.client.fresh + 1 ≤ 1
      constructor
      · intro hc
        have := hc hempty
        omega
      · intro hle _
        omega
  | close connection =>
    obtain ⟨-, rfl⟩ := call_cases (f := (·.close connection)) hs
    exact iff_of_true trivial hone
  | evConnectionClosed connection =>
    obtain ⟨-, rfl⟩ := call_cases (f := (·.evConnectionClosed connection)) hs
    exact iff_of_true trivial hone

/-- The states of a run own all their connections iff no step of it makes a connection under an id
that is entered. -/
theorem eachState_owned_iff (hostname : Str) (port : UInt16) (tr : List (Action × Opened))
    (hrun : Run (Ok step) (new hostname port) tr) :
    EachState Owned (new hostname port) tr ↔ EachStep Unentered (new hostname port) tr := by
  refine Run.eachState_iff
    (I := fun s => s.Filed (HttpConnection.new hostname port).getConnectionId ∧ s.client.fresh ≤ 1)
    (fun s h => h.1.owned h.2) (fun s a s' h hc hs => ⟨h.1.step hs, (h.1.unentered_iff h.2 hs).1 hc⟩)
    (fun s a s' h hs ho => (h.1.unentered_iff h.2 hs).2 (ho.le_one (h.1.step hs)))
    ⟨Filed.new hostname port, Nat.zero_le 1⟩ hrun

/-- Requests that come one after the other share the one connection, which may be closed twice. -/
theorem owned_one_after_the_other :
    ∃ tr, exec step (new "127.0.0.1".toList 80)
        [.open [] 0, .close 0, .close 0, .open "127.0.0.1:80:".toList 1, .evConnectionClosed 0] = .ok tr ∧
      EachState Owned (new "127.0.0.1".toList 80) tr := by
  have hg : Goes step Unentered (fun _ => True) (new "127.0.0.1".toList 80)
      [.open [] 0, .close 0, .close 0, .open "127.0.0.1:80:".toList 1, .evConnectionClosed 0] := by decide
  obtain ⟨tr, htr, hc, -⟩ := hg.exec
  exact ⟨tr, htr, (eachState_owned_iff _ _ tr (Run.of_exec htr)).2 hc⟩

/-- Two requests at a time: the second connection is not stored, so nothing deletes it. -/
theorem not_owned_two_at_a_time :
    ∃ tr, exec step (new "127.0.0.1".toList 80) [.open [] 0, .open [] 1] = .ok tr ∧
      ¬ EachState Owned (new "127.0.0.1".toList 80) tr := by
  have hg : Goes step (fun _ _ => True)
      (fun s => 1 < s.client.fresh ∧ s.client.closeConnctions.2.count 1 = 0)
      (new "127.0.0.1".toList 80) [.open [] 0, .open [] 1] := by decide
  obtain ⟨tr, htr, -, s, ⟨h1, h0⟩, hs⟩ := hg.exec
  exact ⟨tr, htr, fun h => absurd ((hs _ h).deleted 1 h1) (by rw [h0]; decide)⟩

end Opened

end ChCppUtils.Http.Client
