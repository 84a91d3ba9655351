import Mathlib.Data.List.AList

/-!
# Keyed containers whose insertion keeps what is there

An `UnorderedMap` holds at most one value a key. `emplace` adds an entry only where the key is
free: an entry that exists keeps its value.
-/

abbrev UnorderedMap (κ α : Type*) := AList (fun _ : κ => α)

namespace UnorderedMap

variable {κ α : Type*} [DecidableEq κ] {m : UnorderedMap κ α} {k k' : κ} {a b : α}

def emplace (m : UnorderedMap κ α) (k : κ) (a : α) : UnorderedMap κ α :=
  if k ∈ m then m else AList.insert k a m

theorem mem_of_lookup (h : m.lookup k = some a) : k ∈ m := AList.lookup_isSome.1 (by rw [h]; rfl)

theorem exists_lookup (h : k ∈ m) : ∃ a, m.lookup k = some a := Option.isSome_iff_exists.1 (AList.lookup_isSome.2 h)

theorem mem_emplace (m : UnorderedMap κ α) (k : κ) (a : α) : k ∈ m.emplace k a := by
  unfold emplace
  split
  · assumption
  · exact (AList.mem_insert m).2 (.inl rfl)

theorem lookup_emplace_ne (h : k' ≠ k) : (m.emplace k a).lookup k' = m.lookup k' := by
  unfold emplace
  split
  · rfl
  · exact AList.lookup_insert_ne h

theorem lookup_emplace_of_some (h : m.lookup k = some b) : (m.emplace k a).lookup k = some b := by
  rw [emplace, if_pos (mem_of_lookup h), h]

theorem lookup_emplace_of_none (h : m.lookup k = none) : (m.emplace k a).lookup k = some a := by
  rw [emplace, if_neg (AList.lookup_eq_none.1 h), AList.lookup_insert]

/-- Of the entries added one after another the first of a key counts. -/
theorem lookup_foldl_emplace (l : List (κ × α)) : (l.foldl (fun m x => m.emplace x.1 x.2) m).lookup k =
    (m.lookup k).or ((l.find? fun x => x.1 = k).map Prod.snd) := by
  induction l generalizing m with
  | nil => simp
  | cons x l ih =>
    rw [List.foldl_cons, ih, List.find?_cons]
    by_cases hx : x.1 = k
    · subst hx
      cases hl : m.lookup x.1 with
      | none => simp [lookup_emplace_of_none hl]
      | some b => simp [lookup_emplace_of_some hl]
    · simp [lookup_emplace_ne (Ne.symm hx), hx]

theorem entries_eq_singleton (h : ∀ x ∈ m, x = k) (hl : m.lookup k = some a) : m.entries = [⟨k, a⟩] := by
  have hall : ∀ x ∈ m.entries, x = ⟨k, a⟩ := by
    rintro ⟨k', b⟩ hx
    have hb : m.lookup k' = some b := AList.mem_lookup_iff.2 hx
    obtain rfl : k' = k := h k' (mem_of_lookup hb)
    rw [hl] at hb
    rw [Option.some.inj hb]
  have hmem : (⟨k, a⟩ : Sigma fun _ : κ => α) ∈ m.entries := AList.mem_lookup_iff.1 hl
  have hnodup : m.entries.Nodup := m.nodupKeys.nodup
  cases he : m.entries with
  | nil => rw [he] at hmem; cases hmem
  | cons x l =>
    rw [he] at hall hnodup
    obtain ⟨rfl, hl⟩ := List.forall_mem_cons.1 hall
    cases l with
    | nil => rfl
    | cons y l =>
      obtain ⟨rfl, -⟩ := List.forall_mem_cons.1 hl
      exact absurd (List.nodup_cons.1 hnodup).1 (by simp)

end UnorderedMap
