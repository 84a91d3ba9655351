import ChCppUtils.DirTree.Tree

/-!
# Which node a key stands for

An operation of the tree goes by the tokens of its key. Two keys that are different paths have the same
tokens where one of them has an empty segment in front of others, since the tokens end there
(`apart_iff`); two spellings of one path have different ones where the path starts with a dot, since
`normalize` takes that for the `./` it puts in front of others (`sameNode_iff`). And a key without a
node is none that `hasChildren` can answer for (`childrenTold_iff`).
-/

namespace ChCppUtils.DirTree

open Split

variable {D : Type} {t : DirTree D} {key key₁ key₂ : Str}

/-- Exact lookup: `search` with a callback that refuses every wildcard. -/
def lookup (t : DirTree D) (key : Str) : Option D := t.search key fun _ _ => false

theorem lookup_eq (t : DirTree D) (key : Str) : t.lookup key = (t.view (tokens key)).getD none := by
  rw [lookup, search_eq, lookupWild]
  cases t.view (tokens key) with
  | some d => rfl
  | none =>
    split
    · rename_i hd; cases hd
    · split
      · exact if_neg Bool.false_ne_true
      · rfl

theorem lookup_insert (t : DirTree D) (key₂ : Str) (data : Option D) (key₁ : Str) :
    (t.insert key₂ data).lookup key₁ = if tokens key₁ = tokens key₂ then data else t.lookup key₁ := by
  rw [lookup_eq, lookup_eq, view_insert, PathMap.insert]
  split
  · rfl
  · split <;> rfl

theorem lookup_drop (t : DirTree D) (key₂ key₁ : Str) :
    (t.drop key₂).1.lookup key₁ = if tokens key₂ <+: tokens key₁ then none else t.lookup key₁ := by
  rw [lookup_eq, lookup_eq, view_drop, PathMap.drop]
  split <;> rfl

/-! ### `hasChildren` -/

/-- `hasChildren(key)` returns, and says whether the key has a node with a child. -/
def ChildrenTold (t : DirTree D) (key : Str) : Prop :=
  ∃ b, t.hasChildren key = .ok b ∧
    (b = true ↔ (t.view (tokens key)).isSome ∧ ∃ k, (t.view (tokens key ++ [k])).isSome)

/-- The loop follows a null pointer exactly where the key has no node. -/
theorem childrenTold_iff (t : DirTree D) (key : Str) : t.ChildrenTold key ↔ (t.view (tokens key)).isSome := by
  cases hb : t.hasChildren key with
  | error e =>
    refine iff_of_false (fun ⟨b, h, _⟩ => ?_) fun hn => ?_
    · rw [hb] at h
      cases h
    · rw [hasChildren_eq] at hb
      rw [view, Node.view_isSome] at hn
      obtain ⟨node, hnode⟩ := Option.isSome_iff_exists.1 hn
      rw [hnode] at hb
      cases hb
  | ok b =>
    have hn : (t.view (tokens key)).isSome := by
      rw [hasChildren_eq] at hb
      rw [view, Node.view_isSome]
      cases hw : t.root.walk (tokens key) with
      | none => rw [hw] at hb; cases hb
      | some node => rfl
    refine iff_of_true ⟨b, hb, ?_⟩ hn
    cases b with
    | false =>
      have hnone := (hasChildren_eq_false_iff.1 hb).2
      simp [hnone]
    | true =>
      refine iff_of_true rfl ⟨hn, ?_⟩
      by_contra hno
      push Not at hno
      have hfalse := hasChildren_eq_false_iff.2 ⟨hn, fun k => by simpa using hno k⟩
      rw [hb] at hfalse
      cases hfalse

/-- A fresh tree has no node `./a`. -/
theorem not_childrenTold_absent : ¬ (new : DirTree Nat).ChildrenTold "a".toList := by
  rintro ⟨b, h, -⟩
  rw [show (new : DirTree Nat).hasChildren "a".toList = .error .nullDeref from by decide] at h
  cases h

/-! ### Different paths -/

/-- The list without a leading `.`. -/
def dropDot : List Str → List Str
  | ['.'] :: ss => ss
  | ss => ss

theorem dropDot_of_head {ss : List Str} (h : ss.head? ≠ some ['.']) : dropDot ss = ss := by
  unfold dropDot
  split
  · exact absurd rfl h
  · rfl

theorem dropDot_append {s : Str} (ss ts : List Str) : dropDot (s :: ss ++ ts) = dropDot (s :: ss) ++ ts := by
  by_cases hs : s = ['.']
  · subst hs; rfl
  · have hhead : ∀ us : List Str, (s :: us).head? ≠ some ['.'] := fun us h => hs (Option.some.inj h)
    rw [List.cons_append, dropDot_of_head (hhead _), dropDot_of_head (hhead _), List.cons_append]

/-- The path a key names: its non-empty segments, without a leading `.`. -/
def pathSegs (key : Str) : List Str := dropDot (Split.segs '/' key)

/-- What is done for `key₂` leaves alone what is found under `key₁`, if the two are different paths. -/
structure Apart (t : DirTree D) (key₁ key₂ : Str) : Prop where
  insert : pathSegs key₁ ≠ pathSegs key₂ → ∀ data, (t.insert key₂ data).lookup key₁ = t.lookup key₁
  drop : pathSegs key₁ ≠ pathSegs key₂ → ¬ pathSegs key₂ <+: pathSegs key₁ →
    (t.drop key₂).1.lookup key₁ = t.lookup key₁

theorem apart_iff [Inhabited D] (t : DirTree D) (key₁ key₂ : Str) : t.Apart key₁ key₂ ↔
    (tokens key₁ = tokens key₂ → pathSegs key₁ = pathSegs key₂) ∧
      (tokens key₂ <+: tokens key₁ → pathSegs key₂ <+: pathSegs key₁ ∨ t.lookup key₁ = none) := by
  constructor
  · rintro ⟨hinsert, hdrop⟩
    refine ⟨fun he => ?_, fun hpre => ?_⟩
    · by_contra hne
      have hboth : ∀ data, data = t.lookup key₁ := by
        intro data
        have := hinsert hne data
        rwa [lookup_insert, if_pos he] at this
      have := (hboth none).trans (hboth (some default)).symm
      cases this
    · by_cases hsegs : pathSegs key₂ <+: pathSegs key₁
      · exact .inl hsegs
      · have hne : pathSegs key₁ ≠ pathSegs key₂ := fun he => hsegs (he ▸ List.prefix_rfl)
        have := hdrop hne hsegs
        rw [lookup_drop, if_pos hpre] at this
        exact .inr this.symm
  · rintro ⟨hinsert, hdrop⟩
    refine ⟨fun hne data => ?_, fun _ hsegs => ?_⟩
    · rw [lookup_insert, if_neg fun he => hne (hinsert he)]
    · rw [lookup_drop]
      split
      · rename_i hpre
        exact ((hdrop hpre).resolve_left hsegs).symm
      · rfl

/-- `a//b` is taken for `a`: the insert sets its data. -/
theorem not_apart_empty_segment :
    ¬ ((new : DirTree Nat).insert "a".toList (some 0)).Apart "a".toList "a//b".toList := by
  rintro ⟨h, -⟩
  have := h (by decide) (some 1)
  revert this
  decide

/-- No segment of the key stands behind an empty one, and there is no `.` behind a leading `/`. -/
structure Regular (key : Str) : Prop where
  rest : Split.rest '/' (normalize key) = []
  dots : char0 key = '/' → ¬ [['.'], ['.']] <+: tokens key

theorem segs_cons_slash (xs : Str) : Split.segs '/' ('/' :: xs) = Split.segs '/' xs := by
  unfold Split.segs
  rw [List.splitOn_cons_eq_if_modifyHead]
  simp

theorem splitOn_dot_slash (xs : Str) : ('.' :: '/' :: xs).splitOn '/' = ['.'] :: xs.splitOn '/' := by
  have hdot : '/' ∉ ['.'] := by decide
  exact List.splitOn_append_cons_self_of_not_mem hdot xs

theorem segs_dot_slash (xs : Str) : Split.segs '/' ('.' :: '/' :: xs) = ['.'] :: Split.segs '/' xs := by
  unfold Split.segs
  rw [splitOn_dot_slash]
  rfl

theorem head?_segs_ne {key : Str} (hslash : char0 key ≠ '/') (hdot : char0 key ≠ '.') :
    (Split.segs '/' key).head? ≠ some ['.'] := by
  cases key with
  | nil => decide
  | cons c xs =>
    have hc : c ≠ '/' := hslash
    have hpiece : (c :: xs).takeWhile (· ≠ '/') = c :: xs.takeWhile (· ≠ '/') := by simp [hc]
    rw [Split.segs, splitOn_eq_takeWhile, hpiece, List.filter_cons_of_pos (by simp)]
    intro h
    exact hdot (List.cons.inj (Option.some.inj h)).1

theorem Regular.segs_eq (h : Regular key) : pathSegs key = dropDot (tokens key) := by
  have htokens : tokens key = Split.segs '/' (normalize key) := by
    rw [← lead_append_rest, h.rest, List.append_nil, DirTree.tokens_eq]
  by_cases hdot : char0 key = '.'
  · rw [htokens, normalize_of_dot hdot, pathSegs]
  by_cases hslash : char0 key = '/'
  · -- `/` and the rest of the key: the segments are those of the rest
    obtain ⟨xs, rfl⟩ : ∃ xs, key = '/' :: xs := by
      cases key with
      | nil => exact absurd hslash (by decide)
      | cons c xs => exact ⟨xs, by rw [show c = '/' from hslash]⟩
    have hnorm : normalize ('/' :: xs) = '.' :: '/' :: xs := rfl
    rw [htokens, hnorm, segs_dot_slash, pathSegs, segs_cons_slash]
    refine dropDot_of_head fun hhead => h.dots rfl ?_
    obtain ⟨ss, hss⟩ := List.head?_eq_some_iff.1 hhead
    rw [htokens, hnorm, segs_dot_slash, hss]
    exact ⟨ss, rfl⟩
  · have hnorm : normalize key = '.' :: '/' :: key := by
      rw [normalize, if_pos ⟨hslash, hdot⟩]
      rfl
    rw [htokens, hnorm, segs_dot_slash, pathSegs]
    exact dropDot_of_head (head?_segs_ne hslash hdot)

theorem apart_of_regular (t : DirTree D) (h₁ : Regular key₁) (h₂ : Regular key₂) :
    t.Apart key₁ key₂ := by
  have hpre : tokens key₂ <+: tokens key₁ → pathSegs key₂ <+: pathSegs key₁ := by
    rintro ⟨ts, hts⟩
    obtain ⟨s, ss, hs⟩ := exists_tokens_eq_cons key₂
    rw [h₁.segs_eq, h₂.segs_eq, ← hts, hs, dropDot_append]
    exact List.prefix_append _ _
  have heq : tokens key₁ = tokens key₂ → pathSegs key₁ = pathSegs key₂ := by
    intro he
    rw [h₁.segs_eq, h₂.segs_eq, he]
  exact ⟨fun hne data => by rw [lookup_insert, if_neg fun he => hne (heq he)],
    fun _ hsegs => by rw [lookup_drop, if_neg fun h => hsegs (hpre h)]⟩

/-! ### Spellings of a path -/

def spellings (p : Str) : List Str := [p, ['.', '/'] ++ p, ['/'] ++ p]

/-- All spellings of a path lead to the same node. -/
structure SameNode (t : DirTree D) (p : Str) : Prop where
  operations : ∀ k ∈ spellings p, ∀ k' ∈ spellings p, (∀ data, t.insert k data = t.insert k' data) ∧
    (∀ cbk, t.search k cbk = t.search k' cbk) ∧ t.hasChildren k = t.hasChildren k' ∧ t.drop k = t.drop k'
  found : ∀ k ∈ spellings p, ∀ k' ∈ spellings p, ∀ data, (t.insert k data).lookup k' = data
  dropped : ∀ k ∈ spellings p, ∀ k' ∈ spellings p, ∀ data, ((t.insert k data).drop ['.']).1.lookup k' = none

theorem normalize_spelling {p k : Str} (hslash : char0 p ≠ '/') (hdot : char0 p ≠ '.')
    (hk : k ∈ spellings p) : normalize k = ['.', '/'] ++ p := by
  simp only [spellings, List.mem_cons, List.not_mem_nil, or_false] at hk
  rcases hk with rfl | rfl | rfl
  · rw [normalize, if_pos ⟨hslash, hdot⟩]
  · exact normalize_of_dot rfl
  · rfl

theorem ext_root {t t' : DirTree D} (h : t.root = t'.root) : t = t' := by
  cases t
  cases t'
  obtain rfl : _ = _ := h
  rfl

/-- The tree and the calls of a drop, without the invariants of the tree. -/
theorem drop_root_calls (t : DirTree D) (key : Str) : ((t.drop key).1.root, (t.drop key).2) =
    match dropLoop (normalize key) ((normalize key).length + 1) 0 t.root with
    | none => (t.root, [])
    | some (root, sub) => (root, (sub.dropChildren []).map fun x => (dropPath (normalize key) x.1, x.2)) := by
  unfold drop
  split
  · rename_i hd
    rw [hd]
  · rename_i root sub hd
    show (root, (sub.dropChildren []).map _) = _
    rw [hd]

theorem operations_congr {k k' : Str} (h : normalize k = normalize k') (t : DirTree D) :
    (∀ data, t.insert k data = t.insert k' data) ∧ (∀ cbk, t.search k cbk = t.search k' cbk) ∧
      t.hasChildren k = t.hasChildren k' ∧ t.drop k = t.drop k' := by
  have hinsert : insertKey k = insertKey k' := by rw [insertKey_eq, insertKey_eq, h]
  refine ⟨fun data => ?_, fun cbk => ?_, ?_, ?_⟩
  · simp only [insert, hinsert]
  · simp only [search, h]
  · simp only [hasChildren, h]
  · have hpair : ((t.drop k).1.root, (t.drop k).2) = ((t.drop k').1.root, (t.drop k').2) := by
      rw [drop_root_calls, drop_root_calls, h]
    have hroot := Prod.mk.inj hpair
    exact Prod.ext (ext_root hroot.1) hroot.2

/-- A path that starts with a dot is looked for at its own tokens, and under `./` at those below `.`. -/
theorem tokens_dot_slash {p : Str} (hdot : char0 p = '.') : tokens (['.', '/'] ++ p) = ['.'] :: tokens p := by
  have hlead : lead '/' ('.' :: '/' :: p) = ['.'] :: lead '/' p := by
    unfold lead
    rw [splitOn_dot_slash]
    rfl
  rw [DirTree.tokens_eq, DirTree.tokens_eq, normalize_of_dot hdot, normalize_of_dot rfl]
  exact hlead

theorem sameNode_iff [Inhabited D] (t : DirTree D) (p : Str) (hne : p ≠ []) (hslash : ¬ ['/'] <+: p)
    (hdot : ¬ ['.', '/'] <+: p) : t.SameNode p ↔ ¬ ['.'] <+: p := by
  obtain ⟨c, xs, rfl⟩ := List.exists_cons_of_ne_nil hne
  have hhead : ∀ d : Char, ¬ [d] <+: c :: xs ↔ char0 (c :: xs) ≠ d := by
    intro d
    rw [List.cons_prefix_cons]
    simp [char0, eq_comm]
  rw [hhead] at hslash ⊢
  constructor
  · rintro ⟨-, hfound, -⟩ hc
    -- the data put at the path itself is not the data at `./`
    have hne : tokens (['.', '/'] ++ (c :: xs)) ≠ tokens (c :: xs) := by
      rw [tokens_dot_slash hc]
      exact List.cons_ne_self _ _
    have hboth : ∀ data, t.lookup (['.', '/'] ++ (c :: xs)) = data := by
      intro data
      have := hfound (c :: xs) (by simp [spellings]) (['.', '/'] ++ (c :: xs)) (by simp [spellings]) data
      rwa [lookup_insert, if_neg hne] at this
    have := (hboth none).symm.trans (hboth (some default))
    cases this
  · intro hc
    have hnorm : ∀ k ∈ spellings (c :: xs), ∀ k' ∈ spellings (c :: xs), normalize k = normalize k' := by
      intro k hk k' hk'
      rw [normalize_spelling hslash hc hk, normalize_spelling hslash hc hk']
    have htokens : ∀ k ∈ spellings (c :: xs), ∀ k' ∈ spellings (c :: xs), tokens k = tokens k' := by
      intro k hk k' hk'
      rw [DirTree.tokens_eq, DirTree.tokens_eq, hnorm k hk k' hk']
    refine ⟨fun k hk k' hk' => operations_congr (hnorm k hk k' hk') t, fun k hk k' hk' data => ?_,
      fun k hk k' hk' data => ?_⟩
    · rw [lookup_insert, if_pos (htokens k' hk' k hk)]
    · rw [lookup_drop, if_pos]
      have hkey : tokens k' = lead '/' (['.'] ++ '/' :: (c :: xs)) := by
        rw [DirTree.tokens_eq, normalize_spelling hslash hc hk']
        rfl
      rw [hkey, show tokens ['.'] = lead '/' ['.'] by decide]
      exact lead_prefix_lead_append ['.'] (c :: xs)

/-- `a/b` put in as `/a/b`. -/
theorem sameNode_plain : (new : DirTree Nat).SameNode "a/b".toList :=
  (sameNode_iff new "a/b".toList (by decide) (by decide) (by decide)).2 (by decide)

/-- `.h` put in is not found as `./.h`. -/
theorem not_sameNode_dot : ¬ (new : DirTree Nat).SameNode ".h".toList := by
  rintro ⟨-, h, -⟩
  have := h ".h".toList (by decide) "./.h".toList (by decide) (some 0)
  revert this
  decide

end ChCppUtils.DirTree
