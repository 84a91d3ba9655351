import Mathlib.Data.List.Forall2
import ChCppUtils.DirTree.Drop
import ChCppUtils.DirTree.Refine

/-!
# The paths of a drop

The path that `drop` hands to the callback is put together: the key up to its last `/`, and behind it
the keys of the nodes. For a key that ends in `/`, or has no `/` after `normalize`, the last token comes
in twice. Where the key has an empty piece before its last one, the path is read up to that piece only,
which is right for the node of the key and for none below it (`pathsTrue_iff`).
-/

namespace ChCppUtils.DirTree

open Split

variable {D : Type} {t : DirTree D} {key : Str}

/-- Each path that the callback gets has the tokens of the node it is called for. -/
def PathsTrue (t : DirTree D) (key : Str) : Prop :=
  List.Forall₂ (fun call node => tokens call.1 = node.1) (t.drop key).2 (t.dropped key)

instance (t : DirTree D) (key : Str) : Decidable (t.PathsTrue key) :=
  inferInstanceAs (Decidable (List.Forall₂ _ _ _))

/-- What `normalize` makes of the key, cut at every `/`. -/
def pieces (key : Str) : List Str := (normalize key).splitOn '/'

theorem tokens_append_behind {a : Str} {ss : List Str} (ha : char0 a = '.') (hss : ∀ s ∈ ss, IsName s) :
    tokens (a ++ behind '/' ss) = if [] ∈ a.splitOn '/' then lead '/' a else a.splitOn '/' ++ ss := by
  have hne : a ≠ [] := by
    rintro rfl
    exact absurd ha (by decide)
  rw [DirTree.tokens_eq, normalize_of_dot (by rw [char0_append hne, ha]), lead_append_behind hss]

theorem char0_upToLast (h : '/' ∈ normalize key) : char0 (upToLast '/' (normalize key)) = '.' := by
  obtain ⟨last, hk, -⟩ := exists_eq_upToLast h
  have hdot := char0_normalize key
  rw [hk] at hdot
  generalize upToLast '/' (normalize key) = a at hdot ⊢
  cases a with
  | nil => exact absurd (show '/' = '.' from hdot) (by decide)
  | cons c a => exact hdot

theorem exists_pieces_eq (h : '/' ∈ normalize key) : ∃ last : Str,
    normalize key = upToLast '/' (normalize key) ++ '/' :: last ∧
      pieces key = (upToLast '/' (normalize key)).splitOn '/' ++ [last] := by
  obtain ⟨last, hk, hlast⟩ := exists_eq_upToLast h
  refine ⟨last, hk, ?_⟩
  unfold pieces
  conv_lhs => rw [hk, List.splitOn_append_cons_self, List.splitOn_eq_singleton hlast]

theorem pathsTrue_of_none (h : t.view (tokens key) = none) : t.PathsTrue key := by
  rw [PathsTrue, dropped_of_none h, drop_of_none h]
  exact .nil

theorem pathsTrue_iff_forall {ts : List Str} {last : Str} (hts : tokens key = ts ++ [last])
    (hn : (t.view (tokens key)).isSome) : t.PathsTrue key ↔ ∀ rel, (t.view (tokens key ++ rel)).isSome →
      tokens (upToLast '/' (normalize key) ++ behind '/' (last :: rel)) = tokens key ++ rel := by
  obtain ⟨sub, hK, hview, hdropped, hcalls⟩ := drop_eq_visits hts hn
  rw [PathsTrue, hdropped, hcalls, List.forall₂_map_left_iff, List.forall₂_map_right_iff, List.forall₂_same]
  constructor
  · intro h rel hv
    rw [hview] at hv
    obtain ⟨d, hd⟩ := Option.isSome_iff_exists.1 hv
    exact h (rel, d) ((sub.mem_visits rel hK).2 hd)
  · rintro h ⟨rel, d⟩ hm
    exact h rel (by rw [hview, (sub.mem_visits rel hK).1 hm]; rfl)

/-- The tokens of the nodes are names. -/
def Named (t : DirTree D) : Prop := ∀ p, (t.view p).isSome → ∀ s ∈ p, IsName s

theorem named_run (ops : List (Op D)) : (run ops).Named := by
  intro p hp s hs
  have hne : p ≠ [] := List.ne_nil_of_mem hs
  obtain ⟨pre, q, d, post, hops, hpre, -⟩ := ((run_refines ops).nodes p hne).1 hp
  have hmem : PathMap.Op.insert q d ∈ ops.map Op.abs := by rw [hops]; simp
  obtain ⟨o, -, ho⟩ := List.mem_map.1 hmem
  cases o with
  | insert key data =>
    obtain ⟨rfl, -⟩ := PathMap.Op.insert.inj ho
    exact isName_of_mem_tokens (hpre.subset hs)
  | drop key => cases ho

/-- With an empty piece before the last `/`, all paths have the tokens of the key. -/
theorem pathsTrue_of_nil_mem (hn : (t.view (tokens key)).isSome) (hnamed : t.Named) (hslash : '/' ∈ normalize key)
    (hm : [] ∈ (upToLast '/' (normalize key)).splitOn '/') :
    t.PathsTrue key ↔ ∀ k, t.view (tokens key ++ [k]) = none := by
  obtain ⟨ts, last, hts⟩ := exists_tokens_eq_concat key
  obtain ⟨last', hk, -⟩ := exists_eq_upToLast hslash
  have hkey : lead '/' (upToLast '/' (normalize key)) = tokens key := by
    rw [DirTree.tokens_eq]
    conv_rhs => rw [hk, lead_append_of_nil_mem hm]
  have hpath : ∀ rel, (t.view (tokens key ++ rel)).isSome →
      tokens (upToLast '/' (normalize key) ++ behind '/' (last :: rel)) = tokens key := by
    intro rel hv
    rw [tokens_append_behind (char0_upToLast hslash), if_pos hm, hkey]
    intro s hs
    refine hnamed _ hv s ?_
    rcases List.mem_cons.1 hs with rfl | hs
    · rw [hts]; simp
    · exact List.mem_append_right _ hs
  rw [pathsTrue_iff_forall hts hn]
  constructor
  · intro h k
    by_contra hne
    have hv := Option.isSome_iff_ne_none.2 hne
    have := (h [k] hv).symm.trans (hpath [k] hv)
    simp at this
  · intro h rel hv
    rw [hpath rel hv]
    cases rel with
    | nil => simp
    | cons k rel =>
      have hpre : tokens key ++ [k] <+: tokens key ++ k :: rel := by simp [List.prefix_append_right_inj]
      have := t.view_prefixClosed _ _ hpre hv
      rw [h k] at this
      cases this

theorem pathsTrue_of_pieces (hn : (t.view (tokens key)).isSome) (hnamed : t.Named) (hslash : '/' ∈ normalize key)
    (hm : [] ∉ (upToLast '/' (normalize key)).splitOn '/') : t.PathsTrue key ↔ [] ∉ pieces key := by
  obtain ⟨ts, last, hts⟩ := exists_tokens_eq_concat key
  obtain ⟨last', -, hpieces⟩ := exists_pieces_eq hslash
  rw [pathsTrue_iff_forall hts hn]
  have htokens : tokens key = (upToLast '/' (normalize key)).splitOn '/' ++ (if last' = [] then [] else [last']) := by
    have hall : ((upToLast '/' (normalize key)).splitOn '/').takeWhile (!·.isEmpty) =
        (upToLast '/' (normalize key)).splitOn '/' := lead_eq_splitOn hm
    rw [DirTree.tokens_eq, lead, ← pieces, hpieces, List.takeWhile_append, hall, if_pos rfl]
    cases last' <;> rfl
  have hpath : ∀ rel, (t.view (tokens key ++ rel)).isSome →
      tokens (upToLast '/' (normalize key) ++ behind '/' (last :: rel)) =
        (upToLast '/' (normalize key)).splitOn '/' ++ last :: rel := by
    intro rel hv
    rw [tokens_append_behind (char0_upToLast hslash), if_neg hm]
    intro s hs
    refine hnamed _ hv s ?_
    rcases List.mem_cons.1 hs with rfl | hs
    · rw [hts]; simp
    · exact List.mem_append_right _ hs
  by_cases hl : last' = []
  · -- the key ends in `/`: the last token comes in twice
    rw [if_pos hl, List.append_nil] at htokens
    refine iff_of_false (fun h => ?_) (by simp [hpieces, hl])
    have := h [] (by rw [List.append_nil]; exact hn)
    rw [hpath [] (by rw [List.append_nil]; exact hn), htokens] at this
    simp at this
  · rw [if_neg hl] at htokens
    refine iff_of_true (fun rel hv => ?_) (by rw [hpieces]; simpa [hm, eq_comm] using hl)
    obtain rfl : last = last' := by
      have := hts.symm.trans htokens
      exact List.singleton_inj.1 (List.append_inj' this rfl).2
    rw [hpath rel hv, htokens]
    simp

theorem not_pathsTrue_of_no_slash (hn : (t.view (tokens key)).isSome) (hslash : '/' ∉ normalize key) :
    ¬ t.PathsTrue key := by
  obtain ⟨ts, last, hts⟩ := exists_tokens_eq_concat key
  have hsplit : (normalize key).splitOn '/' = [normalize key] := List.splitOn_eq_singleton hslash
  have hne : normalize key ≠ [] := by
    intro h
    have := char0_normalize key
    rw [h] at this
    exact absurd this (by decide)
  have htokens : tokens key = [normalize key] := by
    rw [DirTree.tokens_eq, lead_eq_splitOn (by rw [hsplit]; simpa using hne.symm), hsplit]
  rw [pathsTrue_iff_forall hts hn]
  intro h
  have := h [] (by rw [List.append_nil]; exact hn)
  rw [upToLast_of_not_mem hslash, tokens_append_behind (char0_normalize key), hsplit,
    if_neg (by simpa using hne.symm), htokens] at this
  · simp at this
  · intro s hs
    obtain rfl := List.mem_singleton.1 hs
    have hs : s ∈ tokens key := by rw [hts]; simp
    exact isName_of_mem_tokens hs

/-- The paths are right where there is nothing to drop, where the normalised key has a `/` and no empty
piece, and where the empty piece is not the last one and the node has no child. -/
theorem pathsTrue_iff (ops : List (Op D)) (key : Str) : (run ops).PathsTrue key ↔
    (run ops).view (tokens key) = none ∨ '/' ∈ normalize key ∧ ([] ∉ pieces key ∨
      [] ∈ (pieces key).dropLast ∧ ∀ k, (run ops).view (tokens key ++ [k]) = none) := by
  by_cases hn : (run ops).view (tokens key) = none
  · exact iff_of_true (pathsTrue_of_none hn) (.inl hn)
  have hsome : ((run ops).view (tokens key)).isSome := Option.isSome_iff_ne_none.2 hn
  by_cases hslash : '/' ∈ normalize key
  swap
  · exact iff_of_false (not_pathsTrue_of_no_slash hsome hslash) fun h => h.elim hn fun h => hslash h.1
  obtain ⟨last, -, hpieces⟩ := exists_pieces_eq hslash
  have hdrop : (pieces key).dropLast = (upToLast '/' (normalize key)).splitOn '/' := by
    rw [hpieces, List.dropLast_concat]
  rw [hdrop]
  by_cases hm : [] ∈ (upToLast '/' (normalize key)).splitOn '/'
  · rw [pathsTrue_of_nil_mem hsome (named_run ops) hslash hm]
    have hmem : [] ∈ pieces key := by rw [hpieces]; exact List.mem_append_left _ hm
    simp [hn, hslash, hm, hmem]
  · rw [pathsTrue_of_pieces hsome (named_run ops) hslash hm]
    simp [hn, hslash, hm]

/-- The key `a/` of the node `a`: the callback gets `./a/a`. -/
theorem not_pathsTrue_trailing_slash :
    ¬ (run [Op.insert "a".toList (some 0)]).PathsTrue "a/".toList := by
  decide

end ChCppUtils.DirTree
