import ChCppUtils.DirTree.Token
import ChCppUtils.FsWatch.Fts

/-!
# The paths below a root

All paths the watcher handles are `Fts.pathOf root rel`: the root, or its text with the names of
`rel` behind it. What a path leads to is told by its non-empty pieces (`segs_pathOf`). The tree sees
the same pieces, with a dot before them or not, when the root has no empty piece inside
(`Plain`, `tokens_pathOf`).
-/

namespace ChCppUtils

open Split DirTree

/-- A path without the `/` at its end. -/
def trim (p : Str) : Str := if p.getLast? = some '/' then p.dropLast else p

variable {root p : Str} {rel : List Str} {name : Str}

theorem trim_of_slash (h : p.getLast? = some '/') : trim p ++ ['/'] = p := by
  rw [trim, if_pos h]
  exact List.dropLast_append_getLast? '/' h

theorem trim_of_not_slash (h : p.getLast? ≠ some '/') : trim p = p := if_neg h

theorem trim_append (q : Str) (hp : p ≠ []) : trim (q ++ p) = q ++ trim p := by
  have hlast : (q ++ p).getLast? = p.getLast? := List.getLast?_append_of_ne_nil q hp
  unfold trim
  rw [hlast]
  split
  · exact List.dropLast_append_of_ne_nil hp
  · rfl

theorem segs_trim (p : Str) : segs '/' (trim p) = segs '/' p := by
  by_cases h : p.getLast? = some '/'
  · conv_rhs => rw [← trim_of_slash h, segs, List.splitOn_append_cons_self]
    simp [segs]
  · rw [trim_of_not_slash h]

namespace Fts

theorem childPath_eq_trim (p name : Str) : childPath p name = trim p ++ '/' :: name := by
  simp [childPath, trim]

theorem childPath_eq (p name : Str) :
    childPath p name = p ++ (if p.getLast? = some '/' then [] else ['/']) ++ name := by
  rw [childPath_eq_trim]
  by_cases h : p.getLast? = some '/'
  · conv_rhs => rw [← trim_of_slash h]
    simp
  · simp [trim_of_not_slash h, h]

theorem pathOf_append (root : Str) (rel rel' : List Str) :
    pathOf root (rel ++ rel') = pathOf (pathOf root rel) rel' :=
  List.foldl_append

theorem pathOf_concat (root : Str) (rel : List Str) (name : Str) :
    pathOf root (rel ++ [name]) = childPath (pathOf root rel) name :=
  pathOf_append root rel [name]

theorem getLast?_childPath (h : IsName name) : (childPath p name).getLast? ≠ some '/' := by
  intro hl
  rw [childPath_eq, List.getLast?_append_of_ne_nil _ h.1] at hl
  exact h.2 (List.mem_of_getLast? hl)

theorem getLast?_pathOf (h : ∀ n ∈ rel, IsName n) (hrel : rel ≠ [] ∨ root.getLast? ≠ some '/') :
    (pathOf root rel).getLast? ≠ some '/' := by
  rcases List.eq_nil_or_concat rel with rfl | ⟨rel, name, rfl⟩
  · exact hrel.resolve_left fun h => h rfl
  · rw [List.concat_eq_append, pathOf_concat]
    exact getLast?_childPath (h name (by simp))

theorem pathOf_eq (h : ∀ n ∈ rel, IsName n) (hrel : rel ≠ []) :
    pathOf root rel = trim root ++ behind '/' rel := by
  induction rel using List.reverseRecOn with
  | nil => exact absurd rfl hrel
  | append_singleton rel name ih =>
    rw [pathOf_concat, childPath_eq_trim, behind_append]
    by_cases hr : rel = []
    · subst hr; simp [pathOf]
    · have hn : ∀ n ∈ rel, IsName n := fun n hn => h n (by simp [hn])
      rw [trim_of_not_slash (getLast?_pathOf hn (.inl hr)), ih hn hr]
      simp

theorem segs_pathOf (h : ∀ n ∈ rel, IsName n) : segs '/' (pathOf root rel) = segs '/' root ++ rel := by
  by_cases hrel : rel = []
  · subst hrel; simp [pathOf]
  · have hne : rel.filter (!·.isEmpty) = rel := List.filter_eq_self.2 fun n hn => by simpa using (h n hn).1
    rw [pathOf_eq h hrel, segs, splitOn_append_behind fun n hn => (h n hn).2, List.filter_append, hne,
      ← segs_trim root, segs]

theorem upToLast_childPath (h : IsName name) : upToLast '/' (childPath p name) = trim p := by
  rw [childPath_eq_trim]
  exact upToLast_append h.2

end Fts

/-- The path leads to `root` or to a place below it. -/
def Below (root p : Str) : Prop := ∃ rel, (∀ n ∈ rel, IsName n) ∧ p = Fts.pathOf root rel

theorem Below.refl (root : Str) : Below root root := ⟨[], by simp, rfl⟩

theorem Below.pathOf (h : Below root p) (hrel : ∀ n ∈ rel, IsName n) : Below root (Fts.pathOf p rel) := by
  obtain ⟨rel₀, h₀, rfl⟩ := h
  refine ⟨rel₀ ++ rel, fun n hn => ?_, (Fts.pathOf_append root rel₀ rel).symm⟩
  rcases List.mem_append.1 hn with hn | hn
  · exact h₀ n hn
  · exact hrel n hn

theorem Below.childPath (h : Below root p) (hn : IsName name) : Below root (Fts.childPath p name) :=
  h.pathOf (show ∀ n ∈ [name], IsName n by simpa using hn)

/-! ### What the tree sees -/

/-- A root whose text, put under `.`, has no empty piece, one `/` at its end apart. -/
def Plain (root : Str) : Prop := root ≠ [] ∧ [] ∉ (trim (DirTree.normalize root)).splitOn '/'

instance (root : Str) : Decidable (Plain root) := inferInstanceAs (Decidable (_ ∧ _))

theorem exists_normalize (c : Char) : ∃ pre, ∀ key, char0 key = c → DirTree.normalize key = pre ++ key := by
  by_cases h : c ≠ '/' ∧ c ≠ '.'
  · exact ⟨['.', '/'], fun key hk => by rw [DirTree.normalize, hk, if_pos h]⟩
  · by_cases hc : c = '/'
    · exact ⟨['.'], fun key hk => by rw [DirTree.normalize, hk, if_neg h, if_pos hc]⟩
    · exact ⟨[], fun key hk => by rw [DirTree.normalize, hk, if_neg h, if_neg hc]; rfl⟩

theorem char0_trim_append {key : Str} (hr : root ≠ []) (h : trim root ≠ [] ∨ key.head? = some '/') :
    char0 (trim root ++ key) = char0 root := by
  by_cases hs : root.getLast? = some '/'
  · conv_rhs => rw [← trim_of_slash hs]
    by_cases ht : trim root = []
    · obtain ⟨key, rfl⟩ := List.head?_eq_some_iff.1 (h.resolve_left fun h => h ht)
      rw [ht]; rfl
    · rw [char0_append ht, char0_append ht]
  · rw [trim_of_not_slash hs, char0_append hr]

theorem normalize_trim_append {key : Str} (hr : root ≠ []) (hk : trim root ≠ [] ∨ key.head? = some '/') :
    DirTree.normalize (trim root ++ key) = trim (DirTree.normalize root) ++ key := by
  obtain ⟨pre, hpre⟩ := exists_normalize (char0 root)
  rw [hpre _ (char0_trim_append hr hk), hpre root rfl, trim_append pre hr, List.append_assoc]

theorem tokens_eq_lead_trim (key : Str) : tokens key = lead '/' (trim (DirTree.normalize key)) := by
  rw [DirTree.tokens_eq]
  by_cases hs : (DirTree.normalize key).getLast? = some '/'
  · conv_lhs => rw [← trim_of_slash hs, lead_concat]
  · rw [trim_of_not_slash hs]

theorem Plain.tokens_eq (h : Plain root) : tokens root = (trim (DirTree.normalize root)).splitOn '/' := by
  rw [tokens_eq_lead_trim, lead_eq_splitOn h.2]

theorem Plain.tokens_pathOf (h : Plain root) (hrel : ∀ n ∈ rel, IsName n) :
    tokens (Fts.pathOf root rel) = tokens root ++ rel := by
  by_cases hne : rel = []
  · subst hne; simp [Fts.pathOf]
  · have hb : (behind '/' rel).head? = some '/' := by
      obtain ⟨n, rel, rfl⟩ := List.exists_cons_of_ne_nil hne
      rfl
    have hpieces := splitOn_append_behind (fun n hn => (hrel n hn).2) (trim (DirTree.normalize root))
    rw [DirTree.tokens_eq, Fts.pathOf_eq hrel hne, normalize_trim_append h.1 (.inr hb), lead_eq_splitOn, hpieces,
      h.tokens_eq]
    rw [hpieces, List.mem_append, not_or]
    exact ⟨h.2, fun hm => (hrel _ hm).1 rfl⟩

theorem Plain.tokens_trim (h : Plain root) : tokens (trim root) = tokens root := by
  by_cases ht : trim root = []
  · have hs : root.getLast? = some '/' := by
      by_contra hs
      exact h.1 (trim_of_not_slash hs ▸ ht)
    rw [ht, ← trim_of_slash hs, ht]
    rfl
  · have hn := normalize_trim_append h.1 (.inl ht : _ ∨ ([] : Str).head? = _)
    rw [List.append_nil, List.append_nil] at hn
    rw [DirTree.tokens_eq, hn, lead_eq_splitOn h.2, h.tokens_eq]

/-- The pieces and the tokens of a path below the root have the same end. -/
theorem Plain.exists_rel (h : Plain root) (hp : Below root p) : ∃ rel, segs '/' p = segs '/' root ++ rel ∧
    tokens p = tokens root ++ rel ∧ tokens (trim p) = tokens p := by
  obtain ⟨rel, hrel, rfl⟩ := hp
  refine ⟨rel, Fts.segs_pathOf hrel, h.tokens_pathOf hrel, ?_⟩
  by_cases hne : rel = []
  · subst hne; exact h.tokens_trim
  · rw [trim_of_not_slash (Fts.getLast?_pathOf hrel (.inl hne))]

end ChCppUtils
