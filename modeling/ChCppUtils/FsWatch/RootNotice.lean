import ChCppUtils.FsWatch.EmptyDir
import ChCppUtils.FsWatch.Places

/-!
# The root is not reported

`checkEmptyDir` spares the root by comparing texts: the parent of what is deleted is the path of the
event up to its last `/`, and that never has a `/` at its end. A root without one is spared whatever
happens. A root with one never equals a parent's text, and is reported under the shorter spelling when
the last file in it goes; only where the root has an empty piece inside does it escape, since there the
tree files all paths under the one node that the deletion drops (`sparesRoot_iff`).
-/

namespace ChCppUtils.FsWatch

open Runs DirTree Split

/-- The names a path goes by; an empty piece and `.` go nowhere. -/
def names (p : Str) : List Str := (segs '/' p).filter (· ≠ ['.'])

/-- Two spellings of a directory: both from `/` or both not, and by the same names. -/
def SameDir (p q : Str) : Prop := (p.head? = some '/' ↔ q.head? = some '/') ∧ names p = names q

instance (p q : Str) : Decidable (SameDir p q) := inferInstanceAs (Decidable ((_ ↔ _) ∧ _))

/-- No notice is about the root or has an empty path. -/
def SparesRoot (root : Str) (out : List Notice) : Prop :=
  ∀ data, .emptyDir data ∈ out → data.path ≠ [] ∧ ¬ SameDir data.path root

/-- The kernel tells of no entry `.` or `..`. -/
def NoDots (n : Str) : Prop := IsName n ∧ n ≠ ['.'] ∧ n ≠ ['.', '.']

instance (n : Str) : Decidable (NoDots n) := inferInstanceAs (Decidable (_ ∧ _ ∧ _))

def Proper (a : Action) : Prop := ∀ n ∈ a.names, NoDots n

instance (a : Action) : Decidable (Proper a) := inferInstanceAs (Decidable (∀ n ∈ a.names, _))

variable {s s' : FsWatch} {a : Action} {out : List Notice} {dir path root : Str} {rel : List Str}
  {ans : Answer} {data : OnFileData}

theorem nameClass_noDots : NameClass NoDots where
  isName := fun _ h => h.1
  append := by
    rintro a b ⟨ha, ha₁, -⟩ ⟨hb, -, -⟩
    refine ⟨NameClass.isName_class.append a b ha hb, fun h => ?_, fun h => ?_⟩
    · rcases List.append_eq_singleton_iff.1 h with ⟨h, -⟩ | ⟨-, h⟩
      · exact ha.1 h
      · exact hb.1 h
    · obtain ⟨x, a, rfl⟩ := List.exists_cons_of_ne_nil ha.1
      obtain ⟨y, b, rfl⟩ := List.exists_cons_of_ne_nil hb.1
      obtain ⟨rfl, h⟩ := List.cons.inj h
      obtain rfl : a = [] := by
        cases a with
        | nil => rfl
        | cons z a => simp at h
      exact ha₁ rfl

/-! ### Where a notice comes from -/

/-- A notice is about the directory up to the last `/` of the path of a deletion. -/
theorem Effect.of_emptyDir (h : Effect s a s' out) (hd : .emptyDir data ∈ out) :
    ∃ fd event ans path, a = .event fd event ans ∧ event.bit ≠ .other ∧ s.getFullPath fd event = .ok path ∧
      data.path = upToLast '/' path ∧ upToLast '/' path ≠ s.root ∧
      s'.tree.hasChildren (upToLast '/' path) = .ok false ∧ s'.tree = (s.tree.drop path).1 := by
  cases h with
  | entry hw hrel hs => simp at hd
  | walkDone hw => simp at hd
  | create hr hk hp hs => simp at hd
  | modify hr hk hp hout => exact absurd hd (hout data)
  | fileDelete hr hk hp hcb hc =>
    obtain ⟨hdata, hchild, hne⟩ := of_mem_checkEmptyDir hc hd
    exact ⟨_, _, _, _, rfl, by simp [hk], hp, hdata, hne, hchild, rfl⟩
  | dirDelete hr hk hp hs hc =>
    obtain ⟨hdata, hchild, hne⟩ := of_mem_checkEmptyDir hc hd
    obtain ⟨hcl, htree⟩ := removeWatch_cases hs
    exact ⟨_, _, _, _, rfl, by simp [hk], hp, hdata, hcl.root ▸ hne, hchild, htree⟩
  | ignored hr hk => simp at hd

/-! ### A root without `/` at its end -/

theorem Place.not_sameDir (h : Place NoDots root dir) (hne : dir ≠ root) :
    dir ≠ [] ∧ ¬ SameDir dir root := by
  obtain ⟨rel, hrel, hp⟩ := h
  have hname : ∀ n ∈ rel, IsName n := fun n hn => (hrel n hn).1
  have hrel₀ : rel ≠ [] := by
    rintro rfl
    rcases hp with hp | ⟨-, hnil, -⟩
    · exact hne hp
    · exact hnil rfl
  have hkeep : rel.filter (· ≠ ['.']) = rel := List.filter_eq_self.2 fun n hn => by simpa using (hrel n hn).2.1
  have hnames : names dir = names root ++ rel := by
    rcases hp with rfl | ⟨rfl, -, rfl⟩
    · rw [names, Fts.segs_pathOf hname, List.filter_append, hkeep, names]
    · rw [names, Fts.segs_pathOf hname, List.filter_append, hkeep]
      rfl
  constructor
  · rintro rfl
    rw [show names [] = [] from rfl] at hnames
    simp [hrel₀] at hnames
  · intro hsame
    have hsame := hsame.2
    rw [hnames] at hsame
    simp [hrel₀] at hsame

theorem Placed.sparesRoot (h : Placed NoDots s) (hslash : s.root.getLast? ≠ some '/') (ha : Proper a)
    (he : Effect s a s' out) : SparesRoot s.root out := by
  intro data hd
  obtain ⟨fd, event, ans, path, rfl, hbit, hp, hdata, hne, -, -⟩ := he.of_emptyDir hd
  have hname : NoDots event.name := ha event.name (by simp [Action.names, hbit])
  obtain ⟨dir, hdir, rfl⟩ := getFullPath_eq_ok hp
  have hup : upToLast '/' (dir ++ ['/'] ++ event.name) = dir := by
    rw [List.append_assoc]
    exact upToLast_append hname.1.2
  rw [if_neg hslash, hup] at hne hdata
  rw [hdata]
  exact Place.not_sameDir (h.map fd dir hdir) hne

/-! ### A root with an empty piece inside -/

/-- All paths that start with such a root are one key of the tree. -/
theorem tokens_of_not_plain (hroot : root.getLast? = some '/') (hplain : ¬ Plain root) (key : Str) :
    tokens (trim root ++ '/' :: key) = tokens root ∧ tokens (trim root) = tokens root := by
  have hr : root ≠ [] := by
    rintro rfl
    cases hroot
  have hmem : [] ∈ (trim (DirTree.normalize root)).splitOn '/' := by
    by_contra hmem
    exact hplain ⟨hr, hmem⟩
  have ht : trim root ≠ [] := by
    intro ht
    rw [← trim_of_slash hroot, ht] at hplain
    exact hplain (by decide)
  constructor
  · rw [DirTree.tokens_eq, normalize_trim_append hr (.inl ht), lead_append_of_nil_mem hmem,
      tokens_eq_lead_trim root]
  · have hn := normalize_trim_append hr (.inl ht : _ ∨ ([] : Str).head? = _)
    rw [List.append_nil, List.append_nil] at hn
    rw [DirTree.tokens_eq, hn, tokens_eq_lead_trim root]

theorem tokens_pathOf_of_not_plain (hroot : root.getLast? = some '/') (hplain : ¬ Plain root)
    (hrel : ∀ n ∈ rel, IsName n) : tokens (Fts.pathOf root rel) = tokens root ∧
      tokens (upToLast '/' (Fts.pathOf root rel)) = tokens root := by
  have htrim := (tokens_of_not_plain hroot hplain []).2
  have hpath : ∀ rel, (∀ n ∈ rel, IsName n) → tokens (Fts.pathOf root rel) = tokens root := by
    intro rel hrel
    cases rel with
    | nil => rfl
    | cons n rel =>
      rw [Fts.pathOf_eq hrel (List.cons_ne_nil n rel)]
      exact (tokens_of_not_plain hroot hplain _).1
  refine ⟨hpath rel hrel, ?_⟩
  rcases List.eq_nil_or_concat rel with rfl | ⟨rel, n, rfl⟩
  · show tokens (upToLast '/' root) = _
    rw [← trim_of_slash hroot, upToLast_append List.not_mem_nil, trim_of_slash hroot, htrim]
  · rw [List.concat_eq_append] at hrel ⊢
    rw [Fts.pathOf_concat, Fts.upToLast_childPath (hrel n (by simp))]
    by_cases hne : rel = []
    · subst hne; exact htrim
    · have hrel' : ∀ n ∈ rel, IsName n := fun n hn => hrel n (by simp [hn])
      rw [trim_of_not_slash (Fts.getLast?_pathOf hrel' (.inl hne)), hpath rel hrel']

/-- What is deleted takes the node of its parent with it, and nothing is reported. -/
theorem Placed.no_notice (h : Placed NoDots s) (hroot : s.root.getLast? = some '/')
    (hplain : ¬ Plain s.root) (ha : Proper a) (he : Effect s a s' out) : .emptyDir data ∉ out := by
  intro hd
  obtain ⟨fd, event, ans, path, rfl, hbit, hp, -, -, hchild, htree⟩ := he.of_emptyDir hd
  have hname : NoDots event.name := ha event.name (by simp [Action.names, hbit])
  obtain ⟨rel, hrel, hpath⟩ := h.fullPath nameClass_noDots hname hp
  have hpath : path = Fts.pathOf s.root rel := by
    rcases hpath with hpath | ⟨hnil, -⟩
    · exact hpath
    · rw [hnil] at hroot
      cases hroot
  obtain ⟨htok, hup⟩ := tokens_pathOf_of_not_plain hroot hplain fun n hn => (hrel n hn).1
  rw [← hpath] at htok hup
  have hnode := (hasChildren_eq_false_iff.1 hchild).1
  rw [htree, view_drop, PathMap.drop_isSome, htok, hup] at hnode
  exact hnode.1 List.prefix_rfl

/-! ### A root with `/` at its end and no empty piece -/

theorem not_concat_below {p : List Str} {k : Str} : ¬ p ++ [k] <+: p := by
  intro h
  have := h.length_le
  rw [List.length_append, List.length_singleton] at this
  omega

theorem init_eq (root : Str) (onNewFile onEmptyDir : Bool) (filters : Finset Str) (h : 0 ≤ ans.fd) :
    (new root onNewFile onEmptyDir filters).init ans =
      .ok { (new root onNewFile onEmptyDir filters).install root ans with
        walking := some (if root.length = 0 then ['.'] else root) } := by
  have hadd : (new root onNewFile onEmptyDir filters).addWatch root ans =
      .ok ((new root onNewFile onEmptyDir filters).install root ans) :=
    addWatch_eq_install (Finset.notMem_empty root) h (AList.notMem_empty _)
  rw [init, show (new root onNewFile onEmptyDir filters).root = root from rfl, hadd]
  refine congrArg Except.ok ?_
  simp only [root_install, new]

/-- The first file that goes from a root with nothing below it in the tree has the root reported. -/
theorem root_notice (hroot : root.getLast? = some '/') (hplain : Plain root) (hw : s.walking = none)
    (hr : s.root = root) (hcb : s.onEmptyDir = true) (hm : s.map.lookup 3 = some root)
    (hd : 3 ∈ s.descriptors) (hn : (s.tree.view (tokens root)).isSome)
    (hc : ∀ k, s.tree.view (tokens root ++ [k]) = none) :
    ∃ s', s.step (.event 3 ⟨.delete, false, ['x']⟩ ans) =
      .ok (s', [.emptyDir ⟨trim root, [], trim root, IS_DIR⟩]) := by
  have hpath : s.getFullPath 3 ⟨.delete, false, ['x']⟩ = .ok (Fts.childPath root ['x']) := by
    rw [getFullPath, hm, hr, Fts.childPath_eq]
    rfl
  have hx : IsName ['x'] := by decide
  have htok : tokens (Fts.childPath root ['x']) = tokens root ++ [['x']] := by
    have hchild : Fts.childPath root ['x'] = Fts.pathOf root [['x']] := rfl
    rw [hchild]
    exact hplain.tokens_pathOf (show ∀ n ∈ [['x']], IsName n by simpa using hx)
  -- the node of the root is left, without a child
  have hchild : (s.removeFromTree (Fts.childPath root ['x'])).tree.hasChildren (trim root) = .ok false := by
    rw [hasChildren_eq_false_iff, hplain.tokens_trim]
    show ((s.tree.drop (Fts.childPath root ['x'])).1.view _).isSome ∧
      ∀ k, (s.tree.drop (Fts.childPath root ['x'])).1.view _ = none
    rw [view_drop, htok]
    refine ⟨PathMap.drop_isSome.2 ⟨not_concat_below, hn⟩, fun k => ?_⟩
    · rw [← Option.not_isSome_iff_eq_none, PathMap.drop_isSome, hc k]
      simp
  have hne : trim root ≠ root := by
    intro he
    have := congrArg List.length (trim_of_slash hroot)
    rw [he] at this
    simp at this
  have hcheck : (s.removeFromTree (Fts.childPath root ['x'])).checkEmptyDir (Fts.childPath root ['x']) =
      .ok [fireDirCbk (trim root) [] (trim root)] := by
    have hcb' : (s.removeFromTree (Fts.childPath root ['x'])).onEmptyDir = true := hcb
    have hne' : trim root ≠ (s.removeFromTree (Fts.childPath root ['x'])).root := hr ▸ hne
    rw [checkEmptyDir, if_pos hcb', Fts.upToLast_childPath hx]
    dsimp only
    rw [hchild]
    show (if trim root ≠ (s.removeFromTree (Fts.childPath root ['x'])).root then _ else _) = _
    rw [if_pos hne']
    rfl
  have hm' : 3 ∈ s.map := UnorderedMap.mem_of_lookup hm
  refine ⟨s.removeFromTree (Fts.childPath root ['x']), ?_⟩
  rw [step, if_pos ⟨hw, hd, .inr hx⟩, if_pos hm']
  show s.handleFileDelete 3 _ = _
  rw [handleFileDelete, if_pos hcb, hpath]
  show (do let out ← (s.removeFromTree (Fts.childPath root ['x'])).checkEmptyDir (Fts.childPath root ['x'])
           return (s.removeFromTree (Fts.childPath root ['x']), out) : Res _) = _
  rw [hcheck]
  rfl

theorem sameDir_trim (hroot : root.getLast? = some '/') (ht : trim root ≠ []) : SameDir (trim root) root := by
  refine ⟨?_, by rw [names, names, segs_trim]⟩
  conv_rhs => rw [← trim_of_slash hroot]
  rw [List.head?_append_of_ne_nil _ ht]

theorem exists_not_sparesRoot (hroot : root.getLast? = some '/') (hplain : Plain root) :
    ∃ w s s' out, (new root false true ∅).init ⟨3, 1, true⟩ = .ok w ∧
      Reach (Under (fun _ a => Proper a) (Ok next)) w s ∧
      s.step (.event 3 ⟨.delete, false, ['x']⟩ ⟨3, 1, true⟩) = .ok (s', out) ∧ ¬ SparesRoot root out := by
  have hinit : (new root false true ∅).init ⟨3, 1, true⟩ = _ := init_eq root false true ∅ (by decide)
  set w₀ := (new root false true ∅).install root ⟨3, 1, true⟩ with hw₀
  obtain ⟨node, htree, -⟩ : ∃ node : TreeNode, w₀.tree = DirTree.new.insert root (some node) ∧ _ :=
    tree_install (by decide)
  have hview : ∀ p, w₀.tree.view p = PathMap.insert none (tokens root) (some node) DirTree.new.view p := by
    intro p
    rw [htree, view_insert]
  have hnode : (w₀.tree.view (tokens root)).isSome := by
    rw [hview, PathMap.insert_self]
    rfl
  have hchild : ∀ k, w₀.tree.view (tokens root ++ [k]) = none := by
    intro k
    rw [hview, PathMap.insert_not_above _ _ not_concat_below, view_new (by simp)]
  have hm : w₀.map.lookup 3 = some root := by
    rw [hw₀, map_install]
    exact UnorderedMap.lookup_emplace_of_none rfl
  have hd : 3 ∈ w₀.descriptors := by
    rw [hw₀, descriptors_install, AList.mem_insert]
    exact .inl rfl
  obtain ⟨s', hs'⟩ : ∃ s', FsWatch.step { w₀ with walking := none }
      (.event 3 ⟨.delete, false, ['x']⟩ ⟨3, 1, true⟩) = .ok (s', [.emptyDir ⟨trim root, [], trim root, IS_DIR⟩]) :=
    root_notice hroot hplain rfl root_install onEmptyDir_install hm hd hnode hchild
  refine ⟨_, { w₀ with walking := none }, s', _, hinit, Reach.refl.step (a := .walkDone) ⟨?_, rfl⟩, hs', fun h => ?_⟩
  · simp [Proper, Action.names]
  · obtain ⟨hne, hsame⟩ := h _ (List.mem_singleton_self _)
    exact hsame (sameDir_trim hroot hne)

/-! ### Runs -/

/-- The roots that are never reported: those without a `/` at their end, and those with an empty piece. -/
theorem sparesRoot_iff (root : Str) :
    (∀ onNewFile onEmptyDir filters ans w s a s' out, (new root onNewFile onEmptyDir filters).init ans = .ok w →
      Reach (Under (fun _ a => Proper a) (Ok next)) w s → Proper a → s.step a = .ok (s', out) →
      SparesRoot root out) ↔ ¬ (root.getLast? = some '/' ∧ Plain root) := by
  constructor
  · rintro h ⟨hroot, hplain⟩
    obtain ⟨w, s, s', out, hinit, hr, hs, hnot⟩ := exists_not_sparesRoot hroot hplain
    exact hnot (h _ _ _ _ w s _ s' out hinit hr (by decide) hs)
  · intro hroot onNewFile onEmptyDir filters ans w s a s' out hinit hr ha hs
    obtain ⟨hplaced, hwroot⟩ := Placed.init (N := NoDots) hinit
    have hinv : Placed NoDots s ∧ s.root = root := by
      refine hr.invariant (I := fun s => Placed NoDots s ∧ s.root = root) ⟨hplaced, hwroot⟩ fun s a s' hI hs => ?_
      obtain ⟨out, he⟩ := next_effect hs.2
      exact ⟨hI.1.effect nameClass_noDots hs.1 he, he.root_eq.trans hI.2⟩
    obtain ⟨hplaced, rfl⟩ := hinv
    have he := step_effect hs
    by_cases hslash : s.root.getLast? = some '/'
    · exact fun data hd => absurd hd (hplaced.no_notice hslash (fun hp => hroot ⟨hslash, hp⟩) ha he)
    · exact hplaced.sparesRoot hslash ha he

/-- The last file goes from `r/`. -/
theorem not_sparesRoot_slash :
    ∃ w s s' out, (new "r/".toList false true ∅).init ⟨3, 1, true⟩ = .ok w ∧
      Reach (Under (fun _ a => Proper a) (Ok next)) w s ∧
      s.step (.event 3 ⟨.delete, false, "a".toList⟩ ⟨5, 1, true⟩) = .ok (s', out) ∧ ¬ SparesRoot "r/".toList out := by
  have hg : Gives ((new "r/".toList false true ∅).init ⟨3, 1, true⟩) fun w =>
      Goes next (fun _ a => Proper a)
        (fun s => Gives (s.step (.event 3 ⟨.delete, false, "a".toList⟩ ⟨5, 1, true⟩)) fun x =>
          .emptyDir ⟨"r".toList, [], "r".toList, IS_DIR⟩ ∈ x.2) w
        [.entry ["a".toList] Fts.FTS_F ⟨5, 1, true⟩, .walkDone] := by
    decide
  obtain ⟨w, hinit, hgoes⟩ := hg.ok
  obtain ⟨s, hr, hstep⟩ := hgoes.reach
  obtain ⟨⟨s', out⟩, hs, hfired⟩ := hstep.ok
  refine ⟨w, s, s', out, hinit, hr, hs, fun h => ?_⟩
  exact (h _ hfired).2 (by decide)

end ChCppUtils.FsWatch
