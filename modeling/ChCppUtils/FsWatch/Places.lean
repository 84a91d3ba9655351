import ChCppUtils.FsWatch.Steps

/-!
# The paths the watcher keeps

Every path in `map` and in `set` is that of a place below the root: the text of the root with names
behind it, or that of `.` where the root is empty and `Fts` walks `.` in its stead. The names are those
of the entries and of the events, in any class of names that the missing `/` of `getFullPath` keeps: for
a root with a `/` at its end the name of an event is put right behind the last name of its directory.
-/

namespace ChCppUtils

open DirTree

/-- A class of names that two names put together are in. -/
structure NameClass (N : Str → Prop) : Prop where
  isName : ∀ n, N n → IsName n
  append : ∀ a b, N a → N b → N (a ++ b)

theorem NameClass.isName_class : NameClass IsName where
  isName := fun _ h => h
  append := by
    rintro a b ⟨ha, ha'⟩ ⟨-, hb'⟩
    refine ⟨by simp [ha], fun h => ?_⟩
    rcases List.mem_append.1 h with h | h
    · exact ha' h
    · exact hb' h

/-- The path leads to a place below `root`, by names of the class. -/
def Place (N : Str → Prop) (root p : Str) : Prop :=
  ∃ rel, (∀ n ∈ rel, N n) ∧ (p = Fts.pathOf root rel ∨ root = [] ∧ rel ≠ [] ∧ p = Fts.pathOf ['.'] rel)

variable {N : Str → Prop} {root p : Str} {rel : List Str} {name : Str}

theorem Place.refl (N : Str → Prop) (root : Str) : Place N root root := ⟨[], by simp, .inl rfl⟩

theorem Place.pathOf (h : Place N root p) (hrel : ∀ n ∈ rel, N n) : Place N root (Fts.pathOf p rel) := by
  obtain ⟨rel₀, h₀, hp⟩ := h
  refine ⟨rel₀ ++ rel, fun n hn => ?_, ?_⟩
  · rcases List.mem_append.1 hn with hn | hn
    · exact h₀ n hn
    · exact hrel n hn
  · rw [Fts.pathOf_append, Fts.pathOf_append]
    rcases hp with rfl | ⟨hroot, hne, rfl⟩
    · exact .inl rfl
    · exact .inr ⟨hroot, by simp [hne], rfl⟩

theorem Place.getLast? (hN : NameClass N) (h : Place N root p) (hroot : root.getLast? ≠ some '/') :
    p.getLast? ≠ some '/' := by
  obtain ⟨rel, hrel, hp⟩ := h
  have hname : ∀ n ∈ rel, IsName n := fun n hn => hN.isName n (hrel n hn)
  rcases hp with rfl | ⟨-, hne, rfl⟩
  · exact Fts.getLast?_pathOf hname (.inr hroot)
  · exact Fts.getLast?_pathOf hname (.inl hne)

theorem Place.fullPath (hN : NameClass N) (h : Place N root p) (hn : N name) :
    Place N root (p ++ (if root.getLast? = some '/' then [] else ['/']) ++ name) := by
  have hchild : Place N root (Fts.childPath p name) :=
    h.pathOf (show ∀ n ∈ [name], N n by simpa using hn)
  by_cases hs : root.getLast? = some '/'
  · rw [if_pos hs, List.append_nil]
    obtain ⟨rel, hrel, hp⟩ := h
    have hp : p = Fts.pathOf root rel := by
      rcases hp with hp | ⟨rfl, -⟩
      · exact hp
      · cases hs
    rcases List.eq_nil_or_concat rel with rfl | ⟨rel, a, rfl⟩
    · rw [Fts.childPath_eq, hp, show Fts.pathOf root [] = root from rfl, if_pos hs, List.append_nil] at hchild
      rw [hp]
      exact hchild
    · -- the name is put behind the last one
      rw [List.concat_eq_append] at hrel hp
      refine ⟨rel ++ [a ++ name], fun n hn' => ?_, .inl ?_⟩
      · rcases List.mem_append.1 hn' with hn' | hn'
        · exact hrel n (by simp [hn'])
        · rw [List.mem_singleton.1 hn']
          exact hN.append a name (hrel a (by simp)) hn
      · rw [hp, Fts.pathOf_concat, Fts.pathOf_concat, Fts.childPath_eq_trim, Fts.childPath_eq_trim]
        simp
  · rw [if_neg hs]
    rwa [Fts.childPath_eq, if_neg (h.getLast? hN hs)] at hchild

/-! ### What the tree sees of a place -/

theorem tokens_prefix_tokens_pathOf (hrel : ∀ n ∈ rel, IsName n) :
    tokens root <+: tokens (Fts.pathOf root rel) := by
  by_cases hne : rel = []
  · subst hne; exact List.prefix_rfl
  obtain ⟨n, rel, rfl⟩ := List.exists_cons_of_ne_nil hne
  rw [Fts.pathOf_eq hrel hne, DirTree.tokens_eq (_ ++ _)]
  by_cases hr : root = []
  · -- the tree puts the names under `.`
    subst hr
    rw [show tokens [] = Split.lead '/' ['.'] by decide]
    show Split.lead '/' ['.'] <+: Split.lead '/' (['.'] ++ '/' :: (n ++ Split.behind '/' rel))
    exact Split.lead_prefix_lead_append _ _
  · rw [tokens_eq_lead_trim, normalize_trim_append hr (.inr rfl)]
    exact Split.lead_prefix_lead_append _ _

theorem Place.prefix_tokens (hN : NameClass N) (h : Place N root p) : tokens root <+: tokens p := by
  obtain ⟨rel, hrel, hp⟩ := h
  have hname : ∀ n ∈ rel, IsName n := fun n hn => hN.isName n (hrel n hn)
  rcases hp with rfl | ⟨rfl, -, rfl⟩
  · exact tokens_prefix_tokens_pathOf hname
  · rw [show tokens [] = tokens ['.'] by decide]
    exact tokens_prefix_tokens_pathOf hname

namespace FsWatch

variable {s s' : FsWatch} {a : Action} {out : List Notice} {dir path : Str} {ans : Answer} {fd : Int}
  {event : InotifyEvent}

/-- The names that an action tells of. -/
def Action.names : Action → List Str
  | .entry rel _ _ => rel
  | .walkDone => []
  | .event _ event _ => if event.bit = .other then [] else [event.name]

/-- The paths the watcher keeps are places; the walk of an empty root is at `.`. -/
structure Placed (N : Str → Prop) (s : FsWatch) : Prop where
  map : ∀ fd dir, s.map.lookup fd = some dir → Place N s.root dir
  set : ∀ dir ∈ s.set, Place N s.root dir
  walking : ∀ dir ∈ s.walking, dir ≠ [] ∧ (Place N s.root dir ∨ s.root = [] ∧ dir = ['.'])

theorem Effect.root_eq (h : Effect s a s' out) : s'.root = s.root := by
  cases h with
  | entry hw hrel hs =>
    split at hs
    · rw [root_addWatch hs, root_reportFile]
    · rw [hs, root_reportFile]
  | walkDone hw => rfl
  | @create fd event ans path s₁ hr hk hp hs =>
    show s₁.root = s.root
    exact root_addWatch hs
  | modify hr hk hp hout =>
    split
    · exact root_addToTree
    · rfl
  | fileDelete hr hk hp hcb hc => rfl
  | dirDelete hr hk hp hs hc => exact (removeWatch_cases hs).1.root
  | ignored hr hk => rfl

theorem Effect.isName (h : Effect s a s' out) : ∀ n ∈ a.names, IsName n := by
  have hevent : ∀ {fd event ans}, s.Readable fd event → ∀ n ∈ Action.names (.event fd event ans), IsName n := by
    intro fd event ans hr n hn
    simp only [Action.names] at hn
    split at hn
    · cases hn
    · rename_i hb
      rw [List.mem_singleton.1 hn]
      exact hr.isName hb
  cases h with
  | entry hw hrel hs => exact hrel
  | walkDone hw => simp [Action.names]
  | create hr => exact hevent hr
  | modify hr => exact hevent hr
  | fileDelete hr => exact hevent hr
  | dirDelete hr => exact hevent hr
  | ignored hr => exact hevent hr

theorem ne_nil_of_getFullPath (hn : event.name ≠ []) (hp : s.getFullPath fd event = .ok path) : path ≠ [] := by
  obtain ⟨dir, -, rfl⟩ := getFullPath_eq_ok hp
  simp [hn]

theorem Placed.fullPath (hN : NameClass N) (h : Placed N s) (hn : N event.name)
    (hp : s.getFullPath fd event = .ok path) : Place N s.root path := by
  obtain ⟨dir, hdir, rfl⟩ := getFullPath_eq_ok hp
  exact (h.map fd dir hdir).fullPath hN hn

/-- What a walk reports is a place: the entry of `.` itself is hidden. -/
theorem Placed.entry_place {info : Nat} (h : Placed N s) (hw : s.walking = some dir) (hrel : ∀ n ∈ rel, N n)
    (hrep : Fts.ReportsFile options (Fts.entry dir rel info) ∨ Fts.ReportsDir options (Fts.entry dir rel info)) :
    Place N s.root (Fts.pathOf dir rel) := by
  rcases (h.walking dir hw).2 with hd | ⟨hroot, rfl⟩
  · exact hd.pathOf hrel
  · refine ⟨rel, hrel, .inr ⟨hroot, ?_, rfl⟩⟩
    rintro rfl
    have hdot : findLastOf '.' (Fts.entry ['.'] [] info).fts_name = 0 := by
      show findLastOf '.' (Fts.rootName ['.']) = 0
      decide
    rcases hrep with hrep | hrep
    · exact absurd (hrep.2.2.1 hdot) (by decide)
    · exact absurd (hrep.2.2 hdot).1 (by decide)

theorem Placed.congr (h : Placed N s) (hr : s'.root = s.root) (hm : s'.map = s.map) (hset : s'.set = s.set)
    (hw : s'.walking = s.walking) : Placed N s' := by
  refine ⟨?_, ?_, ?_⟩
  · rw [hm, hr]; exact h.map
  · rw [hset, hr]; exact h.set
  · rw [hw, hr]; exact h.walking

theorem Placed.addToTree {wd : Int} (h : Placed N s) : Placed N (s.addToTree path fd wd) :=
  h.congr root_addToTree map_addToTree set_addToTree walking_addToTree

theorem Placed.install (h : Placed N s) (hp : Place N s.root path) : Placed N (s.install path ans) := by
  refine ⟨fun fd dir hd => ?_, fun dir hd => ?_, ?_⟩
  · rw [root_install]
    rw [map_install] at hd
    by_cases hf : fd = ans.fd
    · subst hf
      cases hl : s.map.lookup ans.fd with
      | none =>
        rw [UnorderedMap.lookup_emplace_of_none hl] at hd
        exact Option.some.inj hd ▸ hp
      | some dir' =>
        rw [UnorderedMap.lookup_emplace_of_some hl] at hd
        exact Option.some.inj hd ▸ h.map _ dir' hl
    · rw [UnorderedMap.lookup_emplace_ne hf] at hd
      exact h.map fd dir hd
  · rw [root_install]
    rw [set_install] at hd
    rcases Finset.mem_insert.1 hd with rfl | hd
    · exact hp
    · exact h.set dir hd
  · rw [root_install, walking_install]
    exact h.walking

theorem Placed.addWatch (h : Placed N s) (hp : Place N s.root path) (hs : s.addWatch path ans = .ok s') :
    Placed N s' := by
  rcases addWatch_cases hs with ⟨-, rfl⟩ | ⟨-, -, -, rfl⟩
  · exact h
  · exact h.install hp

theorem Placed.effect (hN : NameClass N) (h : Placed N s) (ha : ∀ n ∈ a.names, N n)
    (he : Effect s a s' out) : Placed N s' := by
  cases he with
  | @entry dir rel info ans _ hw hrel hs =>
    have hplaced : Placed N (s.reportFile (Fts.entry dir rel info)) :=
      h.congr (root_reportFile _) (map_reportFile _) (set_reportFile _) (walking_reportFile _)
    split at hs
    · rename_i hd
      refine hplaced.addWatch ?_ hs
      rw [root_reportFile]
      exact h.entry_place hw ha (.inr hd)
    · rw [hs]
      exact hplaced
  | walkDone hw => exact ⟨h.map, h.set, nofun⟩
  | @create fd event ans path s₁ hr hk hp hs =>
    have hplace : Place N s.root path := h.fullPath hN (ha _ (by simp [Action.names, hk])) hp
    have h₁ := h.addWatch hplace hs
    have hroot : s₁.root = s.root := root_addWatch hs
    refine ⟨h₁.map, h₁.set, fun dir hd => ?_⟩
    obtain rfl := Option.some.inj hd
    show path ≠ [] ∧ (Place N s₁.root path ∨ _)
    rw [hroot]
    exact ⟨ne_nil_of_getFullPath (hr.isName (by simp [hk])).1 hp, .inl hplace⟩
  | modify hr hk hp hout =>
    split
    · exact h.addToTree
    · exact h
  | fileDelete hr hk hp hcb hc => exact h.congr rfl rfl rfl rfl
  | dirDelete hr hk hp hs hc =>
    obtain ⟨hcl, -⟩ := removeWatch_cases hs
    refine ⟨?_, fun dir hd => ?_, ?_⟩
    · rw [hcl.map, hcl.root]; exact h.map
    · rw [hcl.root]; exact h.set dir ((hcl.set dir).1 hd).1
    · rw [hcl.walking, hcl.root]; exact h.walking
  | ignored hr hk => exact h

theorem Placed.init {onNewFile onEmptyDir : Bool} {filters : Finset Str}
    (h : (new root onNewFile onEmptyDir filters).init ans = .ok s) : Placed N s ∧ s.root = root := by
  obtain ⟨-, rfl⟩ := init_cases h
  have hnew : Placed N (new root onNewFile onEmptyDir filters) :=
    ⟨fun fd dir hd => absurd hd (by simp [new]), fun dir hd => absurd hd (Finset.notMem_empty dir), nofun⟩
  have hi : Placed N ((new root onNewFile onEmptyDir filters).install root ans) := hnew.install (.refl N root)
  have hroot : ((new root onNewFile onEmptyDir filters).install root ans).root = root := root_install
  refine ⟨⟨hi.map, hi.set, fun dir hd => ?_⟩, hroot⟩
  have hd : (if root.length = 0 then ['.'] else root) = dir := Option.some.inj hd
  show dir ≠ [] ∧ (Place N ((new root onNewFile onEmptyDir filters).install root ans).root dir ∨
    ((new root onNewFile onEmptyDir filters).install root ans).root = [] ∧ dir = ['.'])
  rw [hroot, ← hd]
  by_cases hl : root.length = 0
  · rw [if_pos hl]
    exact ⟨List.cons_ne_nil _ _, .inr ⟨List.length_eq_zero_iff.1 hl, rfl⟩⟩
  · rw [if_neg hl]
    exact ⟨fun h => hl (List.length_eq_zero_iff.2 h), .inl (.refl N root)⟩

end FsWatch

end ChCppUtils
