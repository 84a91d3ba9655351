import ChCppUtils.FsWatch.MapCoherence
import ChCppUtils.FsWatch.Places

/-!
# How the paths of events are put together

`getFullPath` puts a `/` between the directory of the descriptor and the name of the event unless the root
ends in one. Only the root itself keeps the `/` at its end: in the directories below such a root the name
comes right behind the last name of the directory. All paths are well joined, at every depth, iff `map` is
right and no directory below a root with a `/` at its end is watched (`eachState_wellJoined_iff`).
-/

namespace ChCppUtils.FsWatch

open Runs Split

/-- `path` is `dir` and `name` with one `/` between them, and leads from the root to where the two lead. -/
structure Joined (s : FsWatch) (dir name path : Str) : Prop where
  eq : path = dir ++ (if dir.getLast? = some '/' then [] else ['/']) ++ name
  parent : upToLast '/' path = trim dir
  real : ∃ base rel, (base = s.root ∨ s.root = [] ∧ base = ['.']) ∧ (∀ n ∈ rel, IsName n) ∧
    dir = Fts.pathOf base rel ∧ path = Fts.pathOf base (rel ++ [name])

/-- The path of every event of an open descriptor is well joined. -/
def WellJoined (s : FsWatch) : Prop := ∀ fd d, s.descriptors.lookup fd = some d → ∀ event, IsName event.name →
  ∃ path, s.getFullPath fd event = .ok path ∧ s.Joined d.dir event.name path

/-- Where the root ends in a `/`, it is the only directory watched. -/
def RootOnly (s : FsWatch) : Prop :=
  s.root.getLast? = some '/' → ∀ fd d, s.descriptors.lookup fd = some d → d.dir = s.root

/-- A new descriptor has a number without an entry of another directory, and is not one for a directory below
a root that ends in a `/`. -/
def Joins (s : FsWatch) (a : Action) : Prop :=
  s.FreshNumber a ∧ ∀ x ∈ s.installs a, s.root.getLast? = some '/' → x.2 = s.root

instance (s : FsWatch) (a : Action) : Decidable (s.Joins a) :=
  inferInstanceAs (Decidable (s.FreshNumber a ∧ ∀ x ∈ s.installs a, _ → _))

variable {s s' : FsWatch} {a : Action} {dir dir' name : Str} {fd : Int} {d : Descriptor} {root : Str}

/-! ### One descriptor -/

theorem joined_childPath (h : Place IsName s.root dir) (hn : IsName name) :
    s.Joined dir name (Fts.childPath dir name) := by
  refine ⟨Fts.childPath_eq dir name, Fts.upToLast_childPath hn, ?_⟩
  obtain ⟨rel, hrel, rfl | ⟨hroot, -, rfl⟩⟩ := h
  · exact ⟨s.root, rel, .inl rfl, hrel, rfl, (Fts.pathOf_concat _ _ _).symm⟩
  · exact ⟨['.'], rel, .inr ⟨hroot, rfl⟩, hrel, rfl, (Fts.pathOf_concat _ _ _).symm⟩

theorem eq_root_of_slash (h : Place IsName root dir) (hslash : dir.getLast? = some '/') : dir = root := by
  obtain ⟨rel, hrel, rfl | ⟨-, hne, rfl⟩⟩ := h
  · by_contra hdir
    refine Fts.getLast?_pathOf hrel (.inl fun hnil => ?_) hslash
    subst hnil
    exact hdir rfl
  · exact absurd hslash (Fts.getLast?_pathOf hrel (.inl hne))

theorem trim_ne_place (h : Place IsName root dir) (hroot : root.getLast? = some '/') : dir ≠ trim root := by
  have hlast := trim_of_slash hroot
  rintro rfl
  obtain ⟨rel, hrel, he | ⟨rfl, -⟩⟩ := h
  · by_cases hne : rel = []
    · subst hne
      have := congrArg List.length (hlast.trans he.symm)
      simp at this
    · rw [Fts.pathOf_eq hrel hne, List.self_eq_append_right] at he
      obtain ⟨n, rel, rfl⟩ := List.exists_cons_of_ne_nil hne
      cases he
  · cases hroot

/-- Where a path is well joined, the directory that `map` has and the separator are the directory and a `/`. -/
theorem Joined.cut {entry : Str} (h : s.Joined dir name
    (entry ++ (if s.root.getLast? = some '/' then [] else ['/']) ++ name)) :
    entry ++ (if s.root.getLast? = some '/' then [] else ['/']) = trim dir ++ ['/'] := by
  have heq := h.eq
  rw [← Fts.childPath_eq, Fts.childPath_eq_trim, List.append_cons (trim dir)] at heq
  exact List.append_cancel_right heq

theorem Joined.eq_root {entry : Str} (hroot : s.root.getLast? = some '/') (hentry : Place IsName s.root entry)
    (h : s.Joined dir name (entry ++ (if s.root.getLast? = some '/' then [] else ['/']) ++ name)) :
    entry = s.root ∧ dir = s.root := by
  have hcut := h.cut
  obtain ⟨base, rel, hbase, hrel, hdir, -⟩ := h.real
  have hplace : Place IsName s.root dir := by
    obtain rfl | ⟨hnil, -⟩ := hbase
    · exact ⟨rel, hrel, .inl hdir⟩
    · rw [hnil] at hroot
      cases hroot
  rw [if_pos hroot, List.append_nil] at hcut
  have hentryroot : entry = s.root := eq_root_of_slash hentry (by rw [hcut]; simp)
  have hslash : dir.getLast? = some '/' := by
    by_contra hno
    refine trim_ne_place hplace hroot ?_
    rw [hentryroot, ← trim_of_slash hroot, trim_of_not_slash hno] at hcut
    exact (List.append_cancel_right hcut).symm
  exact ⟨hentryroot, eq_root_of_slash hplace hslash⟩

theorem Joined.entry_eq {entry : Str} (hroot : s.root.getLast? ≠ some '/')
    (h : s.Joined dir name (entry ++ (if s.root.getLast? = some '/' then [] else ['/']) ++ name)) : entry = dir := by
  have hcut := h.cut
  obtain ⟨base, rel, hbase, hrel, hdir, -⟩ := h.real
  have hno : dir.getLast? ≠ some '/' := by
    rw [hdir]
    refine Fts.getLast?_pathOf hrel (.inr ?_)
    obtain rfl | ⟨-, rfl⟩ := hbase
    · exact hroot
    · decide
  rw [if_neg hroot, trim_of_not_slash hno] at hcut
  exact List.append_cancel_right hcut

/-- The paths of a descriptor are well joined iff `map` has its directory, and only the root is watched where
it ends in a `/`. -/
theorem wellJoined_descriptor_iff (h : Placed IsName s) :
    (∀ event, IsName event.name → ∃ path, s.getFullPath fd event = .ok path ∧ s.Joined dir event.name path) ↔
      s.map.lookup fd = some dir ∧ (s.root.getLast? = some '/' → dir = s.root) := by
  constructor
  · intro hjoined
    obtain ⟨path, hpath, hj⟩ := hjoined ⟨.other, false, ['x']⟩ (by decide)
    obtain ⟨entry, hentry, rfl⟩ := getFullPath_eq_ok hpath
    by_cases hroot : s.root.getLast? = some '/'
    · obtain ⟨rfl, rfl⟩ := hj.eq_root hroot (h.map fd entry hentry)
      exact ⟨hentry, fun _ => rfl⟩
    · obtain rfl := hj.entry_eq hroot
      exact ⟨hentry, fun hs => absurd hs hroot⟩
  · rintro ⟨hdir, hroot⟩ event hn
    have hplace := h.map fd dir hdir
    have hsep : s.root.getLast? = some '/' ↔ dir.getLast? = some '/' := by
      constructor
      · intro hs
        rw [hroot hs]
        exact hs
      · intro hs
        rw [← eq_root_of_slash hplace hs]
        exact hs
    refine ⟨Fts.childPath dir event.name, ?_, joined_childPath hplace hn⟩
    rw [getFullPath, hdir, Fts.childPath_eq]
    simp only [hsep]
    rfl

/-! ### Runs -/

theorem wellJoined_iff (h : Placed IsName s) : s.WellJoined ↔ s.MapCoherent ∧ s.RootOnly := by
  rw [mapCoherent_iff]
  constructor
  · intro hj
    refine ⟨fun fd d hd => ?_, fun hs fd d hd => ?_⟩
    · exact ((wellJoined_descriptor_iff h).1 (hj fd d hd)).1
    · exact ((wellJoined_descriptor_iff h).1 (hj fd d hd)).2 hs
  · rintro ⟨hm, hroot⟩ fd d hd
    exact (wellJoined_descriptor_iff h).2 ⟨hm fd d hd, fun hs => hroot hs fd d hd⟩

/-- Of the descriptors only a new one can be for another directory than the root. -/
theorem rootOnly_iff_of_next (h : s.RootOnly) (hs : s.next a = .ok s') :
    s'.RootOnly ↔ ∀ x ∈ s.installs a, s.root.getLast? = some '/' → x.2 = s.root := by
  obtain ⟨out, he⟩ := next_effect hs
  have hm := he.mapEffect
  unfold RootOnly at h ⊢
  rw [he.root_eq]
  cases hi : s.installs a with
  | none =>
    rw [hi] at hm
    cases hm with
    | rest hmap hds => exact iff_of_true (fun hs fd d hd => h hs fd d (hds fd d hd)) (by simp)
  | some x =>
    rw [hi] at hm
    cases hm with
    | @install fd d hfd hmap hds =>
      constructor
      · intro hroot y hy hs
        obtain rfl := Option.some.inj hy
        exact hroot hs fd d (by rw [hds, AList.lookup_insert])
      · intro hx hs fd' d' hd
        rw [hds] at hd
        by_cases hf : fd' = fd
        · rw [hf, AList.lookup_insert] at hd
          obtain rfl := Option.some.inj hd
          exact hx _ rfl hs
        · rw [AList.lookup_insert_ne hf] at hd
          exact h hs fd' d' hd

theorem RootOnly.init {onNewFile onEmptyDir : Bool} {filters : Finset Str} {ans : Answer}
    (h : (new root onNewFile onEmptyDir filters).init ans = .ok s) : s.RootOnly := by
  obtain ⟨-, hroot⟩ := Placed.init (N := IsName) h
  obtain ⟨-, rfl⟩ := init_cases h
  intro hs fd d hd
  have hd : ((new root onNewFile onEmptyDir filters).install root ans).descriptors.lookup fd = some d := hd
  rw [descriptors_install] at hd
  by_cases hf : fd = ans.fd
  · rw [hf, AList.lookup_insert] at hd
    obtain rfl := Option.some.inj hd
    exact hroot.symm
  · rw [AList.lookup_insert_ne hf] at hd
    cases hd

/-- In every state of a run all paths are well joined iff every step that watches a directory joins it. -/
theorem eachState_wellJoined_iff (root : Str) (onNewFile onEmptyDir : Bool) (filters : Finset Str) (ans : Answer)
    (s₀ : FsWatch) (tr : List (Action × FsWatch)) (hinit : (new root onNewFile onEmptyDir filters).init ans = .ok s₀)
    (hrun : Run (Ok next) s₀ tr) : EachState WellJoined s₀ tr ↔ EachStep Joins s₀ tr := by
  have hplaced : ∀ {s a s'}, Placed IsName s → Ok next s a s' → Placed IsName s' := by
    intro s a s' h hs
    obtain ⟨out, he⟩ := next_effect hs
    exact h.effect .isName_class he.isName he
  refine Run.eachState_iff (I := fun s => Placed IsName s ∧ s.WellJoined) (fun s h => h.2) ?_ ?_
    ⟨(Placed.init hinit).1, ?_⟩ hrun
  · rintro s a s' ⟨hp, hw⟩ hc hs
    obtain ⟨hm, hroot⟩ := (wellJoined_iff hp).1 hw
    have hp' := hplaced hp hs
    exact ⟨hp', (wellJoined_iff hp').2 ⟨hm.step hc.1 hs, (rootOnly_iff_of_next hroot hs).2 hc.2⟩⟩
  · rintro s a s' ⟨hp, hw⟩ hs hw'
    obtain ⟨-, hroot⟩ := (wellJoined_iff hp).1 hw
    obtain ⟨hm', hroot'⟩ := (wellJoined_iff (hplaced hp hs)).1 hw'
    exact ⟨freshNumber_of_next hs hm', (rootOnly_iff_of_next hroot hs).1 hroot'⟩
  · exact (wellJoined_iff (Placed.init hinit).1).2 ⟨MapCoherent.init hinit, RootOnly.init hinit⟩

/-- Directories of events, one in the other, below a root without a `/` at its end. -/
theorem wellJoined_nested : ∃ s₀ tr, (new "r".toList false false ∅).init ⟨3, 1, true⟩ = .ok s₀ ∧
    exec next s₀ [.walkDone, .event 3 (dirEvent .create "a".toList) ⟨5, 1, true⟩, .walkDone,
      .event 5 (dirEvent .create "b".toList) ⟨6, 1, true⟩] = .ok tr ∧ EachState WellJoined s₀ tr := by
  have hg : Gives ((new "r".toList false false ∅).init ⟨3, 1, true⟩) fun s₀ =>
      Goes next Joins (fun _ => True) s₀
        [.walkDone, .event 3 (dirEvent .create "a".toList) ⟨5, 1, true⟩, .walkDone,
          .event 5 (dirEvent .create "b".toList) ⟨6, 1, true⟩] := by
    decide
  obtain ⟨s₀, hinit, hgoes⟩ := hg.ok
  obtain ⟨tr, htr, hc, -⟩ := hgoes.exec
  exact ⟨s₀, tr, hinit, htr, (eachState_wellJoined_iff _ _ _ _ _ s₀ tr hinit (Run.of_exec htr)).2 hc⟩

/-- The root `r/`, and `r/a` in it: for a name `b` in `r/a` the path is `r/ab`. -/
theorem not_wellJoined_slash : ∃ s₀ tr, (new "r/".toList false false ∅).init ⟨3, 1, true⟩ = .ok s₀ ∧
    exec next s₀ [.walkDone, .event 3 (dirEvent .create "a".toList) ⟨5, 1, true⟩] = .ok tr ∧
      ¬ EachState WellJoined s₀ tr := by
  have hg : Gives ((new "r/".toList false false ∅).init ⟨3, 1, true⟩) fun s₀ =>
      Goes next (fun _ _ => True) (fun s => s.getFullPath 5 (dirEvent .create "b".toList) = .ok "r/ab".toList ∧
          s.descriptors.lookup 5 = some ⟨"r/a".toList, 1, true⟩) s₀
        [.walkDone, .event 3 (dirEvent .create "a".toList) ⟨5, 1, true⟩] := by
    decide
  obtain ⟨s₀, hinit, hgoes⟩ := hg.ok
  obtain ⟨tr, htr, -, s, ⟨hpath, hd⟩, hs⟩ := hgoes.exec
  refine ⟨s₀, tr, hinit, htr, fun h => ?_⟩
  obtain ⟨path, hp, hj⟩ := hs _ h 5 _ hd (dirEvent .create "b".toList) (by decide)
  rw [hpath] at hp
  obtain rfl := Except.ok.inj hp
  exact absurd hj.eq (by decide)

end ChCppUtils.FsWatch
