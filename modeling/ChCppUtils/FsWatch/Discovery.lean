import ChCppUtils.FsWatch.Coverage

/-!
# How a directory was found

A directory that is there before `init` is found by the walk, which leaves hidden ones out; one that is
made later is found by an event, whose handler does not ask. Two runs that come to rest in the same tree
agree on every directory with no name on its way that the walk takes for hidden (`watched_iff_of_rests`),
whichever of the two found it in each of them. On a hidden one they need not.
-/

namespace ChCppUtils.FsWatch

open Runs

/-- A run of a watcher of `root`, whatever its callbacks and filters, from the tree `dirs` that has come to
rest in `s`. -/
structure Rests (root : Str) (dirs : Dirs) (s : World) : Prop where
  run : ∃ onNewFile onEmptyDir filters ans w, Succeeds ans ∧
    (new root onNewFile onEmptyDir filters).init ans = .ok w ∧ Reach (Ok World.step) (World.start dirs w) s
  quiet : s.Quiet

def Watched (s : World) (p : List Str) : Prop := ∃ fd, s.watch.Watches fd p

variable {root : Str} {dirs dirs' : Dirs} {s s' : World} {p : List Str}

theorem Rests.watched (h : Rests root dirs s) (hroot : root ≠ []) (hslash : root.getLast? ≠ some '/')
    (hp : p ∈ s.dirs.all) (hvis : Unfiltered p) : Watched s p := by
  obtain ⟨⟨onNewFile, onEmptyDir, filters, ans, w, hans, hinit, hr⟩, hquiet⟩ := h
  exact ((World.covered_of_reach hroot hslash hans hinit hr).watched hquiet hp hvis).2

/-- The directory may be in `dirs` and not in `dirs'`, so that one run finds it by a walk and the other
by an event. -/
theorem watched_iff_of_rests (root : Str) (dirs dirs' : Dirs) (s s' : World) (p : List Str) (hroot : root ≠ [])
    (hslash : root.getLast? ≠ some '/') (h : Rests root dirs s) (h' : Rests root dirs' s')
    (hdirs : s.dirs.all = s'.dirs.all) (hp : p ∈ s.dirs.all) (hvis : Unfiltered p) : Watched s p ↔ Watched s' p :=
  iff_of_true (h.watched hroot hslash hp hvis) (h'.watched hroot hslash (hdirs ▸ hp) hvis)

theorem Rests.of_goes {P : World → Prop} (ms : List World.Move)
    (h : Gives ((new root false false ∅).init ⟨3, 1, true⟩) fun w =>
      Goes World.step (fun _ _ => True) (fun s => s.Quiet ∧ P s) (World.start dirs w) ms) :
    ∃ s, Rests root dirs s ∧ P s := by
  obtain ⟨w, hinit, hgoes⟩ := h.ok
  obtain ⟨s, hr, hquiet, hP⟩ := hgoes.reach_ok
  exact ⟨s, ⟨⟨false, false, ∅, ⟨3, 1, true⟩, w, by decide, hinit, hr⟩, hquiet⟩, hP⟩

/-- A root with the directory `name`. -/
def Dirs.single (name : Str) : Dirs :=
  if h : IsName name then Dirs.bare.mkdir [] name Dirs.bare.root_mem h else Dirs.bare

/-- The walk finds `name`. -/
def walkFinds (name : Str) : List World.Move :=
  [.read ⟨4, 1, true⟩, .list [(name, Fts.FTS_D)], .read ⟨4, 1, true⟩, .list [], .readDone]

/-- An event finds `name`. -/
def eventFinds (name : Str) : List World.Move :=
  [.read ⟨4, 1, true⟩, .list [], .readDone, .mkdir [] name, .handle 3 ⟨4, 1, true⟩, .read ⟨5, 1, true⟩, .list [],
    .readDone]

/-- `r/a.b` is there before, or is made later. -/
theorem watched_dot_inside :
    ∃ s s', Rests "r".toList (.single "a.b".toList) s ∧ Rests "r".toList .bare s' ∧
      ["a.b".toList] ∈ s.dirs.all ∧ (Watched s ["a.b".toList] ↔ Watched s' ["a.b".toList]) := by
  obtain ⟨s, hs, hall⟩ : ∃ s, Rests "r".toList (.single "a.b".toList) s ∧
      s.dirs.all = {["a.b".toList], []} :=
    Rests.of_goes (walkFinds "a.b".toList) (by decide)
  obtain ⟨s', hs', hall'⟩ : ∃ s', Rests "r".toList .bare s' ∧ s'.dirs.all = {["a.b".toList], []} :=
    Rests.of_goes (eventFinds "a.b".toList) (by decide)
  have hp : ["a.b".toList] ∈ s.dirs.all := by
    rw [hall]
    exact Finset.mem_insert_self _ _
  exact ⟨s, s', hs, hs', hp, watched_iff_of_rests _ _ _ s s' _ (by decide) (by decide) hs hs' (hall.trans hall'.symm)
    hp (by decide)⟩

/-- `r/.h` is there before and gets no watch, or is made later and gets one. -/
theorem not_watched_iff_hidden :
    ∃ s s', Rests "r".toList (.single ".h".toList) s ∧ Rests "r".toList .bare s' ∧
      s.dirs.all = s'.dirs.all ∧ [".h".toList] ∈ s.dirs.all ∧ [".h".toList] ∉ Dirs.bare.all ∧
      ¬ (Watched s [".h".toList] ↔ Watched s' [".h".toList]) := by
  obtain ⟨s, hs, hall, hkeys, hnot⟩ : ∃ s, Rests "r".toList (.single ".h".toList) s ∧
      s.dirs.all = {[".h".toList], []} ∧ s.watch.descriptors.keys = [3] ∧ ¬ s.watch.Watches 3 [".h".toList] :=
    Rests.of_goes (walkFinds ".h".toList) (by decide)
  obtain ⟨s', hs', hall', hw⟩ : ∃ s', Rests "r".toList .bare s' ∧
      s'.dirs.all = {[".h".toList], []} ∧ s'.watch.Watches 4 [".h".toList] :=
    Rests.of_goes (eventFinds ".h".toList) (by decide)
  refine ⟨s, s', hs, hs', hall.trans hall'.symm, by rw [hall]; exact Finset.mem_insert_self _ _, by decide,
    fun h => ?_⟩
  obtain ⟨fd, hw'⟩ := h.2 ⟨4, hw⟩
  have hfd := hw'.mem_keys
  rw [hkeys, List.mem_singleton] at hfd
  exact hnot (hfd ▸ hw')

end ChCppUtils.FsWatch
