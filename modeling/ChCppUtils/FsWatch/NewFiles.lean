import ChCppUtils.FsWatch.Coverage
import ChCppUtils.FsWatch.Reports

/-!
# New files

Other processes also write files. A file that is closed after writing gives an event to every descriptor
that watches its directory, and the handler of the event reports it. A file in a directory that is not
watched yet gives none; the walk that follows the directory's watch meets the file, but `onFile` files it
in the tree at most and does not report it. So when nothing is pending, the files that have been reported
are those that were written at least once while their directory was watched, and whose extension passes; the
code takes the whole name for the extension where there is no dot (`reported_iff_heard`).
-/

namespace ChCppUtils.FsWatch

open Runs

/-- What a move of the watcher fires; the walks fire nothing. -/
def World.notices (s : World) : World.Move → List Notice
  | .handle fd ans =>
    match s.queue fd with
    | [] => []
    | event :: _ =>
      match s.watch.step (.event fd event ans) with
      | .ok (_, out) => out
      | .error _ => []
  | _ => []

/-- The world with its files, each as its directory and its name. `written` are those that have been
closed after writing since `init` added the watch of the root, `heard` those of them that were, at least
once, while their directory was watched. -/
structure FileWorld where
  world : World
  written : Finset (List Str × Str)
  heard : Finset (List Str × Str)
  fired : List Notice

namespace FileWorld

inductive Move where
  /-- Another process writes a file, old or new, and closes it. -/
  | write (p : List Str) (name : Str)
  | other (m : World.Move)

/-- A directory does not take the place of a file, and events about writing are those of the files. -/
def Allows (s : FileWorld) : World.Move → Prop
  | .mkdir p name => (p, name) ∉ s.written
  | .notify _ event => event.bit ≠ .closeWrite ∧ event.bit ≠ .movedTo
  | _ => True

instance (s : FileWorld) : (m : World.Move) → Decidable (s.Allows m)
  | .mkdir .. => inferInstanceAs (Decidable (_ ∉ s.written))
  | .notify .. => inferInstanceAs (Decidable (_ ∧ _))
  | .read _ | .list _ | .readDone | .handle .. => inferInstanceAs (Decidable True)

def step (s : FileWorld) : Move → Res FileWorld
  | .write p name =>
    if p ∈ s.world.dirs.all ∧ IsName name ∧ p ++ [name] ∉ s.world.dirs.all then
      pure { s with
        world := { s.world with
          queue := fun fd =>
            if s.world.watch.Watches fd p then s.world.queue fd ++ [⟨.closeWrite, false, name⟩]
            else s.world.queue fd }
        written := insert (p, name) s.written
        heard :=
          if ∃ fd ∈ s.world.watch.descriptors.keys, s.world.watch.Watches fd p then insert (p, name) s.heard
          else s.heard }
    else throw .badAnswer
  | .other m =>
    if s.Allows m then do
      let world ← s.world.step m
      return { s with world, fired := s.fired ++ s.world.notices m }
    else throw .badAnswer

/-- `init()` has added the watch of the root and starts its walk. -/
def start (dirs : Dirs) (watch : FsWatch) : FileWorld := ⟨World.start dirs watch, ∅, ∅, []⟩

/-- `onNewFile` has been called for the file. -/
def Reported (s : FileWorld) (f : List Str × Str) : Prop :=
  .newFile ⟨f.2, extOf f.2, Fts.pathOf s.world.watch.root (f.1 ++ [f.2]), IS_REGULAR⟩ ∈ s.fired

instance (s : FileWorld) (f : List Str × Str) : Decidable (s.Reported f) := inferInstanceAs (Decidable (_ ∈ _))

end FileWorld

variable {s s' : FsWatch} {a : Action} {out : List Notice} {dir path : Str} {ans : Answer} {fd wd : Int}
  {event : InotifyEvent} {data : OnFileData}

/-! ### The notices of an event -/

theorem newFile_notMem_checkEmptyDir (h : s.checkEmptyDir path = .ok out) : .newFile data ∉ out := by
  unfold checkEmptyDir at h
  split at h
  · obtain ⟨b, -, h⟩ := Res.of_bind h
    cases b with
    | true =>
      obtain rfl := Except.ok.inj h
      simp
    | false =>
      simp only [Bool.false_eq_true, if_false] at h
      split at h
      · obtain rfl := Except.ok.inj h
        simp [fireDirCbk]
      · obtain rfl := Except.ok.inj h
        simp
  · obtain rfl := Except.ok.inj h
    simp

/-- A file that is written or moved in is told. -/
def TellsFile (s : FsWatch) (event : InotifyEvent) : Prop :=
  event.isDir = false ∧ (event.bit = .closeWrite ∨ event.bit = .movedTo) ∧ s.onNewFile = true ∧
    (s.filters = ∅ ∨ extOf event.name ∈ s.filters)

theorem newFile_mem_iff (h : s.step (.event fd event ans) = .ok (s', out)) : .newFile data ∈ out ↔
    s.TellsFile event ∧ ∃ path, s.getFullPath fd event = .ok path ∧
      data = ⟨event.name, extOf event.name, path, IS_REGULAR⟩ := by
  rw [step] at h
  split at h
  swap
  · cases h
  split at h
  swap
  · -- the descriptor is not in `map`
    rename_i hm
    obtain ⟨rfl, rfl⟩ := Prod.mk.inj (Except.ok.inj h)
    rw [getFullPath, AList.lookup_eq_none.2 hm]
    simp
  unfold handleEvent at h
  split at h
  · rename_i hk
    obtain ⟨path, hp, h⟩ := Res.of_bind h
    obtain ⟨s₁, hs, h⟩ := Res.of_bind h
    obtain ⟨rfl, rfl⟩ := Prod.mk.inj (Except.ok.inj h)
    simp [TellsFile, hk]
  split at h
  · rename_i hk
    obtain ⟨path, hp, h⟩ := Res.of_bind h
    obtain ⟨rfl, rfl⟩ := Prod.mk.inj (Except.ok.inj h)
    simp only [TellsFile, hk, hp, true_and, Except.ok.injEq, exists_eq_left']
    cases hcb : s.onNewFile with
    | false => simp
    | true =>
      by_cases hf : s.filters = ∅ ∨ extOf event.name ∈ s.filters <;> simp [hf, fireFileCbk]
  rename_i hk
  have htells : ¬ s.TellsFile event := fun h => hk ⟨h.1, h.2.1⟩
  refine iff_of_false (fun hd => ?_) fun h => htells h.1
  split at h
  · unfold handleFileDelete at h
    split at h
    · obtain ⟨path, hp, h⟩ := Res.of_bind h
      obtain ⟨out', hc, h⟩ := Res.of_bind h
      obtain ⟨rfl, rfl⟩ := Prod.mk.inj (Except.ok.inj h)
      exact newFile_notMem_checkEmptyDir hc hd
    · obtain ⟨rfl, rfl⟩ := Prod.mk.inj (Except.ok.inj h)
      cases hd
  split at h
  · obtain ⟨path, hp, h⟩ := Res.of_bind h
    obtain ⟨s₁, hs, h⟩ := Res.of_bind h
    obtain ⟨out', hc, h⟩ := Res.of_bind h
    obtain ⟨rfl, rfl⟩ := Prod.mk.inj (Except.ok.inj h)
    exact newFile_notMem_checkEmptyDir hc hd
  · obtain ⟨rfl, rfl⟩ := Prod.mk.inj (Except.ok.inj h)
    cases hd

/-! ### The callback and the filters -/

/-- What `OnNewFileCbk` and `start` set stays. -/
def SameConfig (s s' : FsWatch) : Prop := s'.onNewFile = s.onNewFile ∧ s'.filters = s.filters

theorem SameConfig.addToTree : SameConfig s (s.addToTree dir fd wd) := by
  unfold FsWatch.addToTree
  split <;> exact ⟨rfl, rfl⟩

theorem SameConfig.addWatch (h : s.addWatch dir ans = .ok s') : SameConfig s s' := by
  rcases addWatch_cases h with ⟨-, rfl⟩ | ⟨-, -, -, rfl⟩
  · exact ⟨rfl, rfl⟩
  · exact .addToTree

theorem SameConfig.effect (h : Effect s a s' out)
    (hdel : ∀ fd event ans, a = .event fd event ans → ¬ (event.isDir = true ∧ event.bit = .delete)) :
    SameConfig s s' := by
  have hfile : ∀ node, SameConfig s (s.reportFile node) := by
    intro node
    unfold reportFile
    split
    · exact .addToTree
    · exact ⟨rfl, rfl⟩
  cases h with
  | @entry dir rel info ans _ hw hrel hs =>
    have hnode := hfile (Fts.entry dir rel info)
    split at hs
    · have hadd := SameConfig.addWatch hs
      exact ⟨hadd.1.trans hnode.1, hadd.2.trans hnode.2⟩
    · exact hs ▸ hnode
  | walkDone hw => exact ⟨rfl, rfl⟩
  | @create fd event ans path s₁ hr hk hp hs =>
    have hadd : SameConfig s s₁ := .addWatch hs
    exact ⟨hadd.1, hadd.2⟩
  | modify hr hk hp hout =>
    split
    · exact .addToTree
    · exact ⟨rfl, rfl⟩
  | fileDelete hr hk hp hcb hc => exact ⟨rfl, rfl⟩
  | dirDelete hr hk hp hs hc => exact absurd hk (hdel _ _ _ rfl)
  | ignored hr hk => exact ⟨rfl, rfl⟩

theorem World.Covered.sameConfig {root : Str} {s s' : World} {m : World.Move} (h : World.Covered root s)
    (hs : s.step m = .ok s') : SameConfig s.watch s'.watch := by
  rcases World.watch_of_step hs with he | ⟨a, hw, ha⟩ | ⟨fd, ans, event, -, -, hmem, hw⟩
  · rw [he]
    exact ⟨rfl, rfl⟩
  · obtain ⟨out, he⟩ := next_effect hw
    refine .effect he fun fd event ans heq => ?_
    rcases ha with ⟨rel, info, ans, rfl, -⟩ | rfl <;> cases heq
  · obtain ⟨out, he⟩ := next_effect hw
    refine .effect he fun fd event ans heq => ?_
    cases heq
    exact h.queue _ _ hmem

theorem Tables.getFullPath {p : List Str} (h : Tables s) (hw : s.Watches fd p) :
    s.getFullPath fd event = .ok (Fts.pathOf s.root (p ++ [event.name])) := by
  obtain ⟨d, hd, hdir, -⟩ := hw
  obtain ⟨-, hm, hb⟩ := h.descriptors fd d hd
  cases hp : s.getFullPath fd event with
  | error e =>
    rw [FsWatch.getFullPath, hm] at hp
    cases hp
  | ok path =>
    rw [path_of_event hb hm (fun hslash => absurd hslash h.noSlash) hp, hdir, Fts.pathOf_concat]

/-! ### Moves and queues -/

theorem World.handle_eq {s s' : World} (hs : s.step (.handle fd ans) = .ok s') : ∃ event queue out,
    s.queue fd = event :: queue ∧ s.watch.step (.event fd event ans) = .ok (s'.watch, out) ∧
      s.notices (.handle fd ans) = out ∧ s'.queue = Function.update s.queue fd queue := by
  cases World.moved_of_step hs with
  | @handle fd ans event queue w hqueue hans hw =>
    unfold next at hw
    cases hstep : s.watch.step (.event fd event ans) with
    | error e => rw [hstep] at hw; cases hw
    | ok x =>
      rw [hstep] at hw
      obtain rfl := Except.ok.inj hw
      refine ⟨event, queue, x.2, hqueue, hstep, ?_, rfl⟩
      simp only [notices, hqueue, hstep]

/-- Events stay until they are handled, and new ones are about a directory or come from others. -/
theorem World.queue_of_step {s s' : World} {m : World.Move} (hs : s.step m = .ok s') (fd : Int) (e : InotifyEvent) :
    (e ∈ s'.queue fd → e ∈ s.queue fd ∨ e.isDir = true ∨ m = .notify fd e) ∧
      (e ∈ s.queue fd → e ∈ s'.queue fd ∨ ∃ ans, m = .handle fd ans ∧ (s.queue fd).head? = some e) := by
  cases World.moved_of_step hs with
  | @mkdir p name hp hn hnew =>
    dsimp only
    split
    · refine ⟨fun he => ?_, fun he => .inl (List.mem_append_left _ he)⟩
      rcases List.mem_append.1 he with he | he
      · exact .inl he
      · rw [List.mem_singleton.1 he]
        exact .inr (.inl rfl)
    · exact ⟨.inl, .inl⟩
  | @notify fd' event hfd hother =>
    dsimp only
    by_cases hf : fd = fd'
    · subst hf
      rw [Function.update_self]
      refine ⟨fun he => ?_, fun he => .inl (List.mem_append_left _ he)⟩
      rcases List.mem_append.1 he with he | he
      · exact .inl he
      · rw [List.mem_singleton.1 he]
        exact .inr (.inr rfl)
    · rw [Function.update_of_ne hf]
      exact ⟨.inl, .inl⟩
  | @handle fd' ans event queue w hqueue hans hw =>
    dsimp only
    by_cases hf : fd = fd'
    · subst hf
      rw [Function.update_self, hqueue]
      refine ⟨fun he => .inl (List.mem_cons_of_mem event he), fun he => ?_⟩
      rcases List.mem_cons.1 he with rfl | he
      · exact .inr ⟨ans, rfl, rfl⟩
      · exact .inl he
    · rw [Function.update_of_ne hf]
      exact ⟨.inl, .inl⟩
  | read | list | readDone => exact ⟨.inl, .inl⟩

namespace FileWorld

variable {s s' : FileWorld} {root : Str} {p : List Str} {name : Str} {f : List Str × Str}

/-- The event about a file that has been closed after writing. -/
def closed (name : Str) : InotifyEvent := ⟨.closeWrite, false, name⟩

/-- What has been heard is reported or about to be, and nothing else is. -/
structure Told (root : Str) (filters : Finset Str) (s : FileWorld) : Prop where
  covered : World.Covered root s.world
  onNewFile : s.world.watch.onNewFile = true
  filters_eq : s.world.watch.filters = filters
  names : ∀ f ∈ s.written, ∀ n ∈ f.1 ++ [f.2], IsName n
  heard : s.heard ⊆ s.written
  pending : ∀ f ∈ s.heard, (filters = ∅ ∨ extOf f.2 ∈ filters) →
    s.Reported f ∨ ∃ fd, s.world.watch.Watches fd f.1 ∧ closed f.2 ∈ s.world.queue fd
  queue : ∀ fd, ∀ event ∈ s.world.queue fd, event.isDir = false → event.bit = .closeWrite ∨ event.bit = .movedTo →
    ∃ p, s.world.watch.Watches fd p ∧ (p, event.name) ∈ s.heard
  fired : ∀ data, .newFile data ∈ s.fired →
    ∃ f ∈ s.heard, data.path = Fts.pathOf root (f.1 ++ [f.2]) ∧ (filters = ∅ ∨ extOf f.2 ∈ filters)

variable {filters : Finset Str}

/-- What a write does: each watch of the directory gets an event, and the file is written. -/
structure Wrote (p : List Str) (name : Str) (s s' : FileWorld) : Prop where
  names : ∀ n ∈ p ++ [name], IsName n
  world : s'.world = { s.world with queue := s'.world.queue }
  queue : ∀ fd e, e ∈ s'.world.queue fd ↔ e ∈ s.world.queue fd ∨ s.world.watch.Watches fd p ∧ e = closed name
  written : s'.written = insert (p, name) s.written
  heard : ∀ f, f ∈ s'.heard ↔ f ∈ s.heard ∨ f = (p, name) ∧ ∃ fd, s.world.watch.Watches fd p
  fired : s'.fired = s.fired

theorem wrote_of_step (hs : s.step (.write p name) = .ok s') : Wrote p name s s' := by
  rw [step] at hs
  split at hs
  swap
  · cases hs
  rename_i hnew
  obtain rfl := Except.ok.inj hs
  refine ⟨fun n hn => ?_, rfl, fun fd e => ?_, rfl, fun f => ?_, rfl⟩
  · rcases List.mem_append.1 hn with hn | hn
    · exact s.world.dirs.names p hnew.1 n hn
    · exact List.mem_singleton.1 hn ▸ hnew.2.1
  · by_cases hw : s.world.watch.Watches fd p <;> simp [hw, closed]
  · have hex : (∃ fd ∈ s.world.watch.descriptors.keys, s.world.watch.Watches fd p) ↔
        ∃ fd, s.world.watch.Watches fd p :=
      ⟨fun ⟨fd, _, hw⟩ => ⟨fd, hw⟩, fun ⟨fd, hw⟩ => ⟨fd, hw.mem_keys, hw⟩⟩
    dsimp only
    rw [← hex]
    split
    · rename_i hw
      rw [Finset.mem_insert, or_comm]
      simp only [hw, and_true]
    · rename_i hw
      simp only [hw, and_false, or_false]

theorem Told.write (h : Told root filters s) (hw : Wrote p name s s') : Told root filters s' := by
  have hwatch : s'.world.watch = s.world.watch := by rw [hw.world]
  have hcov : World.Covered root s'.world := by
    rw [hw.world]
    refine h.covered.enqueue (fun fd e he => (hw.queue fd e).2 (.inl he)) fun fd e he hold => ?_
    obtain ⟨-, rfl⟩ := ((hw.queue fd e).1 he).resolve_left hold
    simp [closed]
  refine ⟨hcov, by rw [hwatch]; exact h.onNewFile, by rw [hwatch]; exact h.filters_eq, fun f hf => ?_,
    fun f hf => ?_, fun f hf hwant => ?_, fun fd e he hdir hbit => ?_, fun data hd => ?_⟩
  · rw [hw.written] at hf
    rcases Finset.mem_insert.1 hf with rfl | hf
    · exact hw.names
    · exact h.names f hf
  · rw [hw.written]
    rcases (hw.heard f).1 hf with hf | ⟨rfl, -⟩
    · exact Finset.mem_insert_of_mem (h.heard hf)
    · exact Finset.mem_insert_self _ _
  · rw [Reported, hw.fired, hwatch]
    rcases (hw.heard f).1 hf with hf | ⟨rfl, fd, hwp⟩
    · rcases h.pending f hf hwant with hr | ⟨fd, hwf, he⟩
      · exact .inl hr
      · exact .inr ⟨fd, hwf, (hw.queue fd _).2 (.inl he)⟩
    · exact .inr ⟨fd, hwp, (hw.queue fd _).2 (.inr ⟨hwp, rfl⟩)⟩
  · rw [hwatch]
    rcases (hw.queue fd e).1 he with he | ⟨hwp, rfl⟩
    · obtain ⟨p', hwp, hf⟩ := h.queue fd e he hdir hbit
      exact ⟨p', hwp, (hw.heard _).2 (.inl hf)⟩
    · exact ⟨p, hwp, (hw.heard _).2 (.inr ⟨rfl, fd, hwp⟩)⟩
  · rw [hw.fired] at hd
    obtain ⟨f, hf, hpath, hpass⟩ := h.fired data hd
    exact ⟨f, (hw.heard f).2 (.inl hf), hpath, hpass⟩

theorem Told.other {m : World.Move} (h : Told root filters s) (hs : s.step (.other m) = .ok s') :
    Told root filters s' := by
  rw [step] at hs
  split at hs
  swap
  · cases hs
  rename_i hallow
  obtain ⟨world, hw, hs⟩ := Res.of_bind hs
  obtain rfl := Except.ok.inj hs
  have hgrow := h.covered.grows hw
  obtain ⟨hcb, hfil⟩ := h.covered.sameConfig hw
  refine ⟨h.covered.step hw, hcb.trans h.onNewFile, hfil.trans h.filters_eq, h.names, h.heard,
    fun f hf hwant => ?_, fun fd e he hdir hbit => ?_, fun data hd => ?_⟩
  · rcases h.pending f hf hwant with hr | ⟨fd, hwatch, he⟩
    · left
      show _ ∈ s.fired ++ s.world.notices m
      rw [show world.watch.root = s.world.watch.root from hgrow.root]
      exact List.mem_append_left _ hr
    · rcases ((World.queue_of_step hw fd (closed f.2)).2 he) with he | ⟨ans, rfl, hhead⟩
      · exact .inr ⟨fd, hgrow.watches hwatch, he⟩
      · -- the event is handled now
        left
        obtain ⟨event, queue, out, hqueue, hstep, hout, -⟩ := World.handle_eq hw
        rw [hqueue] at hhead
        obtain rfl := Option.some.inj hhead
        show _ ∈ s.fired ++ s.world.notices _
        rw [hout, show world.watch.root = s.world.watch.root from hgrow.root]
        refine List.mem_append_right _ ((newFile_mem_iff hstep).2 ⟨⟨rfl, .inl rfl, h.onNewFile, ?_⟩, _,
          h.covered.tables.getFullPath hwatch, rfl⟩)
        rw [h.filters_eq]
        exact hwant
  · rcases (World.queue_of_step hw fd e).1 he with he | htrue | rfl
    · obtain ⟨p, hwatch, hf⟩ := h.queue fd e he hdir hbit
      exact ⟨p, hgrow.watches hwatch, hf⟩
    · rw [hdir] at htrue
      cases htrue
    · rcases hbit with hbit | hbit
      · exact absurd hbit hallow.1
      · exact absurd hbit hallow.2
  · rcases List.mem_append.1 hd with hd | hd
    · exact h.fired data hd
    cases m with
    | handle fd ans =>
      obtain ⟨event, queue, out, hqueue, hstep, hout, -⟩ := World.handle_eq hw
      rw [hout] at hd
      obtain ⟨⟨hdir, hbit, -, hpass⟩, path, hp, rfl⟩ := (newFile_mem_iff hstep).1 hd
      obtain ⟨p, hwatch, hf⟩ := h.queue fd event (by rw [hqueue]; exact List.mem_cons_self) hdir hbit
      rw [h.covered.tables.getFullPath hwatch] at hp
      rw [h.filters_eq] at hpass
      refine ⟨_, hf, ?_, hpass⟩
      rw [← Except.ok.inj hp, h.covered.root_eq]
    | mkdir | notify | read | list | readDone => cases hd

theorem Told.step {m : Move} (h : Told root filters s) (hs : s.step m = .ok s') : Told root filters s' := by
  cases m with
  | write p name => exact h.write (wrote_of_step hs)
  | other m => exact h.other hs

theorem Told.start {onEmptyDir : Bool} {w : FsWatch} (dirs : Dirs) (hroot : root ≠ [])
    (hslash : root.getLast? ≠ some '/') (hans : Succeeds ans)
    (hinit : (new root true onEmptyDir filters).init ans = .ok w) : Told root filters (start dirs w) := by
  have hcov : World.Covered root (World.start dirs w) := World.covered_of_reach hroot hslash hans hinit .refl
  obtain ⟨-, rfl⟩ := init_cases hinit
  have hcfg : SameConfig (new root true onEmptyDir filters) ((new root true onEmptyDir filters).install root ans) :=
    .addToTree
  exact ⟨hcov, hcfg.1, hcfg.2, by simp [FileWorld.start], Finset.Subset.refl _, by simp [FileWorld.start],
    fun fd e he => absurd he List.not_mem_nil, by simp [FileWorld.start]⟩

theorem Told.eq_of_path {g : List Str × Str} (h : Told root filters s) (hf : f ∈ s.written) (hg : g ∈ s.written)
    (he : Fts.pathOf root (f.1 ++ [f.2]) = Fts.pathOf root (g.1 ++ [g.2])) : f = g := by
  have hsegs := congrArg (Split.segs '/') he
  rw [Fts.segs_pathOf (h.names f hf), Fts.segs_pathOf (h.names g hg)] at hsegs
  obtain ⟨hdir, hname⟩ := List.append_inj' (List.append_cancel_left hsegs) rfl
  exact Prod.ext hdir (List.cons.inj hname).1

end FileWorld

/-- When nothing is pending, the files that have been reported are those that were written while their
directory was watched, and that the code's test of the extension lets through. -/
theorem FileWorld.Told.reported_iff {root : Str} {filters : Finset Str} {s : FileWorld} {f : List Str × Str}
    (h : FileWorld.Told root filters s) (hquiet : s.world.Quiet) (hf : f ∈ s.written) :
    s.Reported f ↔ f ∈ s.heard ∧ (filters = ∅ ∨ extOf f.2 ∈ filters) := by
  constructor
  · intro hr
    obtain ⟨g, hg, hpath, hpass⟩ := h.fired _ hr
    rw [h.covered.root_eq] at hpath
    rw [h.eq_of_path hf (h.heard hg) hpath]
    exact ⟨hg, hpass⟩
  · rintro ⟨hh, hpass⟩
    rcases h.pending f hh hpass with hr | ⟨fd, hw, he⟩
    · exact hr
    · rw [hquiet.2 fd hw.mem_keys] at he
      cases he

/-- Of the files whose extension is wanted, those have been reported that were written while their directory was
watched and that have a dot in their name, or pass without it. -/
theorem reported_iff_heard (root : Str) (onEmptyDir : Bool) (filters : Finset Str) (ans : Answer)
    (w : FsWatch) (dirs : Dirs) (s : FileWorld) (hroot : root ≠ []) (hslash : root.getLast? ≠ some '/')
    (hans : Succeeds ans) (hinit : (new root true onEmptyDir filters).init ans = .ok w)
    (h : Reach (Ok FileWorld.step) (FileWorld.start dirs w) s) (hquiet : s.world.Quiet) :
    ∀ f ∈ s.written, Fts.Wanted filters f.2 →
      (s.Reported f ↔ f ∈ s.heard ∧ ('.' ∈ f.2 ∨ filters = ∅ ∨ f.2 ∈ filters)) := by
  have htold : FileWorld.Told root filters s :=
    h.invariant (I := FileWorld.Told root filters) (.start dirs hroot hslash hans hinit) fun _ _ _ hI hs => hI.step hs
  intro f hf hwant
  have hpass : (filters = ∅ ∨ extOf f.2 ∈ filters) ↔ '.' ∈ f.2 ∨ filters = ∅ ∨ f.2 ∈ filters := by
    by_cases hdot : '.' ∈ f.2
    · rw [extOf_eq_extension hdot]
      exact iff_of_true hwant (.inl hdot)
    · rw [(extOf_of_no_dot hdot).1]
      exact (or_iff_right hdot).symm
  rw [htold.reported_iff hquiet hf, hpass]

/-- `x.a` is written in `r`, and files with the extension `a` are wanted. -/
theorem reported_in_root :
    ∃ w s, (new "r".toList true false {"a".toList}).init ⟨3, 1, true⟩ = .ok w ∧
      Reach (Ok FileWorld.step) (FileWorld.start .bare w) s ∧ s.world.Quiet ∧ s.Reported ([], "x.a".toList) := by
  have hg : Gives ((new "r".toList true false {"a".toList}).init ⟨3, 1, true⟩) fun w =>
      Goes FileWorld.step (fun _ _ => True)
        (fun s => s.world.Quiet ∧ ([], "x.a".toList) ∈ s.written ∧ ([], "x.a".toList) ∈ s.heard)
        (FileWorld.start .bare w)
        [.other (.read ⟨4, 1, true⟩), .other (.list []), .other .readDone, .write [] "x.a".toList,
          .other (.handle 3 ⟨4, 1, true⟩)] := by
    decide
  obtain ⟨w, hinit, hgoes⟩ := hg.ok
  obtain ⟨s, hr, hq, hw, hh⟩ := hgoes.reach_ok
  exact ⟨w, s, hinit, hr, hq, (reported_iff_heard _ _ _ _ w _ s (by decide) (by decide) (by decide) hinit hr hq
    _ hw (by decide)).2 ⟨hh, by decide⟩⟩

/-- `r/a` is made, and `x` written in it before the event of `r/a` is handled: the walk of `r/a` meets
it. -/
theorem not_reported_new_directory :
    ∃ w s, (new "r".toList true false ∅).init ⟨3, 1, true⟩ = .ok w ∧
      Reach (Ok FileWorld.step) (FileWorld.start .bare w) s ∧ s.world.Quiet ∧
      (["a".toList], "x".toList) ∈ s.written ∧ ¬ s.Reported (["a".toList], "x".toList) := by
  have hg : Gives ((new "r".toList true false ∅).init ⟨3, 1, true⟩) fun w =>
      Goes FileWorld.step (fun _ _ => True)
        (fun s => s.world.Quiet ∧ (["a".toList], "x".toList) ∈ s.written ∧ ¬ s.Reported (["a".toList], "x".toList))
        (FileWorld.start .bare w)
        [.other (.read ⟨4, 1, true⟩), .other (.list []), .other .readDone, .other (.mkdir [] "a".toList),
          .write ["a".toList] "x".toList, .other (.handle 3 ⟨4, 1, true⟩), .other (.read ⟨5, 1, true⟩),
          .other (.list [("x".toList, Fts.FTS_F)]), .other (.read ⟨5, 1, true⟩), .other .readDone] := by
    decide
  obtain ⟨w, hinit, hgoes⟩ := hg.ok
  obtain ⟨s, hr, hs⟩ := hgoes.reach_ok
  exact ⟨w, s, hinit, hr, hs⟩

end ChCppUtils.FsWatch
