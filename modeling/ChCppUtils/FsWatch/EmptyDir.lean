import ChCppUtils.FsWatch.Steps
import ChCppUtils.Lib.Runs

/-!
# Empty directories

With `onEmptyDir` set the tree is to hold every file and directory that the scans and the events have
told of; a directory whose node has no child is reported as empty. An `Account` is the watcher with
what it has been told: the places, as lists of pieces, that are there as far as scans and events tell.
The tree holds them all as long as every step is `Recorded`, and then no report is wrong
(`truthful_of_reach`). `handleFileModify` adds the empty path in place of the file's: a new file is
not recorded, and its directory is reported when the others in it are gone.
-/

namespace ChCppUtils.FsWatch

open Runs DirTree Split

/-- The watcher, the places known to be there, and what its last step fired. -/
structure Account where
  watch : FsWatch
  known : List (List Str)
  fired : List Notice

/-- The place an event tells of: the entry of that name in the directory of the descriptor. -/
def placeOf (s : FsWatch) (fd : Int) (event : InotifyEvent) : Option (List Str) :=
  (s.descriptors.lookup fd).map fun d => segs '/' d.dir ++ [event.name]

/-- What is known to be there after a step: what a scan reports, a file that is written or moved in and
a directory that is made are added; what is deleted goes with all below it. -/
def learn (s : FsWatch) (known : List (List Str)) : Action → List (List Str)
  | .entry rel info _ =>
    match s.walking with
    | none => known
    | some dir => (Fts.walkEntry options (Fts.entry dir rel info)).map (fun _ => segs '/' dir ++ rel) ++ known
  | .walkDone => known
  | .event fd event _ =>
    match s.placeOf fd event with
    | none => known
    | some place =>
      if event.bit = .delete then known.filter fun l => ¬ place <+: l
      else if event.isDir = true ∧ event.bit = .create ∨
          event.isDir = false ∧ (event.bit = .closeWrite ∨ event.bit = .movedTo) then place :: known
      else known

/-- Nothing is known to be in the directory that a notice names. -/
def Account.Truthful (s : Account) : Prop := ∀ data, Notice.emptyDir data ∈ s.fired →
  ∀ l ∈ s.known, segs '/' data.path <+: l → l = segs '/' data.path

def Account.next (s : Account) (a : Action) : Res Account := do
  let (watch, fired) ← s.watch.step a
  return ⟨watch, s.watch.learn s.known a, fired⟩

def HasNode (s : FsWatch) (path : Str) : Prop := (s.tree.view (tokens path)).isSome

instance (s : FsWatch) (path : Str) : Decidable (s.HasNode path) := inferInstanceAs (Decidable (_ = _))

/-- The path of the event is the one of its place, and what the step leaves out of the tree has a node
already: a directory whose path is in `set`, and a file that is written or moved in. -/
def Recorded (s : FsWatch) : Action → Prop
  | .entry rel info _ => ∀ dir ∈ s.walking, Fts.ReportsDir options (Fts.entry dir rel info) →
    Fts.pathOf dir rel ∈ s.set → s.HasNode (Fts.pathOf dir rel)
  | .walkDone => True
  | .event fd event _ =>
    (∀ d ∈ s.descriptors.lookup fd,
      s.map.lookup fd = some d.dir ∧ (s.root.getLast? = some '/' → d.dir = s.root)) ∧
    ∀ path ∈ (s.getFullPath fd event).toOption,
      (event.isDir = true → event.bit = .create → path ∈ s.set → s.HasNode path) ∧
        (event.isDir = false → event.bit = .closeWrite ∨ event.bit = .movedTo → s.HasNode path)

instance (s : FsWatch) : (a : Action) → Decidable (s.Recorded a)
  | .entry .. => inferInstanceAs (Decidable (∀ dir ∈ s.walking, _ → _))
  | .walkDone => inferInstanceAs (Decidable True)
  | .event fd event _ => inferInstanceAs (Decidable ((∀ d ∈ s.descriptors.lookup fd, _) ∧
      ∀ path ∈ (s.getFullPath fd event).toOption, (_ → _ → _) ∧ (_ → _ → _)))

variable {s s' : FsWatch} {a : Action} {out : List Notice} {dir path root : Str} {ans : Answer}
  {fd wd : Int} {event : InotifyEvent} {l : List Str}

/-! ### Nodes -/

theorem HasNode.addToTree : (s.addToTree path fd wd).HasNode path := by
  obtain ⟨data, htree, -⟩ := s.tree_addToTree path fd wd
  rw [HasNode, htree, view_insert, PathMap.insert_isSome]
  exact .inl List.prefix_rfl

/-- From `s` to `s'` no node goes, and a new descriptor is that of `path`. -/
structure Extends (path : Str) (s s' : FsWatch) : Prop where
  view : ∀ p, (s.tree.view p).isSome → (s'.tree.view p).isSome
  root : s'.root = s.root
  onEmptyDir : s'.onEmptyDir = s.onEmptyDir
  walking : s'.walking = s.walking
  descriptors : ∀ fd d, s'.descriptors.lookup fd = some d → d.dir = path ∨ s.descriptors.lookup fd = some d

theorem Extends.refl (path : Str) (s : FsWatch) : Extends path s s :=
  ⟨fun _ h => h, rfl, rfl, rfl, fun _ _ h => .inr h⟩

theorem Extends.trans {s₁ : FsWatch} (h : Extends path s s₁) (h' : Extends path s₁ s') : Extends path s s' := by
  refine ⟨fun p hp => h'.view p (h.view p hp), h'.root.trans h.root, h'.onEmptyDir.trans h.onEmptyDir,
    h'.walking.trans h.walking, fun fd d hd => ?_⟩
  rcases h'.descriptors fd d hd with hd | hd
  · exact .inl hd
  · exact h.descriptors fd d hd

theorem Extends.addToTree : Extends path s (s.addToTree dir fd wd) := by
  refine ⟨fun p hp => ?_, root_addToTree, onEmptyDir_addToTree, walking_addToTree, fun _ _ hd => ?_⟩
  · obtain ⟨data, htree, -⟩ := s.tree_addToTree dir fd wd
    rw [htree, view_insert, PathMap.insert_isSome]
    exact .inr hp
  · rw [descriptors_addToTree] at hd
    exact .inr hd

theorem Extends.install : Extends path s (s.install path ans) := by
  refine ⟨fun p hp => (Extends.addToTree : Extends path _ _).view p hp, root_install,
    onEmptyDir_install, walking_install, fun fd d hd => ?_⟩
  rw [descriptors_install] at hd
  by_cases hf : fd = ans.fd
  · rw [hf, AList.lookup_insert] at hd
    obtain rfl := Option.some.inj hd
    exact .inl rfl
  · rw [AList.lookup_insert_ne hf] at hd
    exact .inr hd

theorem Extends.addWatch (h : s.addWatch path ans = .ok s') (hset : path ∈ s.set → s.HasNode path) :
    Extends path s s' ∧ s'.HasNode path := by
  rcases addWatch_cases h with ⟨hd, rfl⟩ | ⟨-, -, -, rfl⟩
  · exact ⟨.refl path _, hset hd⟩
  · exact ⟨.install, .addToTree⟩

theorem HasNode.extend (h : s.HasNode dir) (he : Extends path s s') : s'.HasNode dir := he.view _ h

/-- What an entry reports gets a node, or has one. -/
theorem Extends.entry {node : Fts.FTSENT} (hcb : s.onEmptyDir = true)
    (hset : Fts.ReportsDir options node → node.fts_path ∈ s.set → s.HasNode node.fts_path)
    (hs : if Fts.ReportsDir options node then (s.reportFile node).addWatch node.fts_path ans = .ok s'
      else s' = s.reportFile node) :
    Extends node.fts_path s s' ∧
      (Fts.ReportsFile options node ∨ Fts.ReportsDir options node → s'.HasNode node.fts_path) := by
  have hfile : Extends node.fts_path s (s.reportFile node) ∧
      (Fts.ReportsFile options node → (s.reportFile node).HasNode node.fts_path) := by
    unfold reportFile
    split
    · exact ⟨.addToTree, fun _ => .addToTree⟩
    · rename_i hf
      exact ⟨.refl _ s, fun h => absurd ⟨h, hcb⟩ hf⟩
  split at hs
  · rename_i hd
    obtain ⟨he, hn⟩ := Extends.addWatch hs fun hm => (hset hd (by rwa [set_reportFile] at hm)).extend hfile.1
    exact ⟨hfile.1.trans he, fun _ => hn⟩
  · rename_i hd
    subst hs
    exact ⟨hfile.1, fun h => hfile.2 (h.resolve_right hd)⟩

/-! ### Places -/

/-- A place below the root has a node. -/
def Holds (root : Str) (s : FsWatch) (l : List Str) : Prop :=
  ∃ rel, l = segs '/' root ++ rel ∧ (s.tree.view (tokens root ++ rel)).isSome

theorem Holds.extend (h : Holds root s l) (he : Extends path s s') : Holds root s' l := by
  obtain ⟨rel, hl, hn⟩ := h
  exact ⟨rel, hl, he.view _ hn⟩

theorem Holds.of_hasNode (hroot : Plain root) (hp : Below root path) (hn : s.HasNode path) :
    Holds root s (segs '/' path) := by
  obtain ⟨rel, hsegs, htok, -⟩ := hroot.exists_rel hp
  exact ⟨rel, hsegs, htok ▸ hn⟩

theorem Holds.drop (h : Holds root s l) (hroot : Plain root) (hp : Below root path)
    (hl : ¬ segs '/' path <+: l) (htree : s'.tree = (s.tree.drop path).1) : Holds root s' l := by
  obtain ⟨rel₀, hsegs, htok, -⟩ := hroot.exists_rel hp
  obtain ⟨rel, rfl, hn⟩ := h
  refine ⟨rel, rfl, ?_⟩
  rw [hsegs, List.prefix_append_right_inj] at hl
  rw [htree, view_drop, htok, PathMap.drop_isSome, List.prefix_append_right_inj]
  exact ⟨hl, hn⟩

theorem Holds.eq_of_childless (h : Holds root s l) (hroot : Plain root) (hp : Below root path)
    (hc : s.tree.hasChildren (trim path) = .ok false) (hl : segs '/' path <+: l) : l = segs '/' path := by
  obtain ⟨rel₀, hsegs, htok, htrim⟩ := hroot.exists_rel hp
  obtain ⟨rel, rfl, hn⟩ := h
  rw [hsegs, List.prefix_append_right_inj] at hl
  obtain ⟨t, rfl⟩ := hl
  cases t with
  | nil => rw [hsegs, List.append_nil]
  | cons k t =>
    have hk : (s.tree.view (tokens root ++ rel₀ ++ [k])).isSome := by
      refine s.tree.view_prefixClosed _ _ ⟨t, ?_⟩ hn
      simp
    rw [← htok, ← htrim, view_concat_of_childless hc] at hk
    cases hk

theorem of_mem_checkEmptyDir {data : OnFileData} (h : s.checkEmptyDir path = .ok out)
    (hd : Notice.emptyDir data ∈ out) :
    data.path = upToLast '/' path ∧ s.tree.hasChildren (upToLast '/' path) = .ok false ∧
      upToLast '/' path ≠ s.root := by
  unfold checkEmptyDir at h
  split at h
  · obtain ⟨b, hb, h⟩ := Res.of_bind h
    cases b with
    | true =>
      obtain rfl := Except.ok.inj h
      simp at hd
    | false =>
      split at h
      · rename_i hf; cases hf
      · split at h
        · rename_i hne
          obtain rfl := Except.ok.inj h
          rw [List.mem_singleton, fireDirCbk, Notice.emptyDir.injEq] at hd
          exact ⟨by rw [hd], hb, hne⟩
        · obtain rfl := Except.ok.inj h
          simp at hd
  · obtain rfl := Except.ok.inj h
    simp at hd

/-! ### Steps -/

/-- The paths are below the root, and the tree holds what is known. -/
structure Complete (root : Str) (s : FsWatch) (known : List (List Str)) : Prop where
  root_eq : s.root = root
  onEmptyDir : s.onEmptyDir = true
  descriptors : ∀ fd d, s.descriptors.lookup fd = some d → Below root d.dir
  walking : ∀ dir ∈ s.walking, Below root dir
  known : ∀ l ∈ known, Holds root s l

variable {known : List (List Str)}

theorem Complete.extend (h : Complete root s known) (hp : Below root path) (he : Extends path s s') :
    Complete root s' known := by
  refine ⟨he.root.trans h.root_eq, he.onEmptyDir.trans h.onEmptyDir, fun fd d hd => ?_,
    by rw [he.walking]; exact h.walking, fun l hl => (h.known l hl).extend he⟩
  rcases he.descriptors fd d hd with hd | hd
  · rw [hd]; exact hp
  · exact h.descriptors fd d hd

theorem Complete.learn (h : Complete root s known) (hl : Holds root s l) : Complete root s (l :: known) :=
  ⟨h.root_eq, h.onEmptyDir, h.descriptors, h.walking, List.forall_mem_cons.2 ⟨hl, h.known⟩⟩

/-- A deletion, of the watcher's state and of what is known. -/
theorem Complete.delete (h : Complete root s known) (hroot : Plain root) (hp : Below root path)
    (htree : s'.tree = (s.tree.drop path).1) (hr : s'.root = s.root) (hcb : s'.onEmptyDir = s.onEmptyDir)
    (hw : s'.walking = s.walking)
    (hds : ∀ fd d, s'.descriptors.lookup fd = some d → s.descriptors.lookup fd = some d) :
    Complete root s' (known.filter fun l => ¬ segs '/' path <+: l) := by
  refine ⟨hr.trans h.root_eq, hcb.trans h.onEmptyDir, fun fd d hd => h.descriptors fd d (hds fd d hd),
    by rw [hw]; exact h.walking, fun l hl => ?_⟩
  obtain ⟨hl, hnot⟩ := List.mem_filter.1 hl
  exact (h.known l hl).drop hroot hp (by simpa using hnot) htree

theorem Complete.placeOf_eq (h : Complete root s known) (hr : s.Readable fd event) (hn : IsName event.name)
    (ha : ∀ d ∈ s.descriptors.lookup fd,
      s.map.lookup fd = some d.dir ∧ (s.root.getLast? = some '/' → d.dir = s.root))
    (hp : s.getFullPath fd event = .ok path) : ∃ dir, Below root dir ∧ path = Fts.childPath dir event.name ∧
      s.placeOf fd event = some (segs '/' path) := by
  obtain ⟨d, hd⟩ := UnorderedMap.exists_lookup hr.open
  have hb := h.descriptors fd d hd
  have hpath := path_of_event (h.root_eq ▸ hb) (ha d hd).1 (ha d hd).2 hp
  refine ⟨d.dir, hb, hpath, ?_⟩
  have hsegs : segs '/' (Fts.childPath d.dir event.name) = segs '/' d.dir ++ [event.name] :=
    Fts.segs_pathOf (show ∀ n ∈ [event.name], IsName n by simpa using hn)
  rw [placeOf, hd, hpath, hsegs]
  rfl

/-- A directory that is reported as empty has nothing below it that is known. -/
theorem Complete.honest {data : OnFileData} {name : Str} (h : Complete root s known) (hroot : Plain root)
    (hp : Below root dir) (hn : IsName name) (hc : s.checkEmptyDir (Fts.childPath dir name) = .ok out)
    (hd : Notice.emptyDir data ∈ out) (hl : l ∈ known) (hpre : segs '/' data.path <+: l) :
    l = segs '/' data.path := by
  obtain ⟨hdata, hchild, -⟩ := of_mem_checkEmptyDir hc hd
  rw [Fts.upToLast_childPath hn] at hdata hchild
  rw [hdata, segs_trim] at hpre ⊢
  exact (h.known l hl).eq_of_childless hroot hp hchild hpre

theorem Complete.entry {rel : List Str} {info : Nat} (h : Complete root s known) (hroot : Plain root)
    (ha : s.Recorded (.entry rel info ans)) (hw : s.walking = some dir) (hrel : ∀ name ∈ rel, IsName name)
    (hs : if Fts.ReportsDir options (Fts.entry dir rel info) then
        (s.reportFile (Fts.entry dir rel info)).addWatch (Fts.pathOf dir rel) ans = .ok s'
      else s' = s.reportFile (Fts.entry dir rel info)) :
    Complete root s' (s.learn known (.entry rel info ans)) := by
  have hb : Below root (Fts.pathOf dir rel) := (h.walking dir hw).pathOf hrel
  obtain ⟨he, hn⟩ := Extends.entry h.onEmptyDir (ha dir hw) hs
  have hc := h.extend hb he
  simp only [FsWatch.learn, hw]
  refine ⟨hc.root_eq, hc.onEmptyDir, hc.descriptors, hc.walking, ?_⟩
  intro l hl
  rcases List.mem_append.1 hl with hl | hl
  · obtain ⟨x, hx, rfl⟩ := List.mem_map.1 hl
    rw [← Fts.segs_pathOf hrel]
    exact .of_hasNode hroot hb (hn (Fts.reports_of_mem_walkEntry hx))
  · exact hc.known l hl

/-- An event that changes nothing tells nothing. -/
theorem Complete.learn_ignored (h : Complete root s known) (hr : s.Readable fd event)
    (hm : ∀ d ∈ s.descriptors.lookup fd, s.map.lookup fd = some d.dir)
    (hk : fd ∉ s.map ∨ ¬ (event.isDir = true ∧ (event.bit = .create ∨ event.bit = .delete)) ∧
      (event.isDir = false → event.bit = .delete → s.onEmptyDir = false) ∧
      ¬ (event.isDir = false ∧ (event.bit = .closeWrite ∨ event.bit = .movedTo))) :
    s.learn known (.event fd event ans) = known := by
  obtain ⟨d, hd⟩ := UnorderedMap.exists_lookup hr.open
  have hplace : s.placeOf fd event = some (segs '/' d.dir ++ [event.name]) := by
    rw [placeOf, hd]
    rfl
  rcases hk with hnot | ⟨hdir, hfile, hmod⟩
  · rw [← AList.lookup_eq_none, hm d hd] at hnot
    cases hnot
  have hdel : event.bit ≠ .delete := by
    intro hb
    cases hi : event.isDir with
    | true => exact hdir ⟨hi, .inr hb⟩
    | false =>
      have := hfile hi hb
      rw [h.onEmptyDir] at this
      cases this
  have hadd : ¬ (event.isDir = true ∧ event.bit = .create ∨
      event.isDir = false ∧ (event.bit = .closeWrite ∨ event.bit = .movedTo)) := by
    rintro (⟨hi, hb⟩ | hk)
    · exact hdir ⟨hi, .inl hb⟩
    · exact hmod hk
  simp only [FsWatch.learn, hplace, if_neg hdel, if_neg hadd]

theorem Complete.effect (h : Complete root s known) (hroot : Plain root) (ha : s.Recorded a)
    (he : Effect s a s' out) : Complete root s' (s.learn known a) ∧ ∀ data, Notice.emptyDir data ∈ out →
      ∀ l ∈ s.learn known a, segs '/' data.path <+: l → l = segs '/' data.path := by
  cases he with
  | entry hw hrel hs => exact ⟨h.entry hroot ha hw hrel hs, by simp⟩
  | walkDone hw => exact ⟨⟨h.root_eq, h.onEmptyDir, h.descriptors, nofun, h.known⟩, by simp⟩
  | @create fd event ans path s₁ hr hk hp hs =>
    refine ⟨?_, by simp⟩
    have hname := hr.isName (by simp [hk])
    obtain ⟨ha, hset⟩ := ha
    obtain ⟨dir, hb, hpath, hplace⟩ := h.placeOf_eq hr hname ha hp
    have hbp : Below root path := hpath ▸ hb.childPath hname
    obtain ⟨he, hn⟩ := Extends.addWatch hs ((hset path (by rw [hp]; rfl)).1 hk.1 hk.2)
    have hc := (h.extend hbp he).learn (.of_hasNode hroot hbp hn)
    simp only [FsWatch.learn, hplace, hk]
    exact ⟨hc.root_eq, hc.onEmptyDir, hc.descriptors, fun d hd => Option.some.inj hd ▸ hbp, hc.known⟩
  | @modify fd event ans path out hr hk hp hout =>
    refine ⟨?_, fun data hd => absurd hd (hout data)⟩
    have hname := hr.isName (by rcases hk.2 with hk | hk <;> simp [hk])
    obtain ⟨ha, hset⟩ := ha
    obtain ⟨dir, hb, hpath, hplace⟩ := h.placeOf_eq hr hname ha hp
    have hbp : Below root path := hpath ▸ hb.childPath hname
    have hn := (hset path (by rw [hp]; rfl)).2 hk.1 hk.2
    have hd : event.bit ≠ .delete := by
      intro hd
      rcases hk.2 with hk | hk <;> rw [hk] at hd <;> cases hd
    rw [if_pos h.onEmptyDir]
    simp only [FsWatch.learn, hplace]
    rw [if_neg hd, if_pos (.inr hk)]
    exact (h.learn (.of_hasNode hroot hbp hn)).extend hbp .addToTree
  | @fileDelete fd event ans path out hr hk hp hcb hc =>
    have hname := hr.isName (by simp [hk])
    obtain ⟨dir, hb, hpath, hplace⟩ := h.placeOf_eq hr hname ha.1 hp
    have hbp : Below root path := hpath ▸ hb.childPath hname
    have hdel : Complete root (s.removeFromTree path) (known.filter fun l => ¬ segs '/' path <+: l) :=
      h.delete hroot hbp rfl rfl rfl rfl fun _ _ h => h
    simp only [FsWatch.learn, hplace, hk]
    exact ⟨hdel, fun data hd l hl => hdel.honest hroot hb hname (hpath ▸ hc) hd hl⟩
  | @dirDelete fd event ans path _ out hr hk hp hs hc =>
    have hname := hr.isName (by simp [hk])
    obtain ⟨dir, hb, hpath, hplace⟩ := h.placeOf_eq hr hname ha.1 hp
    have hbp : Below root path := hpath ▸ hb.childPath hname
    obtain ⟨hcl, htree⟩ := removeWatch_cases hs
    have hdel : Complete root s' (known.filter fun l => ¬ segs '/' path <+: l) :=
      h.delete hroot hbp htree hcl.root hcl.onEmptyDir hcl.walking fun _ _ hd => hcl.lookup hd
    simp only [FsWatch.learn, hplace, hk]
    exact ⟨hdel, fun data hd l hl => hdel.honest hroot hb hname (hpath ▸ hc) hd hl⟩
  | ignored hr hk =>
    rw [h.learn_ignored hr (fun d hd => (ha.1 d hd).1) hk]
    exact ⟨h, by simp⟩

/-! ### Runs -/

theorem Complete.init {onNewFile : Bool} {filters : Finset Str} (hroot : Plain root)
    (h : (new root onNewFile true filters).init ans = .ok s) : Complete root s [] := by
  obtain ⟨-, rfl⟩ := init_cases h
  have hnew : Complete root (new root onNewFile true filters) [] :=
    ⟨rfl, rfl, fun fd d hd => absurd hd (by simp [new]), nofun, by simp⟩
  have hc := hnew.extend (.refl root) (.install : Extends root _ (FsWatch.install _ root ans))
  refine ⟨hc.root_eq, hc.onEmptyDir, hc.descriptors, fun dir hd => ?_, by simp⟩
  have hlen : root.length ≠ 0 := fun h => hroot.1 (List.length_eq_zero_iff.1 h)
  obtain rfl : (if root.length = 0 then ['.'] else root) = dir := Option.some.inj hd
  rw [if_neg hlen]
  exact .refl root

theorem truthful_of_reach (root : Str) (onNewFile : Bool) (filters : Finset Str) (ans : Answer)
    (s₀ : FsWatch) (s : Account) (hroot : Plain root)
    (hinit : (new root onNewFile true filters).init ans = .ok s₀)
    (h : Reach (Under (fun s a => s.watch.Recorded a) (Ok Account.next)) ⟨s₀, [], []⟩ s) : s.Truthful := by
  have hinv : Complete root s.watch s.known ∧ s.Truthful := by
    refine h.invariant (I := fun s => Complete root s.watch s.known ∧ s.Truthful)
      ⟨.init hroot hinit, fun data hd => absurd hd (by simp)⟩ fun s a s' hI hs => ?_
    obtain ⟨⟨w, out⟩, hw, hs'⟩ := Res.of_bind hs.2
    obtain rfl := Except.ok.inj hs'
    exact hI.1.effect hroot hs.1 (step_effect hw)
  exact hinv.2

/-- `r/d` holds `a`, which is written again and removed. -/
theorem truthful_one_file :
    ∃ s₀ s, (new "r".toList false true ∅).init ⟨3, 1, true⟩ = .ok s₀ ∧
      Reach (Ok Account.next) ⟨s₀, [], []⟩ s ∧
      s.fired = [.emptyDir ⟨"r/d".toList, [], "r/d".toList, IS_DIR⟩] ∧ s.Truthful := by
  have hg : Gives ((new "r".toList false true ∅).init ⟨3, 1, true⟩) fun s₀ =>
      Goes Account.next (fun s a => s.watch.Recorded a)
        (fun s => s.fired = [.emptyDir ⟨"r/d".toList, [], "r/d".toList, IS_DIR⟩]) ⟨s₀, [], []⟩
        [.entry ["d".toList] Fts.FTS_D ⟨5, 1, true⟩, .entry ["d".toList, "a".toList] Fts.FTS_F ⟨5, 1, true⟩,
          .walkDone, .event 5 ⟨.closeWrite, false, "a".toList⟩ ⟨7, 1, true⟩,
          .event 5 ⟨.delete, false, "a".toList⟩ ⟨7, 1, true⟩] := by
    decide
  obtain ⟨s₀, hinit, hgoes⟩ := hg.ok
  obtain ⟨s, hr, hs⟩ := hgoes.reach
  exact ⟨s₀, s, hinit, hr.mono fun _ _ _ h => h.2, hs,
    truthful_of_reach _ _ _ _ s₀ s (by decide) hinit hr⟩

/-- `r/d` holds `a`; `b` is written, and when `a` is removed `r/d` is reported with `b` in it. -/
theorem not_truthful_new_file :
    ∃ s₀ s, (new "r".toList false true ∅).init ⟨3, 1, true⟩ = .ok s₀ ∧
      Reach (Ok Account.next) ⟨s₀, [], []⟩ s ∧ ¬ s.Truthful := by
  have hg : Gives ((new "r".toList false true ∅).init ⟨3, 1, true⟩) fun s₀ =>
      Goes Account.next (fun _ _ => True)
        (fun s => .emptyDir ⟨"r/d".toList, [], "r/d".toList, IS_DIR⟩ ∈ s.fired ∧
          ["r".toList, "d".toList, "b".toList] ∈ s.known) ⟨s₀, [], []⟩
        [.entry ["d".toList] Fts.FTS_D ⟨5, 1, true⟩, .entry ["d".toList, "a".toList] Fts.FTS_F ⟨5, 1, true⟩,
          .walkDone, .event 5 ⟨.closeWrite, false, "b".toList⟩ ⟨7, 1, true⟩,
          .event 5 ⟨.delete, false, "a".toList⟩ ⟨7, 1, true⟩] := by
    decide
  obtain ⟨s₀, hinit, hgoes⟩ := hg.ok
  obtain ⟨s, hr, hfired, hknown⟩ := hgoes.reach_ok
  refine ⟨s₀, s, hinit, hr, fun h => ?_⟩
  have := h _ hfired _ hknown (by decide)
  exact absurd this (by decide)

end ChCppUtils.FsWatch
