import ChCppUtils.FsWatch.Watch

/-!
# What the steps of the watcher can do

`addWatch` installs a descriptor or does nothing, `removeWatch` closes those of the dropped nodes,
and the `step_` lemmas say which of them a step comes down to.
-/

namespace ChCppUtils.FsWatch

open Fts (walkEntry)

variable {s s' : FsWatch} {dir path : Str} {fd wd : Int} {ans : Answer} {event : InotifyEvent}
  {out : List Notice}

@[simp] theorem map_addToTree : (s.addToTree dir fd wd).map = s.map := by
  unfold addToTree; split <;> rfl

@[simp] theorem set_addToTree : (s.addToTree dir fd wd).set = s.set := by
  unfold addToTree; split <;> rfl

@[simp] theorem descriptors_addToTree : (s.addToTree dir fd wd).descriptors = s.descriptors := by
  unfold addToTree; split <;> rfl

@[simp] theorem root_addToTree : (s.addToTree dir fd wd).root = s.root := by
  unfold addToTree; split <;> rfl

@[simp] theorem onEmptyDir_addToTree : (s.addToTree dir fd wd).onEmptyDir = s.onEmptyDir := by
  unfold addToTree; split <;> rfl

@[simp] theorem walking_addToTree : (s.addToTree dir fd wd).walking = s.walking := by
  unfold addToTree; split <;> rfl

/-- A node is given a `TreeNode` of its own path, or none in the call of `handleFileModify`. -/
theorem tree_addToTree (s : FsWatch) (dir : Str) (fd wd : Int) :
    ∃ data : Option TreeNode, (s.addToTree dir fd wd).tree = s.tree.insert dir data ∧
    (∀ node ∈ data, node.path = dir ∧ node.fd = fd) ∧ (data = none → dir = [] ∧ fd = -1) := by
  unfold addToTree
  by_cases h : dir.length = 0 ∧ fd = -1 ∧ wd = -1
  · refine ⟨none, by rw [if_pos h], by simp, fun _ => ⟨List.length_eq_zero_iff.1 h.1, h.2.1⟩⟩
  · refine ⟨some ⟨s.allocated, dir, fd, wd⟩, by rw [if_neg h], fun node hn => ?_, nofun⟩
    obtain rfl := Option.some.inj hn
    exact ⟨rfl, rfl⟩

/-! ### What `install` sets -/

@[simp] theorem set_install : (s.install dir ans).set = insert dir s.set := set_addToTree

@[simp] theorem map_install : (s.install dir ans).map = s.map.emplace ans.fd dir := map_addToTree

@[simp] theorem descriptors_install :
    (s.install dir ans).descriptors = AList.insert ans.fd ⟨dir, ans.wd, ans.epoll⟩ s.descriptors :=
  descriptors_addToTree

@[simp] theorem root_install : (s.install dir ans).root = s.root := root_addToTree

@[simp] theorem onEmptyDir_install : (s.install dir ans).onEmptyDir = s.onEmptyDir := onEmptyDir_addToTree

@[simp] theorem walking_install : (s.install dir ans).walking = s.walking := walking_addToTree

theorem tree_install (h : 0 ≤ ans.fd) : ∃ node : TreeNode,
    (s.install dir ans).tree = s.tree.insert dir (some node) ∧ node.path = dir ∧ node.fd = ans.fd := by
  obtain ⟨data, htree, hdata, hnone⟩ := tree_addToTree { s with
    descriptors := AList.insert ans.fd ⟨dir, ans.wd, ans.epoll⟩ s.descriptors
    map := s.map.emplace ans.fd dir
    set := insert dir s.set } dir ans.fd ans.wd
  cases data with
  | none =>
    have := (hnone rfl).2
    omega
  | some node => exact ⟨node, htree, hdata node rfl⟩

theorem addWatch_cases (h : s.addWatch dir ans = .ok s') :
    dir ∈ s.set ∧ s' = s ∨
      dir ∉ s.set ∧ 0 ≤ ans.fd ∧ ans.fd ∉ s.descriptors ∧ s' = s.install dir ans := by
  unfold addWatch at h
  by_cases hd : dir ∈ s.set
  · rw [if_pos hd] at h
    exact .inl ⟨hd, (Except.ok.inj h).symm⟩
  · rw [if_neg hd] at h
    split at h
    · cases h
    split at h
    · cases h
    rename_i hfd
    rw [not_or, not_lt] at hfd
    exact .inr ⟨hd, hfd.1, hfd.2, (Except.ok.inj h).symm⟩

theorem addWatch_eq_install (hdir : dir ∉ s.set) (hfd : 0 ≤ ans.fd) (hfree : ans.fd ∉ s.descriptors) :
    s.addWatch dir ans = .ok (s.install dir ans) := by
  have hne : ans.fd ≠ -1 := by omega
  have hok : ¬ (ans.fd < 0 ∨ ans.fd ∈ s.descriptors) := not_or.2 ⟨by omega, hfree⟩
  rw [addWatch, if_neg hdir, if_neg hne, if_neg hok]
  rfl

theorem walking_addWatch (h : s.addWatch dir ans = .ok s') : s'.walking = s.walking := by
  rcases addWatch_cases h with ⟨-, rfl⟩ | ⟨-, -, -, rfl⟩
  · rfl
  · exact walking_install

theorem root_addWatch (h : s.addWatch dir ans = .ok s') : s'.root = s.root := by
  rcases addWatch_cases h with ⟨-, rfl⟩ | ⟨-, -, -, rfl⟩
  · rfl
  · exact root_install

theorem getFullPath_eq_ok (h : s.getFullPath fd event = .ok path) :
    ∃ dir, s.map.lookup fd = some dir ∧
      path = dir ++ (if s.root.getLast? = some '/' then [] else ['/']) ++ event.name := by
  unfold getFullPath at h
  split at h
  · cases h
  · rename_i dir hd
    exact ⟨dir, hd, (Except.ok.inj h).symm⟩

theorem path_of_event {d : Descriptor} (hd : Below s.root d.dir) (hm : s.map.lookup fd = some d.dir)
    (hslash : s.root.getLast? = some '/' → d.dir = s.root) (hp : s.getFullPath fd event = .ok path) :
    path = Fts.childPath d.dir event.name := by
  obtain ⟨dir, hdir, rfl⟩ := getFullPath_eq_ok hp
  rw [hm] at hdir
  obtain rfl := Option.some.inj hdir
  rw [Fts.childPath_eq]
  by_cases hr : s.root.getLast? = some '/'
  · rw [hslash hr]
  · obtain ⟨rel, hrel, hdir⟩ := hd
    rw [if_neg hr, if_neg (hdir ▸ Fts.getLast?_pathOf hrel (.inr hr))]

/-! ### The calls of a drop -/

/-- The callbacks of a drop erase the paths they get from `set` and close the descriptors of the nodes
they get. -/
structure Closed (calls : List (Str × Option TreeNode)) (s s' : FsWatch) : Prop where
  nonnull : ∀ x ∈ calls, x.2 ≠ none
  set : ∀ d, d ∈ s'.set ↔ d ∈ s.set ∧ ∀ x ∈ calls, x.1 ≠ d
  descriptors : ∀ fd, s'.descriptors.lookup fd =
    if ∃ x ∈ calls, ∃ node ∈ x.2, node.fd = fd then none else s.descriptors.lookup fd
  map : s'.map = s.map
  root : s'.root = s.root
  onEmptyDir : s'.onEmptyDir = s.onEmptyDir
  walking : s'.walking = s.walking

/-- No descriptor is opened. -/
theorem Closed.lookup {calls : List (Str × Option TreeNode)} {d : Descriptor} (h : Closed calls s s')
    (hd : s'.descriptors.lookup fd = some d) : s.descriptors.lookup fd = some d := by
  rw [h.descriptors] at hd
  split at hd
  · cases hd
  · exact hd

theorem Closed.cons {calls : List (Str × Option TreeNode)} {node : TreeNode} {s₁ : FsWatch}
    (hs : s.dropCbk path (some node) = .ok s₁) (h : Closed calls s₁ s') :
    Closed ((path, some node) :: calls) s s' := by
  obtain rfl := Except.ok.inj hs
  refine ⟨?_, fun d => ?_, fun fd => ?_, h.map, h.root, h.onEmptyDir, h.walking⟩
  · rintro x hx
    rcases List.mem_cons.1 hx with rfl | hx
    · exact nofun
    · exact h.nonnull x hx
  · rw [h.set d]
    show d ∈ s.set.erase path ∧ _ ↔ _
    rw [Finset.mem_erase, List.forall_mem_cons]
    constructor
    · rintro ⟨⟨hne, hd⟩, hall⟩; exact ⟨hd, Ne.symm hne, hall⟩
    · rintro ⟨hd, hne, hall⟩; exact ⟨⟨Ne.symm hne, hd⟩, hall⟩
  · rw [h.descriptors fd]
    show (if _ then none else (AList.erase node.fd s.descriptors).lookup fd) = _
    by_cases hfd : node.fd = fd
    · have hex : ∃ x ∈ (path, some node) :: calls, ∃ n ∈ x.2, n.fd = fd :=
        ⟨_, List.mem_cons_self, node, rfl, hfd⟩
      rw [if_pos hex, hfd, AList.lookup_erase, ite_self]
    · rw [AList.lookup_erase_ne (Ne.symm hfd)]
      refine if_congr ?_ rfl rfl
      constructor
      · rintro ⟨x, hx, hn⟩; exact ⟨x, List.mem_cons_of_mem _ hx, hn⟩
      · rintro ⟨x, hx, n, hn, hnfd⟩
        rcases List.mem_cons.1 hx with rfl | hx
        · exact absurd (Option.some.inj hn ▸ hnfd) hfd
        · exact ⟨x, hx, n, hn, hnfd⟩

theorem foldlM_dropCbk {calls : List (Str × Option TreeNode)}
    (h : calls.foldlM (fun s (x : Str × Option TreeNode) => s.dropCbk x.1 x.2) s = .ok s') :
    Closed calls s s' ∧ s'.tree = s.tree := by
  induction calls generalizing s with
  | nil =>
    obtain rfl : s = s' := Except.ok.inj h
    exact ⟨⟨by simp, by simp, by simp, rfl, rfl, rfl, rfl⟩, rfl⟩
  | cons x calls ih =>
    obtain ⟨path, data⟩ := x
    rw [List.foldlM_cons] at h
    cases hd : s.dropCbk path data with
    | error e => simp only [hd] at h; cases h
    | ok s₁ =>
      simp only [hd] at h
      obtain ⟨hc, ht⟩ := ih h
      cases data with
      | none => cases hd
      | some node =>
        have ht₁ : s₁.tree = s.tree := by obtain rfl := Except.ok.inj hd; rfl
        exact ⟨hc.cons hd, ht.trans ht₁⟩

theorem removeWatch_cases (h : s.removeWatch dir = .ok s') :
    Closed (s.tree.drop dir).2 s s' ∧ s'.tree = (s.tree.drop dir).1 := by
  unfold removeWatch at h
  dsimp only at h
  cases hf : (s.tree.drop dir).2.foldlM (fun s (x : Str × Option TreeNode) => s.dropCbk x.1 x.2) s with
  | error e => simp only [hf] at h; cases h
  | ok s₁ =>
    simp only [hf] at h
    obtain rfl := Except.ok.inj h
    obtain ⟨hc, -⟩ := foldlM_dropCbk hf
    exact ⟨⟨hc.nonnull, hc.set, hc.descriptors, hc.map, hc.root, hc.onEmptyDir, hc.walking⟩, rfl⟩

/-! ### The effect of a step -/

/-- What a walk's entry that is reported as a file does. -/
def reportFile (s : FsWatch) (node : Fts.FTSENT) : FsWatch :=
  if Fts.ReportsFile options node ∧ s.onEmptyDir = true then s.addToTree node.fts_path (-1) (-1) else s

@[simp] theorem map_reportFile (node : Fts.FTSENT) : (s.reportFile node).map = s.map := by
  unfold reportFile; split <;> simp

@[simp] theorem set_reportFile (node : Fts.FTSENT) : (s.reportFile node).set = s.set := by
  unfold reportFile; split <;> simp

@[simp] theorem descriptors_reportFile (node : Fts.FTSENT) :
    (s.reportFile node).descriptors = s.descriptors := by
  unfold reportFile; split <;> simp

@[simp] theorem root_reportFile (node : Fts.FTSENT) : (s.reportFile node).root = s.root := by
  unfold reportFile; split <;> simp

@[simp] theorem walking_reportFile (node : Fts.FTSENT) : (s.reportFile node).walking = s.walking := by
  unfold reportFile; split <;> simp

/-- An event that the watcher may read now. -/
structure Readable (s : FsWatch) (fd : Int) (event : InotifyEvent) : Prop where
  walking : s.walking = none
  «open» : fd ∈ s.descriptors
  name : event.bit = .other ∨ IsName event.name

theorem Readable.isName (h : Readable s fd event) (hb : event.bit ≠ .other) : IsName event.name :=
  h.name.resolve_left hb

/-- All that a step can do. -/
inductive Effect (s : FsWatch) : Action → FsWatch → List Notice → Prop
  | entry {dir : Str} {rel : List Str} {info : Nat} {ans : Answer} {s' : FsWatch}
    (hw : s.walking = some dir) (hrel : ∀ name ∈ rel, IsName name)
    (hs : if Fts.ReportsDir options (Fts.entry dir rel info) then
        (s.reportFile (Fts.entry dir rel info)).addWatch (Fts.pathOf dir rel) ans = .ok s'
      else s' = s.reportFile (Fts.entry dir rel info)) : Effect s (.entry rel info ans) s' []
  | walkDone {dir : Str} (hw : s.walking = some dir) : Effect s .walkDone { s with walking := none } []
  | create {fd : Int} {event : InotifyEvent} {ans : Answer} {path : Str} {s₁ : FsWatch}
    (hr : Readable s fd event) (hk : event.isDir = true ∧ event.bit = .create)
    (hp : s.getFullPath fd event = .ok path) (hs : s.addWatch path ans = .ok s₁) :
    Effect s (.event fd event ans) { s₁ with walking := some path } []
  | modify {fd : Int} {event : InotifyEvent} {ans : Answer} {path : Str} {out : List Notice}
    (hr : Readable s fd event)
    (hk : event.isDir = false ∧ (event.bit = .closeWrite ∨ event.bit = .movedTo))
    (hp : s.getFullPath fd event = .ok path) (hout : ∀ data, .emptyDir data ∉ out) :
    Effect s (.event fd event ans) (if s.onEmptyDir then s.addToTree [] (-1) (-1) else s) out
  | fileDelete {fd : Int} {event : InotifyEvent} {ans : Answer} {path : Str} {out : List Notice}
    (hr : Readable s fd event) (hk : event.isDir = false ∧ event.bit = .delete)
    (hp : s.getFullPath fd event = .ok path) (hcb : s.onEmptyDir = true)
    (hc : (s.removeFromTree path).checkEmptyDir path = .ok out) :
    Effect s (.event fd event ans) (s.removeFromTree path) out
  | dirDelete {fd : Int} {event : InotifyEvent} {ans : Answer} {path : Str} {s' : FsWatch} {out : List Notice}
    (hr : Readable s fd event) (hk : event.isDir = true ∧ event.bit = .delete)
    (hp : s.getFullPath fd event = .ok path) (hs : s.removeWatch path = .ok s')
    (hc : s'.checkEmptyDir path = .ok out) : Effect s (.event fd event ans) s' out
  | ignored {fd : Int} {event : InotifyEvent} {ans : Answer} (hr : Readable s fd event)
    (hk : fd ∉ s.map ∨ ¬ (event.isDir = true ∧ (event.bit = .create ∨ event.bit = .delete)) ∧
      (event.isDir = false → event.bit = .delete → s.onEmptyDir = false) ∧
      ¬ (event.isDir = false ∧ (event.bit = .closeWrite ∨ event.bit = .movedTo))) :
    Effect s (.event fd event ans) s []

theorem onFile_fireFileCbk (name ext path : Str) : s.onFile ans (Fts.fireFileCbk name ext path) =
    pure (if s.onEmptyDir then s.addToTree path (-1) (-1) else s) := by
  simp [onFile, Fts.fireFileCbk, IS_REGULAR, IS_DIR]

theorem onFile_fireDirCbk (name ext path : Str) :
    s.onFile ans (Fts.fireDirCbk name ext path) = s.addWatch path ans := by
  simp [onFile, Fts.fireDirCbk, IS_DIR]

theorem foldlM_onFile (node : Fts.FTSENT) :
    (walkEntry options node).foldlM (fun s data => s.onFile ans data) s =
      if Fts.ReportsDir options node then (s.reportFile node).addWatch node.fts_path ans
      else pure (s.reportFile node) := by
  have hfile : (if Fts.ReportsFile options node then
        [Fts.fireFileCbk node.fts_name (extOf node.fts_name) node.fts_path] else []).foldlM
      (fun s data => s.onFile ans data) s = pure (s.reportFile node) := by
    unfold reportFile
    by_cases hf : Fts.ReportsFile options node
    · rw [if_pos hf, List.foldlM_cons, onFile_fireFileCbk]
      cases hc : s.onEmptyDir <;> simp [hf]
    · rw [if_neg hf, if_neg fun h => hf h.1]; rfl
  rw [Fts.walkEntry_eq, List.foldlM_append, hfile, pure_bind]
  by_cases hd : Fts.ReportsDir options node
  · rw [if_pos hd, if_pos hd, List.foldlM_cons, onFile_fireDirCbk]
    cases (s.reportFile node).addWatch node.fts_path ans <;> rfl
  · rw [if_neg hd, if_neg hd]; rfl

theorem effect_entry {rel : List Str} {info : Nat} (h : s.step (.entry rel info ans) = .ok (s', out)) :
    Effect s (.entry rel info ans) s' out := by
  rw [step] at h
  cases hw : s.walking with
  | none => simp only [hw] at h; cases h
  | some dir =>
    simp only [hw] at h
    split at h
    · rename_i hrel
      rw [foldlM_onFile] at h
      by_cases hd : Fts.ReportsDir options (Fts.entry dir rel info)
      · rw [if_pos hd] at h
        obtain ⟨s₁, ha, h⟩ := Res.of_bind h
        obtain ⟨rfl, rfl⟩ := Prod.mk.inj (Except.ok.inj h)
        exact .entry hw hrel (by rw [if_pos hd]; exact ha)
      · rw [if_neg hd] at h
        obtain ⟨rfl, rfl⟩ := Prod.mk.inj (Except.ok.inj h)
        exact .entry hw hrel (by rw [if_neg hd])
    · cases h

theorem effect_handleEvent (hr : Readable s fd event) (h : s.handleEvent fd event ans = .ok (s', out)) :
    Effect s (.event fd event ans) s' out := by
  unfold handleEvent at h
  split at h
  · rename_i hk
    obtain ⟨path, hp, h⟩ := Res.of_bind h
    obtain ⟨s₁, hs, h⟩ := Res.of_bind h
    obtain ⟨rfl, rfl⟩ := Prod.mk.inj (Except.ok.inj h)
    exact .create hr hk hp hs
  · rename_i hk₁
    split at h
    · rename_i hk
      obtain ⟨path, hp, h⟩ := Res.of_bind h
      obtain ⟨rfl, rfl⟩ := Prod.mk.inj (Except.ok.inj h)
      refine .modify hr hk hp fun data hd => ?_
      split at hd
      · split at hd <;> simp [fireFileCbk] at hd
      · exact absurd hd (by simp)
    · rename_i hk₂
      split at h
      · rename_i hk
        unfold handleFileDelete at h
        cases hcb : s.onEmptyDir with
        | false =>
          rw [hcb] at h
          obtain ⟨rfl, rfl⟩ := Prod.mk.inj (Except.ok.inj h)
          refine .ignored hr (.inr ⟨?_, fun _ _ => hcb, hk₂⟩)
          rw [hk.1]; simp
        | true =>
          rw [hcb] at h
          obtain ⟨path, hp, h⟩ := Res.of_bind h
          obtain ⟨out', hc, h⟩ := Res.of_bind h
          obtain ⟨rfl, rfl⟩ := Prod.mk.inj (Except.ok.inj h)
          exact .fileDelete hr hk hp hcb hc
      · rename_i hk₃
        split at h
        · rename_i hk
          obtain ⟨path, hp, h⟩ := Res.of_bind h
          obtain ⟨s₁, hs, h⟩ := Res.of_bind h
          obtain ⟨out', hc, h⟩ := Res.of_bind h
          obtain ⟨rfl, rfl⟩ := Prod.mk.inj (Except.ok.inj h)
          exact .dirDelete hr hk hp hs hc
        · rename_i hk₄
          obtain ⟨rfl, rfl⟩ := Prod.mk.inj (Except.ok.inj h)
          refine .ignored hr (.inr ⟨?_, fun h₁ h₂ => absurd ⟨h₁, h₂⟩ hk₃, hk₂⟩)
          rintro ⟨hd, hc | hd'⟩
          · exact hk₁ ⟨hd, hc⟩
          · exact hk₄ ⟨hd, hd'⟩

theorem step_effect {a : Action} (h : s.step a = .ok (s', out)) : Effect s a s' out := by
  cases a with
  | entry rel info ans => exact effect_entry h
  | walkDone =>
    rw [step] at h
    split at h
    · cases h
    · rename_i hw
      obtain ⟨dir, hd⟩ := Option.ne_none_iff_exists'.1 hw
      obtain ⟨rfl, rfl⟩ := Prod.mk.inj (Except.ok.inj h)
      exact .walkDone hd
  | event fd event ans =>
    rw [step] at h
    split at h
    · rename_i hr
      have hr : Readable s fd event := ⟨hr.1, hr.2.1, hr.2.2⟩
      split at h
      · exact effect_handleEvent hr h
      · rename_i hm
        obtain ⟨rfl, rfl⟩ := Prod.mk.inj (Except.ok.inj h)
        exact .ignored hr (.inl hm)
    · cases h

theorem next_effect {a : Action} (h : s.next a = .ok s') : ∃ out, Effect s a s' out := by
  unfold next at h
  cases hs : s.step a with
  | error e => rw [hs] at h; cases h
  | ok x =>
    rw [hs] at h
    obtain rfl := Except.ok.inj h
    exact ⟨x.2, step_effect hs⟩

theorem init_cases {root : Str} {onNewFile onEmptyDir : Bool} {filters : Finset Str}
    (h : (new root onNewFile onEmptyDir filters).init ans = .ok s) :
    0 ≤ ans.fd ∧ s = { (new root onNewFile onEmptyDir filters).install root ans with
      walking := some (if root.length = 0 then ['.'] else root) } := by
  unfold init at h
  obtain ⟨s₁, ha, h⟩ := Res.of_bind h
  rcases addWatch_cases ha with ⟨hd, -⟩ | ⟨-, h0, -, rfl⟩
  · exact absurd hd (Finset.notMem_empty root)
  · obtain rfl := Except.ok.inj h
    exact ⟨h0, by simp only [root_install, new]⟩

end ChCppUtils.FsWatch
