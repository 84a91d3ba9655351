import ChCppUtils.DirTree.Drop
import ChCppUtils.FsWatch.Places
import ChCppUtils.Lib.Runs

/-!
# The nodes below the root

`dropCbk` follows the data pointer of every node it gets. `insert` makes the nodes on the way to its key
without data, so a node is safe to drop when the directories on the way to it got their nodes before it
did. The walk does not see to that: it leaves out a hidden directory and goes on with what is in it. And
`handleFileModify` puts the empty path into the tree with a null pointer, which is the node of the root
where the root is `.`. Every drop is safe throughout a run exactly when no step does either
(`eachState_dropSafe_iff`).
-/

namespace ChCppUtils.FsWatch

open Runs DirTree

/-- `removeWatch` of a watched directory, or of the root as in `~FsWatch`, meets no null pointer. -/
def DropSafe (s : FsWatch) : Prop := ∀ d, d ∈ s.set ∨ d = s.root →
  (∀ x ∈ (s.tree.drop d).2, x.2 ≠ none) ∧ ∃ s', s.removeWatch d = .ok s'

/-- The path that a step puts into the tree, and whether with a `TreeNode`. -/
def puts (s : FsWatch) : Action → Option (Str × Bool)
  | .entry rel info _ =>
    match s.walking with
    | none => none
    | some dir =>
      if Fts.ReportsFile options (Fts.entry dir rel info) ∧ s.onEmptyDir = true ∨
          Fts.ReportsDir options (Fts.entry dir rel info) ∧ Fts.pathOf dir rel ∉ s.set then
        some (Fts.pathOf dir rel, true)
      else none
  | .walkDone => none
  | .event fd event _ =>
    match s.getFullPath fd event with
    | .error _ => none
    | .ok path =>
      if event.isDir = true ∧ event.bit = .create then if path ∈ s.set then none else some (path, true)
      else if (event.isDir = false ∧ (event.bit = .closeWrite ∨ event.bit = .movedTo)) ∧ s.onEmptyDir = true then
        some ([], false)
      else none

/-- A null pointer is not put below the root, and what is put there finds the nodes of the directories
on its way, the root's among them. -/
def Backed (s : FsWatch) (a : Action) : Prop := ∀ x ∈ s.puts a,
  (tokens s.root <+: tokens x.1 → x.2 = true) ∧
    ∀ q ∈ (tokens x.1).inits, tokens s.root <+: q → q ≠ tokens x.1 → (s.tree.view q).isSome

instance (s : FsWatch) (a : Action) : Decidable (s.Backed a) :=
  inferInstanceAs (Decidable (∀ x ∈ s.puts a, (_ → _) ∧ ∀ q ∈ (tokens x.1).inits, _ → _ → _))

variable {s s' : FsWatch} {a : Action} {out : List Notice} {dir path : Str} {ans : Answer} {fd wd : Int}

/-! ### Drops -/

theorem exists_foldlM_dropCbk {calls : List (Str × Option TreeNode)} (h : ∀ x ∈ calls, x.2 ≠ none) (s : FsWatch) :
    ∃ s', calls.foldlM (fun s (x : Str × Option TreeNode) => s.dropCbk x.1 x.2) s = .ok s' := by
  induction calls generalizing s with
  | nil => exact ⟨s, rfl⟩
  | cons x calls ih =>
    obtain ⟨node, hnode⟩ := Option.ne_none_iff_exists'.1 (h x List.mem_cons_self)
    rw [List.foldlM_cons, hnode]
    exact ih (fun y hy => h y (List.mem_cons_of_mem x hy)) _

theorem exists_removeWatch (h : ∀ x ∈ (s.tree.drop dir).2, x.2 ≠ none) : ∃ s', s.removeWatch dir = .ok s' := by
  obtain ⟨s₁, hs₁⟩ := exists_foldlM_dropCbk h s
  unfold removeWatch
  dsimp only
  simp only [hs₁]
  exact ⟨_, rfl⟩

/-- No node at or below the root's is without data. -/
def Full (s : FsWatch) : Prop := PathMap.FullBelow none (tokens s.root) s.tree.view

theorem dropSafe_iff (h : Placed IsName s) : s.DropSafe ↔ s.Full := by
  have hcalls : ∀ d, (∀ x ∈ (s.tree.drop d).2, x.2 ≠ none) ↔
      ∀ rel, s.tree.view (tokens d ++ rel) ≠ some none := by
    intro d
    constructor
    · intro hd rel hv
      obtain ⟨x, hx, hx'⟩ := List.mem_map.1 (mem_data_calls.2 ⟨rel, hv⟩)
      exact hd x hx hx'
    · intro hd x hx hx'
      obtain ⟨rel, hv⟩ := mem_data_calls.1 (List.mem_map_of_mem hx)
      exact hd rel (hx' ▸ hv)
  constructor
  · rintro hs q ⟨rel, rfl⟩
    exact (hcalls s.root).1 (hs s.root (.inr rfl)).1 rel
  · intro hf d hd
    have hpre : tokens s.root <+: tokens d := by
      rcases hd with hd | rfl
      · exact (h.set d hd).prefix_tokens .isName_class
      · exact List.prefix_rfl
    have hnode : ∀ x ∈ (s.tree.drop d).2, x.2 ≠ none :=
      (hcalls d).2 fun rel => hf _ (hpre.trans (List.prefix_append _ _))
    exact ⟨hnode, exists_removeWatch hnode⟩

/-! ### What a step does to the tree -/

/-- The step puts a path into the tree, or some nodes go at most. -/
inductive TreeEffect (s s' : FsWatch) : Option (Str × Bool) → Prop
  | put {path : Str} {data : Option TreeNode}
    (h : s'.tree.view = PathMap.insert none (tokens path) data s.tree.view) :
    TreeEffect s s' (some (path, data.isSome))
  | rest (h : ∀ q, s'.tree.view q = none ∨ s'.tree.view q = s.tree.view q) : TreeEffect s s' none

theorem TreeEffect.same (h : s'.tree = s.tree) : TreeEffect s s' none := .rest fun q => .inr (by rw [h])

theorem TreeEffect.addToTree (hp : path ≠ [] ∨ fd ≠ -1) :
    TreeEffect s (s.addToTree path fd wd) (some (path, true)) := by
  obtain ⟨data, htree, -, hnone⟩ := s.tree_addToTree path fd wd
  cases data with
  | none =>
    obtain ⟨hpath, hfd⟩ := hnone rfl
    rcases hp with hp | hp
    · exact absurd hpath hp
    · exact absurd hfd hp
  | some node => exact @TreeEffect.put s _ path (some node) (by rw [htree, view_insert])

theorem TreeEffect.install (h : 0 ≤ ans.fd) : TreeEffect s (s.install path ans) (some (path, true)) := by
  obtain ⟨node, htree, -⟩ := s.tree_install h
  exact @TreeEffect.put s _ path (some node) (by rw [htree, view_insert])

theorem TreeEffect.congr {s₁ : FsWatch} {o : Option (Str × Bool)} (h : TreeEffect s s₁ o)
    (htree : s'.tree = s₁.tree) : TreeEffect s s' o := by
  cases h with
  | put h => exact .put (htree ▸ h)
  | rest h => exact .rest (htree ▸ h)

theorem TreeEffect.trans {s₁ : FsWatch} {b b' : Bool} (h : TreeEffect s s₁ (some (path, b)))
    (h' : TreeEffect s₁ s' (some (path, b'))) : TreeEffect s s' (some (path, b')) := by
  cases h with
  | put h₁ =>
    cases h' with
    | put h₂ => exact .put (by rw [h₂, h₁, PathMap.insert_insert])

theorem TreeEffect.entry {node : Fts.FTSENT} (hne : node.fts_path ≠ [])
    (hs : if Fts.ReportsDir options node then (s.reportFile node).addWatch node.fts_path ans = .ok s'
      else s' = s.reportFile node) :
    TreeEffect s s' (if Fts.ReportsFile options node ∧ s.onEmptyDir = true ∨
        Fts.ReportsDir options node ∧ node.fts_path ∉ s.set then some (node.fts_path, true) else none) := by
  by_cases hf : Fts.ReportsFile options node ∧ s.onEmptyDir = true
  · -- the file is put, and the directory on top of it or nothing more
    have hfile : TreeEffect s (s.reportFile node) (some (node.fts_path, true)) := by
      unfold reportFile
      rw [if_pos hf]
      exact .addToTree (.inl hne)
    rw [if_pos (.inl hf)]
    split at hs
    · rcases addWatch_cases hs with ⟨-, rfl⟩ | ⟨-, h0, -, rfl⟩
      · exact hfile
      · exact hfile.trans (.install h0)
    · rw [hs]
      exact hfile
  · have hfile : s.reportFile node = s := if_neg hf
    rw [hfile] at hs
    simp only [hf, false_or]
    split at hs
    · rename_i hd
      rcases addWatch_cases hs with ⟨hset, rfl⟩ | ⟨hset, h0, -, rfl⟩
      · rw [if_neg fun h => h.2 hset]
        exact .same rfl
      · rw [if_pos ⟨hd, hset⟩]
        exact .install h0
    · rename_i hd
      rw [if_neg fun h => hd h.1, hs]
      exact .same rfl

theorem puts_of_ignored {event : InotifyEvent}
    (hk : fd ∉ s.map ∨ ¬ (event.isDir = true ∧ (event.bit = .create ∨ event.bit = .delete)) ∧
      (event.isDir = false → event.bit = .delete → s.onEmptyDir = false) ∧
      ¬ (event.isDir = false ∧ (event.bit = .closeWrite ∨ event.bit = .movedTo))) :
    s.puts (.event fd event ans) = none := by
  simp only [puts]
  rcases hk with hm | ⟨hdir, -, hmod⟩
  · rw [getFullPath, AList.lookup_eq_none.2 hm]
    rfl
  · split
    · rfl
    · rw [if_neg fun h => hdir ⟨h.1, .inl h.2⟩, if_neg fun h => hmod h.1]

theorem Effect.treeEffect (hplaced : Placed IsName s) (h : Effect s a s' out) :
    TreeEffect s s' (s.puts a) := by
  cases h with
  | @entry dir rel info ans _ hw hrel hs =>
    have hne : Fts.pathOf dir rel ≠ [] := by
      rcases List.eq_nil_or_concat rel with rfl | ⟨rel, n, rfl⟩
      · exact (hplaced.walking dir hw).1
      · rw [List.concat_eq_append, Fts.pathOf_concat, Fts.childPath_eq_trim]
        simp
    simp only [puts, hw]
    exact TreeEffect.entry (show (Fts.entry dir rel info).fts_path ≠ [] from hne) hs
  | walkDone hw => exact .same rfl
  | @create fd event ans path s₁ hr hk hp hs =>
    simp only [puts, hp, if_pos hk]
    rcases addWatch_cases hs with ⟨hset, rfl⟩ | ⟨hset, h0, -, rfl⟩
    · rw [if_pos hset]
      exact .same rfl
    · rw [if_neg hset]
      exact (TreeEffect.install h0).congr rfl
  | @modify fd event ans path out hr hk hp hout =>
    have hne : ¬ (event.isDir = true ∧ event.bit = .create) := fun hc => by simp [hc.1] at hk
    simp only [puts, hp, if_neg hne]
    by_cases hcb : s.onEmptyDir = true
    · rw [if_pos hcb, if_pos ⟨hk, hcb⟩]
      have hput : (s.addToTree [] (-1) (-1)).tree.view = PathMap.insert none (tokens []) none s.tree.view :=
        view_insert _ _ _
      exact .put hput
    · rw [if_neg hcb, if_neg fun h => hcb h.2]
      exact .same rfl
  | @fileDelete fd event ans path out hr hk hp hcb hc =>
    have hnone : s.puts (.event fd event ans) = none := by simp [puts, hp, hk]
    rw [hnone]
    refine .rest fun q => ?_
    show (s.tree.drop path).1.view q = none ∨ (s.tree.drop path).1.view q = s.tree.view q
    rw [view_drop]
    exact PathMap.drop_eq q
  | @dirDelete fd event ans path _ out hr hk hp hs hc =>
    have hnone : s.puts (.event fd event ans) = none := by simp [puts, hp, hk]
    obtain ⟨-, htree⟩ := removeWatch_cases hs
    rw [hnone]
    refine .rest fun q => ?_
    rw [htree, view_drop]
    exact PathMap.drop_eq q
  | @ignored fd event ans hr hk =>
    rw [puts_of_ignored hk]
    exact .same rfl

/-! ### Runs -/

theorem TreeEffect.full_iff {o : Option (Str × Bool)} (h : TreeEffect s s' o) (hr : s'.root = s.root)
    (hf : s.Full) : s'.Full ↔ ∀ x ∈ o, (tokens s.root <+: tokens x.1 → x.2 = true) ∧
      ∀ q ∈ (tokens x.1).inits, tokens s.root <+: q → q ≠ tokens x.1 → (s.tree.view q).isSome := by
  cases h with
  | @put path data hv =>
    rw [Full, hr, hv, hf.insert_iff]
    cases data <;> simp [List.mem_inits]
  | rest hv =>
    refine iff_of_true ?_ (by simp)
    rw [Full, hr]
    exact hf.mono hv

theorem full_init {root : Str} {onNewFile onEmptyDir : Bool} {filters : Finset Str}
    (h : (new root onNewFile onEmptyDir filters).init ans = .ok s) : s.Full := by
  obtain ⟨h0, rfl⟩ := init_cases h
  obtain ⟨node, htree, -⟩ : ∃ node : TreeNode, ((new root onNewFile onEmptyDir filters).install root ans).tree =
      (new root onNewFile onEmptyDir filters).tree.insert root (some node) ∧ _ := tree_install h0
  show PathMap.FullBelow none (tokens ((new root onNewFile onEmptyDir filters).install root ans).root)
    ((new root onNewFile onEmptyDir filters).install root ans).tree.view
  rw [root_install, htree, view_insert]
  have hnew : PathMap.FullBelow none (tokens root) (new root onNewFile onEmptyDir filters).tree.view := by
    rintro q ⟨rel, rfl⟩
    rw [show (new root onNewFile onEmptyDir filters).tree = DirTree.new from rfl,
      view_new (by simp [tokens_ne_nil])]
    exact nofun
  refine hnew.insert_iff.2 ⟨fun _ => nofun, fun q hq hrq hne => ?_⟩
  exact absurd (hq.eq_of_length (Nat.le_antisymm hq.length_le hrq.length_le)) hne

theorem eachState_dropSafe_iff (root : Str) (onNewFile onEmptyDir : Bool) (filters : Finset Str)
    (ans : Answer) (s₀ : FsWatch) (tr : List (Action × FsWatch))
    (hinit : (new root onNewFile onEmptyDir filters).init ans = .ok s₀) (hrun : Run (Ok next) s₀ tr) :
    EachState DropSafe s₀ tr ↔ EachStep Backed s₀ tr := by
  have hstep : ∀ s a s', Placed IsName s → Ok next s a s' →
      Placed IsName s' ∧ (s.Full → (s'.Full ↔ s.Backed a)) := by
    intro s a s' hp hs
    obtain ⟨out, he⟩ := next_effect hs
    exact ⟨hp.effect .isName_class he.isName he, fun hf => (he.treeEffect hp).full_iff he.root_eq hf⟩
  refine Run.eachState_iff (I := fun s => Placed IsName s ∧ s.Full) ?_ ?_ ?_
    ⟨(Placed.init hinit).1, full_init hinit⟩ hrun
  · exact fun s hI => (dropSafe_iff hI.1).2 hI.2
  · intro s a s' hI hc hs
    obtain ⟨hp, hiff⟩ := hstep s a s' hI.1 hs
    exact ⟨hp, (hiff hI.2).2 hc⟩
  · intro s a s' hI hs hsafe
    obtain ⟨hp, hiff⟩ := hstep s a s' hI.1 hs
    exact (hiff hI.2).1 ((dropSafe_iff hp).1 hsafe)

/-- `r/a` with a file is there before, and goes. -/
theorem dropSafe_no_hidden :
    ∃ s₀ tr, (new "r".toList false true ∅).init ⟨3, 1, true⟩ = .ok s₀ ∧
      exec next s₀ [.entry ["a".toList] Fts.FTS_D ⟨5, 1, true⟩,
        .entry ["a".toList, "f".toList] Fts.FTS_F ⟨6, 1, true⟩, .walkDone,
        .event 3 ⟨.delete, true, "a".toList⟩ ⟨6, 1, true⟩] = .ok tr ∧ EachState DropSafe s₀ tr := by
  have hg : Gives ((new "r".toList false true ∅).init ⟨3, 1, true⟩) fun s₀ =>
      Goes next Backed (fun _ => True) s₀
        [.entry ["a".toList] Fts.FTS_D ⟨5, 1, true⟩,
          .entry ["a".toList, "f".toList] Fts.FTS_F ⟨6, 1, true⟩, .walkDone,
          .event 3 ⟨.delete, true, "a".toList⟩ ⟨6, 1, true⟩] := by
    decide
  obtain ⟨s₀, hinit, hgoes⟩ := hg.ok
  obtain ⟨tr, htr, hc, -⟩ := hgoes.exec
  exact ⟨s₀, tr, hinit, htr, (eachState_dropSafe_iff _ _ _ _ _ s₀ tr hinit (Run.of_exec htr)).2 hc⟩

/-- `r/.h` with the directory `x` in it is there before: the walk reports `r/.h/x` only. -/
theorem not_dropSafe_hidden :
    ∃ s₀ tr, (new "r".toList false false ∅).init ⟨3, 1, true⟩ = .ok s₀ ∧
      exec next s₀ [.entry [".h".toList] Fts.FTS_D ⟨5, 1, true⟩,
        .entry [".h".toList, "x".toList] Fts.FTS_D ⟨5, 1, true⟩, .walkDone] = .ok tr ∧
      ¬ EachState DropSafe s₀ tr := by
  have hg : Gives ((new "r".toList false false ∅).init ⟨3, 1, true⟩) fun s₀ =>
      Goes next (fun _ _ => True) (fun s => ∃ x ∈ (s.tree.drop s.root).2, x.2 = none) s₀
        [.entry [".h".toList] Fts.FTS_D ⟨5, 1, true⟩,
          .entry [".h".toList, "x".toList] Fts.FTS_D ⟨5, 1, true⟩, .walkDone] := by
    decide
  obtain ⟨s₀, hinit, hgoes⟩ := hg.ok
  obtain ⟨tr, htr, -, s, ⟨x, hx, hnone⟩, hs⟩ := hgoes.exec
  exact ⟨s₀, tr, hinit, htr, fun h => ((hs _ h) _ (.inr rfl)).1 x hx hnone⟩

end ChCppUtils.FsWatch
