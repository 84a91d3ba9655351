import ChCppUtils.FsWatch.NodeData
import ChCppUtils.Lib.Ledger

/-!
# Who deletes the `TreeNode`s

A `TreeNode` is owned by the node of the tree that has it for its data, and deleted by `dropCbk` only. It is
lost when another one is put over it, and when a drop without callback takes its node: that is what
`removeFromTree` does for a file that is deleted, where `removeWatch` passes `dropCbk`. All `TreeNode`s of a
run are deleted once iff no step loses one, and no node without data comes to be below the root
(`eachState_ownedOnce_iff`).
-/

namespace ChCppUtils.FsWatch

open Runs DirTree

/-- The `TreeNode`s, by the nodes of the tree. -/
def ledger (s : FsWatch) : Ledger (List Str) where
  held := fun p => (s.tree.view p).join.map TreeNode.addr
  allocated := s.allocated
  deleted := s.deleted

/-- `~FsWatch` and, for its tree, `~DirTree`. -/
def destroy (s : FsWatch) : Res FsWatch := do
  let s ← s.removeWatch s.root
  return { s with tree := (s.tree.drop ['.']).1 }

/-- `~FsWatch` returns, and each `TreeNode` has been deleted once. -/
def OwnedOnce (s : FsWatch) : Prop :=
  ∃ s', s.destroy = .ok s' ∧ ∀ addr < s.allocated, s'.deleted.count addr = 1

/-- The path that a step drops from the tree without a callback. -/
def forgets (s : FsWatch) : Action → Option Str
  | .event fd event _ =>
    if event.isDir = false ∧ event.bit = .delete ∧ s.onEmptyDir = true then (s.getFullPath fd event).toOption else none
  | .entry .. | .walkDone => none

/-- The walk reports an entry as a file, and as a directory that is not watched yet. -/
def PutsTwice (s : FsWatch) : Action → Prop
  | .entry rel info _ => ∃ dir ∈ s.walking, Fts.ReportsFile options (Fts.entry dir rel info) ∧ s.onEmptyDir = true ∧
      Fts.ReportsDir options (Fts.entry dir rel info) ∧ Fts.pathOf dir rel ∉ s.set
  | .event .. | .walkDone => False

/-- What is put into the tree finds no `TreeNode` at its node, and a file that is deleted none at or below
its own. -/
structure Spares (s : FsWatch) (a : Action) : Prop where
  puts : ∀ x ∈ s.puts a, (s.tree.view (tokens x.1)).join = none
  drops : ∀ path ∈ s.forgets a, ∀ x ∈ (s.tree.drop path).2, x.2 = none
  once : ¬ s.PutsTwice a

instance (s : FsWatch) (a : Action) : Decidable (s.PutsTwice a) :=
  match a with
  | .entry _ _ _ => inferInstanceAs (Decidable (∃ dir ∈ s.walking, _))
  | .event .. | .walkDone => .isFalse id

instance (s : FsWatch) (a : Action) : Decidable (s.Spares a) :=
  decidable_of_iff ((∀ x ∈ s.puts a, (s.tree.view (tokens x.1)).join = none) ∧
      (∀ path ∈ s.forgets a, ∀ x ∈ (s.tree.drop path).2, x.2 = none) ∧ ¬ s.PutsTwice a)
    ⟨fun h => ⟨h.1, h.2.1, h.2.2⟩, fun h => ⟨h.puts, h.drops, h.once⟩⟩

variable {s s' : FsWatch} {a : Action} {out : List Notice} {dir path : Str} {ans : Answer} {fd wd : Int}

/-! ### The operations on the ledger -/

theorem join_insert (p q : List Str) (data : Option TreeNode) (m : PathMap Str (Option TreeNode)) :
    (PathMap.insert none p data m q).join = if q = p then data else (m q).join := by
  unfold PathMap.insert
  split
  · rfl
  · split
    · cases m q <;> rfl
    · rfl

theorem ledger_held (p : List Str) : s.ledger.held p = (s.tree.view p).join.map TreeNode.addr := rfl

theorem ledger_addToTree (h : dir ≠ [] ∨ fd ≠ -1) : (s.addToTree dir fd wd).ledger = s.ledger.put (tokens dir) := by
  have hcond : ¬ (dir.length = 0 ∧ fd = -1 ∧ wd = -1) := by
    rintro ⟨hlen, hfd, -⟩
    exact h.elim (fun hd => hd (List.length_eq_zero_iff.1 hlen)) fun hf => hf hfd
  rw [addToTree, if_neg hcond]
  refine Ledger.ext' (fun p => ?_) rfl rfl
  rw [Ledger.held_put, ledger_held, ledger_held, view_insert, join_insert]
  split <;> rfl

/-- The call of `handleFileModify` puts a null pointer. -/
theorem ledger_addToTree_null : (s.addToTree [] (-1) (-1)).ledger = s.ledger.clear (· = tokens []) := by
  refine Ledger.ext' (fun p => ?_) rfl rfl
  have htree : (s.addToTree [] (-1) (-1)).tree = s.tree.insert [] none := rfl
  rw [Ledger.clear_held, ledger_held, ledger_held, htree, view_insert, join_insert]
  split <;> rfl

theorem ledger_install (h : 0 ≤ ans.fd) : (s.install dir ans).ledger = s.ledger.put (tokens dir) := by
  rw [install, ledger_addToTree (.inr (by omega))]
  rfl

theorem ledger_removeFromTree : (s.removeFromTree dir).ledger = s.ledger.clear (tokens dir <+: ·) := by
  refine Ledger.ext' (fun p => ?_) rfl rfl
  rw [Ledger.clear_held, ledger_held, ledger_held, removeFromTree, view_drop, PathMap.drop]
  split <;> rfl

theorem held_ledger {p : List Str} {addr : Nat} :
    s.ledger.held p = some addr ↔ ∃ node : TreeNode, s.tree.view p = some (some node) ∧ node.addr = addr := by
  rw [ledger, Option.map_eq_some_iff]
  simp [Option.join_eq_some_iff]

/-- The `TreeNode`s that the calls of a drop delete, the last one first. -/
def addrs (calls : List (Str × Option TreeNode)) : List Nat :=
  ((calls.map Prod.snd).filterMap fun data => data.map TreeNode.addr).reverse

theorem lists_addrs (h : s.ledger.Sound) (dir : Str) : s.ledger.Lists (tokens dir <+: ·) (addrs (s.tree.drop dir).2) := by
  rw [addrs, drop_data]
  constructor
  · intro x
    rw [List.mem_reverse, List.mem_filterMap]
    constructor
    · rintro ⟨data, hdata, hx⟩
      obtain ⟨⟨p, data⟩, hm, rfl⟩ := List.mem_map.1 hdata
      obtain ⟨hpre, hv⟩ := mem_dropped.1 hm
      obtain ⟨node, rfl, rfl⟩ := Option.map_eq_some_iff.1 hx
      exact ⟨p, hpre, held_ledger.2 ⟨node, hv, rfl⟩⟩
    · rintro ⟨p, hpre, hx⟩
      obtain ⟨node, hv, rfl⟩ := held_ledger.1 hx
      exact ⟨some node, List.mem_map_of_mem (mem_dropped.2 ⟨hpre, hv⟩), rfl⟩
  · rw [List.nodup_reverse, List.filterMap_map, List.Nodup, List.pairwise_filterMap]
    have hn := s.tree.dropped_nodup dir
    rw [List.Nodup, List.pairwise_map] at hn
    refine hn.imp_of_mem fun {x y} hx hy hne a ha b hb hab => hne ?_
    obtain ⟨n, hxn, rfl⟩ := Option.map_eq_some_iff.1 ha
    obtain ⟨m, hym, rfl⟩ := Option.map_eq_some_iff.1 hb
    have hxv : s.tree.view x.1 = some (some n) := hxn ▸ (mem_dropped.1 hx).2
    have hyv : s.tree.view y.1 = some (some m) := hym ▸ (mem_dropped.1 hy).2
    exact h.inj x.1 y.1 _ (held_ledger.2 ⟨n, hxv, rfl⟩) (held_ledger.2 ⟨m, hyv, hab.symm⟩)

theorem foldlM_dropCbk_heap {calls : List (Str × Option TreeNode)}
    (h : calls.foldlM (fun s (x : Str × Option TreeNode) => s.dropCbk x.1 x.2) s = .ok s') :
    s'.deleted = addrs calls ++ s.deleted ∧ s'.allocated = s.allocated := by
  induction calls generalizing s with
  | nil =>
    obtain rfl : s = s' := Except.ok.inj h
    exact ⟨rfl, rfl⟩
  | cons x calls ih =>
    obtain ⟨path, data⟩ := x
    rw [List.foldlM_cons] at h
    cases data with
    | none => cases h
    | some node =>
      obtain ⟨hdeleted, hallocated⟩ := ih h
      refine ⟨?_, hallocated⟩
      rw [hdeleted]
      simp [addrs]

theorem removeWatch_heap (h : s.removeWatch dir = .ok s') :
    s'.deleted = addrs (s.tree.drop dir).2 ++ s.deleted ∧ s'.allocated = s.allocated := by
  unfold removeWatch at h
  dsimp only at h
  cases hf : (s.tree.drop dir).2.foldlM (fun s (x : Str × Option TreeNode) => s.dropCbk x.1 x.2) s with
  | error e => simp only [hf] at h; cases h
  | ok s₁ =>
    have hheap := foldlM_dropCbk_heap hf
    simp only [hf] at h
    obtain rfl := Except.ok.inj h
    exact hheap

theorem ledger_removeWatch (h : s.removeWatch dir = .ok s') :
    s'.ledger = s.ledger.delete (tokens dir <+: ·) (addrs (s.tree.drop dir).2) := by
  obtain ⟨hdeleted, hallocated⟩ := removeWatch_heap h
  obtain ⟨-, htree⟩ := removeWatch_cases h
  refine Ledger.ext' (fun p => ?_) hallocated hdeleted
  rw [Ledger.delete_held, ledger_held, ledger_held, htree, view_drop, PathMap.drop]
  split <;> rfl

/-! ### The destructor -/

/-- The places of the root's `TreeNode` and of all below it. -/
def Kept (s : FsWatch) : Prop := s.ledger.Kept (tokens s.root <+: ·)

theorem ownedOnce_iff (h : s.ledger.Sound) (hp : Placed IsName s) : s.OwnedOnce ↔ s.Full ∧ s.Kept := by
  have hcount : ∀ {s₁ : FsWatch}, s.removeWatch s.root = .ok s₁ →
      ((∀ addr < s.allocated, s₁.deleted.count addr = 1) ↔ s.Kept) := by
    intro s₁ hs
    rw [Kept, ← Ledger.count_delete_iff h (lists_addrs h s.root), ← ledger_removeWatch hs]
    rfl
  constructor
  · rintro ⟨s', hs, hall⟩
    obtain ⟨s₁, hs₁, hs⟩ := Res.of_bind hs
    obtain rfl := Except.ok.inj hs
    refine ⟨?_, (hcount hs₁).1 hall⟩
    rintro q ⟨rel, rfl⟩ hv
    obtain ⟨x, hx, hnone⟩ := List.mem_map.1 (mem_data_calls.2 ⟨rel, hv⟩)
    exact (removeWatch_cases hs₁).1.nonnull x hx hnone
  · rintro ⟨hf, hk⟩
    obtain ⟨-, s₁, hs₁⟩ := (dropSafe_iff hp).2 hf s.root (.inr rfl)
    refine ⟨{ s₁ with tree := (s₁.tree.drop ['.']).1 }, ?_, (hcount hs₁).2 hk⟩
    rw [destroy, hs₁]
    rfl

/-! ### One step -/

/-- The object that a path would be put over. -/
theorem held_eq_none_iff {p : List Str} : s.ledger.held p = none ↔ (s.tree.view p).join = none := by
  rw [ledger, Option.map_eq_none_iff]

/-- What a step makes of a sound ledger that has lost nothing. -/
structure Turn (s s' : FsWatch) (spares : Prop) : Prop where
  sound : s'.ledger.Sound
  kept : s'.Kept ↔ spares

theorem Turn.put {spares : Prop} (h : s.ledger.Sound) (hk : s.Kept) (hroot : s'.root = s.root)
    (hs : s'.ledger = s.ledger.put (tokens path)) (hp : tokens s.root <+: tokens path)
    (hiff : (s.tree.view (tokens path)).join = none ↔ spares) : Turn s s' spares := by
  constructor
  · rw [hs]
    exact h.put
  · rw [Kept, hs, hroot, Ledger.kept_put_iff h hk hp, held_eq_none_iff, hiff]

theorem Turn.clear {spares : Prop} {S : List Str → Prop} [DecidablePred S] (h : s.ledger.Sound) (hk : s.Kept)
    (hroot : s'.root = s.root) (hs : s'.ledger = s.ledger.clear S)
    (hiff : (∀ p, S p → s.ledger.held p = none) ↔ spares) : Turn s s' spares := by
  constructor
  · rw [hs]
    exact h.clear
  · rw [Kept, hs, hroot, Ledger.kept_clear_iff h hk, hiff]

theorem Turn.same {spares : Prop} (h : s.ledger.Sound) (hk : s.Kept) (hroot : s'.root = s.root)
    (hs : s'.ledger = s.ledger) (hspares : spares) : Turn s s' spares := by
  constructor
  · rwa [hs]
  · rw [Kept, hs, hroot]
    exact iff_of_true hk hspares

theorem spares_entry_iff {rel : List Str} {info : Nat} (hw : s.walking = some dir) :
    s.Spares (.entry rel info ans) ↔
      ((Fts.ReportsFile options (Fts.entry dir rel info) ∧ s.onEmptyDir = true ∨
        Fts.ReportsDir options (Fts.entry dir rel info) ∧ Fts.pathOf dir rel ∉ s.set) →
          (s.tree.view (tokens (Fts.pathOf dir rel))).join = none) ∧
      ¬ ((Fts.ReportsFile options (Fts.entry dir rel info) ∧ s.onEmptyDir = true) ∧
        Fts.ReportsDir options (Fts.entry dir rel info) ∧ Fts.pathOf dir rel ∉ s.set) := by
  have hputs : (∀ x ∈ s.puts (.entry rel info ans), (s.tree.view (tokens x.1)).join = none) ↔
      ((Fts.ReportsFile options (Fts.entry dir rel info) ∧ s.onEmptyDir = true ∨
        Fts.ReportsDir options (Fts.entry dir rel info) ∧ Fts.pathOf dir rel ∉ s.set) →
          (s.tree.view (tokens (Fts.pathOf dir rel))).join = none) := by
    simp only [FsWatch.puts, hw]
    split
    · rename_i hif
      simp [hif]
    · rename_i hif
      simp [hif]
  have hforgets : s.forgets (.entry rel info ans) = none := rfl
  have htwice : s.PutsTwice (.entry rel info ans) ↔
      (Fts.ReportsFile options (Fts.entry dir rel info) ∧ s.onEmptyDir = true) ∧
        Fts.ReportsDir options (Fts.entry dir rel info) ∧ Fts.pathOf dir rel ∉ s.set := by
    simp [PutsTwice, hw, and_assoc]
  rw [← hputs, ← htwice]
  exact ⟨fun hs => ⟨hs.puts, hs.once⟩, fun hs => ⟨hs.1, by simp [hforgets], hs.2⟩⟩

theorem Turn.entry {rel : List Str} {info : Nat} (h : s.ledger.Sound) (hk : s.Kept) (hplaced : Placed IsName s)
    (hw : s.walking = some dir) (hrel : ∀ n ∈ rel, IsName n) (hroot : s'.root = s.root)
    (hs : if Fts.ReportsDir options (Fts.entry dir rel info) then
        (s.reportFile (Fts.entry dir rel info)).addWatch (Fts.pathOf dir rel) ans = .ok s'
      else s' = s.reportFile (Fts.entry dir rel info)) : Turn s s' (s.Spares (.entry rel info ans)) := by
  have hpath : Fts.ReportsFile options (Fts.entry dir rel info) ∨ Fts.ReportsDir options (Fts.entry dir rel info) →
      tokens s.root <+: tokens (Fts.pathOf dir rel) :=
    fun hrep => (hplaced.entry_place hw hrel hrep).prefix_tokens .isName_class
  have hne : Fts.pathOf dir rel ≠ [] := by
    rcases List.eq_nil_or_concat rel with rfl | ⟨rel, n, rfl⟩
    · exact (hplaced.walking dir hw).1
    · rw [List.concat_eq_append, Fts.pathOf_concat, Fts.childPath_eq_trim]
      simp
  rw [spares_entry_iff hw]
  by_cases hf : Fts.ReportsFile options (Fts.entry dir rel info) ∧ s.onEmptyDir = true
  · have hput : (s.reportFile (Fts.entry dir rel info)).ledger = s.ledger.put (tokens (Fts.pathOf dir rel)) := by
      unfold reportFile
      rw [if_pos hf]
      exact ledger_addToTree (.inl hne)
    have hpre := hpath (.inl hf.1)
    split at hs
    · rename_i hd
      rcases addWatch_cases hs with ⟨hset, rfl⟩ | ⟨hset, h0, -, rfl⟩
      · rw [set_reportFile] at hset
        exact .put h hk hroot hput hpre (by simp [hf, hset])
      · -- the second one is put over the first
        rw [set_reportFile] at hset
        have htwice : ((s.reportFile (Fts.entry dir rel info)).install (Fts.pathOf dir rel) ans).ledger =
            (s.ledger.put (tokens (Fts.pathOf dir rel))).put (tokens (Fts.pathOf dir rel)) := by
          rw [ledger_install h0, hput]
        constructor
        · rw [htwice]
          exact h.put.put
        · rw [Kept, htwice, hroot]
          exact iff_of_false (Ledger.not_kept_put_put h hpre) fun hs => hs.2 ⟨hf, hd, hset⟩
    · rename_i hd
      subst hs
      exact .put h hk hroot hput hpre (by simp [hf, hd])
  · have hfile : s.reportFile (Fts.entry dir rel info) = s := if_neg hf
    rw [hfile] at hs
    split at hs
    · rename_i hd
      rcases addWatch_cases hs with ⟨hset, rfl⟩ | ⟨hset, h0, -, rfl⟩
      · exact .same h hk rfl rfl (by simp [hf, hset])
      · refine .put h hk hroot (ledger_install h0) (hpath (.inr hd)) ?_
        simp [hf, hd, hset]
    · rename_i hd
      subst hs
      exact .same h hk rfl rfl (by simp [hf, hd])

theorem spares_event_iff {event : InotifyEvent} {puts : Option (Str × Bool)} {forgets : Option Str}
    (hputs : s.puts (.event fd event ans) = puts) (hforgets : s.forgets (.event fd event ans) = forgets) :
    s.Spares (.event fd event ans) ↔ (∀ x ∈ puts, (s.tree.view (tokens x.1)).join = none) ∧
      ∀ path ∈ forgets, ∀ x ∈ (s.tree.drop path).2, x.2 = none := by
  subst hputs hforgets
  exact ⟨fun hs => ⟨hs.puts, hs.drops⟩, fun hs => ⟨hs.1, hs.2, id⟩⟩

theorem Turn.create {event : InotifyEvent} (h : s.ledger.Sound) (hk : s.Kept) (hplaced : Placed IsName s)
    (hr : Readable s fd event) (hb : event.isDir = true ∧ event.bit = .create)
    (hp : s.getFullPath fd event = .ok path) (hs : s.addWatch path ans = .ok s') :
    Turn s { s' with walking := some path } (s.Spares (.event fd event ans)) := by
  have hputs : s.puts (.event fd event ans) = if path ∈ s.set then none else some (path, true) := by
    simp only [FsWatch.puts, hp, if_pos hb]
  have hforgets : s.forgets (.event fd event ans) = none := by simp [FsWatch.forgets, hb]
  rw [spares_event_iff hputs hforgets]
  rcases addWatch_cases hs with ⟨hset, rfl⟩ | ⟨hset, h0, -, rfl⟩
  · exact .same h hk rfl rfl (by simp [hset])
  · have hplace : Place IsName s.root path := hplaced.fullPath .isName_class (hr.isName (by simp [hb])) hp
    refine .put h hk root_install (ledger_install h0) (hplace.prefix_tokens .isName_class) ?_
    simp [hset]

theorem Turn.fileDelete {event : InotifyEvent} (h : s.ledger.Sound) (hk : s.Kept)
    (hb : event.isDir = false ∧ event.bit = .delete) (hp : s.getFullPath fd event = .ok path)
    (hcb : s.onEmptyDir = true) : Turn s (s.removeFromTree path) (s.Spares (.event fd event ans)) := by
  have hputs : s.puts (.event fd event ans) = none := by simp [FsWatch.puts, hp, hb]
  have hforgets : s.forgets (.event fd event ans) = some path := by
    simp [FsWatch.forgets, hp, hb, hcb, Except.toOption]
  rw [spares_event_iff hputs hforgets]
  refine .clear h hk rfl ledger_removeFromTree ?_
  constructor
  · intro hnone
    refine ⟨by simp, fun path' hpath' x hx => ?_⟩
    obtain rfl := Option.some.inj hpath'
    obtain ⟨rel, hv⟩ := mem_data_calls.1 (List.mem_map_of_mem hx)
    have := held_eq_none_iff.1 (hnone _ (List.prefix_append (tokens path) rel))
    rwa [hv] at this
  · rintro ⟨-, hall⟩ p ⟨rel, rfl⟩
    rw [held_eq_none_iff]
    cases hv : s.tree.view (tokens path ++ rel) with
    | none => rfl
    | some data =>
      obtain ⟨x, hx, rfl⟩ := List.mem_map.1 (mem_data_calls.2 ⟨rel, hv⟩)
      exact hall path rfl x hx

theorem Turn.effect (h : s.ledger.Sound) (hk : s.Kept) (hplaced : Placed IsName s) (he : Effect s a s' out) :
    Turn s s' (s.Spares a) := by
  have hroot := he.root_eq
  cases he with
  | @entry dir rel info ans _ hw hrel hs => exact .entry h hk hplaced hw hrel hroot hs
  | walkDone hw => exact .same h hk rfl rfl ⟨by simp [FsWatch.puts], by simp [FsWatch.forgets], id⟩
  | create hr hb hp hs => exact .create h hk hplaced hr hb hp hs
  | @modify fd event ans path out hr hb hp hout =>
    have hputs : s.puts (.event fd event ans) = if s.onEmptyDir = true then some ([], false) else none := by
      simp [FsWatch.puts, hp, hb]
    have hforgets : s.forgets (.event fd event ans) = none := by
      have hbit : event.bit ≠ .delete := by rcases hb.2 with hb | hb <;> simp [hb]
      simp [FsWatch.forgets, hbit]
    rw [spares_event_iff hputs hforgets]
    by_cases hcb : s.onEmptyDir = true
    · rw [if_pos hcb] at hroot ⊢
      refine .clear h hk hroot ledger_addToTree_null ?_
      simp [hcb, held_eq_none_iff]
    · rw [if_neg hcb]
      exact .same h hk rfl rfl (by simp [hcb])
  | fileDelete hr hb hp hcb hc => exact .fileDelete h hk hb hp hcb
  | @dirDelete fd event ans path _ out hr hb hp hs hc =>
    have hputs : s.puts (.event fd event ans) = none := by simp [FsWatch.puts, hp, hb]
    have hforgets : s.forgets (.event fd event ans) = none := by simp [FsWatch.forgets, hb]
    have hlists := lists_addrs h path
    rw [spares_event_iff hputs hforgets]
    constructor
    · rw [ledger_removeWatch hs]
      exact h.delete hlists
    · rw [Kept, ledger_removeWatch hs, hroot]
      exact iff_of_true (hk.delete hlists) (by simp)
  | @ignored fd event ans hr hb =>
    have hforgets : s.forgets (.event fd event ans) = none := by
      simp only [FsWatch.forgets]
      rcases hb with hm | ⟨-, hdel, -⟩
      · rw [getFullPath, AList.lookup_eq_none.2 hm]
        split <;> rfl
      · refine if_neg fun hc => ?_
        rw [hdel hc.1 hc.2.1] at hc
        cases hc.2.2
    rw [spares_event_iff (puts_of_ignored hb) hforgets]
    exact .same h hk rfl rfl (by simp)

/-! ### Runs -/

/-- A step that leaves every node below the root with data, and loses no `TreeNode`. -/
structure Owns (s : FsWatch) (a : Action) : Prop where
  backed : s.Backed a
  spares : s.Spares a

instance (s : FsWatch) (a : Action) : Decidable (s.Owns a) :=
  decidable_of_iff (s.Backed a ∧ s.Spares a) ⟨fun h => ⟨h.1, h.2⟩, fun h => ⟨h.backed, h.spares⟩⟩

structure Owned (s : FsWatch) : Prop where
  placed : Placed IsName s
  sound : s.ledger.Sound
  full : s.Full
  kept : s.Kept

theorem Owned.init {root : Str} {onNewFile onEmptyDir : Bool} {filters : Finset Str}
    (h : (new root onNewFile onEmptyDir filters).init ans = .ok s) : s.Owned := by
  obtain ⟨h0, he⟩ := init_cases h
  have hnew : (new root onNewFile onEmptyDir filters).ledger = .new (List Str) := by
    refine Ledger.ext' (fun p => held_eq_none_iff.2 ?_) rfl rfl
    by_cases hp : p = []
    · subst hp; rfl
    · rw [show (new root onNewFile onEmptyDir filters).tree = DirTree.new from rfl, view_new hp]
      rfl
  have hledger : s.ledger = (Ledger.new (List Str)).put (tokens root) := by
    rw [he, ← hnew]
    exact ledger_install h0
  obtain ⟨hplaced, hroot⟩ := Placed.init (N := IsName) h
  refine ⟨hplaced, ?_, full_init h, ?_⟩
  · rw [hledger]
    exact Ledger.Sound.new.put
  · rw [Kept, hledger, hroot]
    exact (Ledger.kept_put_iff Ledger.Sound.new Ledger.kept_new List.prefix_rfl).2 rfl

theorem eachState_ownedOnce_iff (root : Str) (onNewFile onEmptyDir : Bool) (filters : Finset Str)
    (ans : Answer) (s₀ : FsWatch) (tr : List (Action × FsWatch))
    (hinit : (new root onNewFile onEmptyDir filters).init ans = .ok s₀) (hrun : Run (Ok next) s₀ tr) :
    EachState OwnedOnce s₀ tr ↔ EachStep Owns s₀ tr := by
  refine Run.eachState_iff (I := Owned) ?_ ?_ ?_ (Owned.init hinit) hrun
  · exact fun s hI => (ownedOnce_iff hI.sound hI.placed).2 ⟨hI.full, hI.kept⟩
  · intro s a s' hI hc hs
    obtain ⟨out, he⟩ := next_effect hs
    obtain ⟨hsound, hkept⟩ := Turn.effect hI.sound hI.kept hI.placed he
    refine ⟨hI.placed.effect .isName_class he.isName he, hsound, ?_, hkept.2 hc.spares⟩
    exact ((he.treeEffect hI.placed).full_iff he.root_eq hI.full).2 hc.backed
  · intro s a s' hI hs hp
    obtain ⟨out, he⟩ := next_effect hs
    obtain ⟨hsound, hkept⟩ := Turn.effect hI.sound hI.kept hI.placed he
    have hplaced := hI.placed.effect .isName_class he.isName he
    obtain ⟨hfull, hkept'⟩ := (ownedOnce_iff hsound hplaced).1 hp
    exact ⟨((he.treeEffect hI.placed).full_iff he.root_eq hI.full).1 hfull, hkept.1 hkept'⟩

/-- `r/a` with a file is there before, and goes. -/
theorem ownedOnce_dir_delete :
    ∃ s₀ tr, (new "r".toList false true ∅).init ⟨3, 1, true⟩ = .ok s₀ ∧
      exec next s₀ [.entry ["a".toList] Fts.FTS_D ⟨5, 1, true⟩,
        .entry ["a".toList, "f".toList] Fts.FTS_F ⟨6, 1, true⟩, .walkDone,
        .event 3 ⟨.delete, true, "a".toList⟩ ⟨6, 1, true⟩] = .ok tr ∧ EachState OwnedOnce s₀ tr := by
  have hg : Gives ((new "r".toList false true ∅).init ⟨3, 1, true⟩) fun s₀ =>
      Goes next Owns (fun _ => True) s₀
        [.entry ["a".toList] Fts.FTS_D ⟨5, 1, true⟩,
          .entry ["a".toList, "f".toList] Fts.FTS_F ⟨6, 1, true⟩, .walkDone,
          .event 3 ⟨.delete, true, "a".toList⟩ ⟨6, 1, true⟩] := by
    decide
  obtain ⟨s₀, hinit, hgoes⟩ := hg.ok
  obtain ⟨tr, htr, hc, -⟩ := hgoes.exec
  exact ⟨s₀, tr, hinit, htr, (eachState_ownedOnce_iff _ _ _ _ _ s₀ tr hinit (Run.of_exec htr)).2 hc⟩

/-- The file `r/a` is there before, and is deleted: its `TreeNode` has the address 1. -/
theorem not_ownedOnce_file_delete :
    ∃ s₀ tr, (new "r".toList false true ∅).init ⟨3, 1, true⟩ = .ok s₀ ∧
      exec next s₀ [.entry ["a".toList] Fts.FTS_F ⟨5, 1, true⟩, .walkDone,
        .event 3 ⟨.delete, false, "a".toList⟩ ⟨5, 1, true⟩] = .ok tr ∧ ¬ EachState OwnedOnce s₀ tr := by
  have hg : Gives ((new "r".toList false true ∅).init ⟨3, 1, true⟩) fun s₀ =>
      Goes next (fun _ _ => True) (fun s => 1 < s.allocated ∧ Gives s.destroy fun s' => s'.deleted.count 1 = 0) s₀
        [.entry ["a".toList] Fts.FTS_F ⟨5, 1, true⟩, .walkDone,
          .event 3 ⟨.delete, false, "a".toList⟩ ⟨5, 1, true⟩] := by
    decide
  obtain ⟨s₀, hinit, hgoes⟩ := hg.ok
  obtain ⟨tr, htr, -, s, ⟨hlt, hcount⟩, hs⟩ := hgoes.exec
  obtain ⟨s₁, hs₁, hcount⟩ := hcount.ok
  refine ⟨s₀, tr, hinit, htr, fun h => ?_⟩
  obtain ⟨s', hs', hall⟩ := hs _ h
  obtain rfl := Except.ok.inj (hs₁.symm.trans hs')
  rw [hall 1 hlt] at hcount
  cases hcount

end ChCppUtils.FsWatch
