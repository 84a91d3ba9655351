import ChCppUtils.DirTree.Drop
import ChCppUtils.FsWatch.Steps
import ChCppUtils.Lib.Runs

/-!
# The watched directories

`set` has the directories that are watched, under the paths given to `addWatch`; the tree has them
under their tokens. When a directory goes, the drop of its subtree erases from `set` the paths that
the tree puts together from its keys. These are the paths in `set` when they are spelled with a
leading dot and without empty pieces (`Orderly`); then `set` and the tree agree in every run
(`registryCoherent_of_reach`).
-/

namespace ChCppUtils.FsWatch

open Runs DirTree

/-- The node that `d` addresses carries a `TreeNode` for `d` whose descriptor is open. -/
def Registered (s : FsWatch) (d : Str) : Prop :=
  ∃ node : TreeNode, s.tree.view (tokens d) = some (some node) ∧ node.path = d ∧ node.fd ∈ s.descriptors

def RegistryCoherent (s : FsWatch) : Prop := ∀ d, d ∈ s.set ↔ s.Registered d

/-- The node at these tokens carries a `TreeNode` with an open descriptor. -/
def Carries (s : FsWatch) (ts : List Str) : Prop :=
  ∃ node ∈ s.tree.view ts, ∃ n ∈ node, n.fd ∈ s.descriptors

/-- The steps of directory events and walks. -/
def Action.OfDirectories : Action → Prop
  | .event _ e _ => e.isDir = true
  | .entry .. | .walkDone => True

/-- The path of a directory that goes, put under `.`, and the watched paths at or below its node are
their tokens with `/` between them. -/
def Erasable (s : FsWatch) (path : Str) : Prop :=
  Canonical (DirTree.normalize path) ∧ '/' ∈ path ∧ ∀ d ∈ s.set, tokens path <+: tokens d → Canonical d

/-- A new watch, or a file found by a walk, does not take the node of an open watch, and a directory
with a node that goes can be erased. -/
def Orderly (s : FsWatch) : Action → Prop
  | .entry rel info _ => ∀ dir ∈ s.walking,
    (Fts.ReportsFile options (Fts.entry dir rel info) ∧ s.onEmptyDir = true ∨
        Fts.ReportsDir options (Fts.entry dir rel info) ∧ Fts.pathOf dir rel ∉ s.set) →
      ¬ s.Carries (tokens (Fts.pathOf dir rel))
  | .walkDone => True
  | .event fd event _ => ∀ path ∈ (s.getFullPath fd event).toOption,
    (event.bit = .create → path ∉ s.set → ¬ s.Carries (tokens path)) ∧
      (event.bit = .delete → (s.tree.view (tokens path)).isSome → s.Erasable path)

instance (s : FsWatch) (ts : List Str) : Decidable (s.Carries ts) :=
  inferInstanceAs (Decidable (∃ node ∈ s.tree.view ts, ∃ n ∈ node, n.fd ∈ s.descriptors))

instance (s : FsWatch) (path : Str) : Decidable (s.Erasable path) :=
  inferInstanceAs (Decidable (_ ∧ _ ∧ ∀ d ∈ s.set, _ → _))

instance : (a : Action) → Decidable a.OfDirectories
  | .entry .. | .walkDone => inferInstanceAs (Decidable True)
  | .event _ e _ => inferInstanceAs (Decidable (e.isDir = true))

instance (s : FsWatch) : (a : Action) → Decidable (s.Orderly a)
  | .entry .. => inferInstanceAs (Decidable (∀ dir ∈ s.walking, _ → _))
  | .walkDone => inferInstanceAs (Decidable True)
  | .event fd event _ =>
    inferInstanceAs (Decidable (∀ path ∈ (s.getFullPath fd event).toOption, (_ → _ → _) ∧ (_ → _ → _)))

/-- What goes with `RegistryCoherent`: a `TreeNode` stands at the tokens of its path, and has no
descriptor or an open one of its own. -/
structure Registry (s : FsWatch) : Prop where
  coherent : s.RegistryCoherent
  placed : ∀ p node, s.tree.view p = some (some node) → tokens node.path = p
  owned : ∀ p node, s.tree.view p = some (some node) →
    node.fd = -1 ∨ ∃ d, s.descriptors.lookup node.fd = some d ∧ d.dir = node.path
  nonneg : ∀ fd ∈ s.descriptors, 0 ≤ fd

variable {s s' : FsWatch} {a : Action} {out : List Notice} {dir path : Str} {ans : Answer}

theorem view_insert_some {data : Option TreeNode} {p : List Str} {n : TreeNode} :
    (s.tree.insert path data).view p = some (some n) ↔
      p = tokens path ∧ data = some n ∨ p ≠ tokens path ∧ s.tree.view p = some (some n) := by
  rw [view_insert]
  unfold PathMap.insert
  by_cases hp : p = tokens path
  · simp [hp]
  · rw [if_neg hp]
    by_cases hpre : p <+: tokens path
    · rw [if_pos hpre]
      cases hv : s.tree.view p with
      | none => simp [hp]
      | some d => simp [hp]
    · rw [if_neg hpre]; simp [hp]

/-! ### The operations -/

theorem Registry.addFile (h : s.Registry) (hc : ¬ s.Carries (tokens path)) :
    (s.addToTree path (-1) (-1)).Registry := by
  obtain ⟨data, htree, hdata, -⟩ := s.tree_addToTree path (-1) (-1)
  have hclosed : ∀ n, data = some n → n.fd ∉ s.descriptors := by
    intro n hn hm
    have := h.nonneg _ hm
    rw [(hdata n hn).2] at this
    omega
  refine ⟨?_, ?_, ?_, ?_⟩
  · intro d
    rw [set_addToTree, h.coherent d, Registered, Registered, htree, descriptors_addToTree]
    simp only [view_insert_some]
    constructor
    · rintro ⟨n, hv, hn, hn'⟩
      have hp : tokens d ≠ tokens path := by
        intro he
        rw [he] at hv
        exact hc ⟨_, hv, n, rfl, hn'⟩
      exact ⟨n, .inr ⟨hp, hv⟩, hn, hn'⟩
    · rintro ⟨n, ⟨-, hd⟩ | ⟨-, hv⟩, hn, hn'⟩
      · exact absurd hn' (hclosed n hd)
      · exact ⟨n, hv, hn, hn'⟩
  · intro p n hv
    rw [htree, view_insert_some] at hv
    rcases hv with ⟨rfl, hd⟩ | ⟨-, hv⟩
    · rw [(hdata n hd).1]
    · exact h.placed p n hv
  · intro p n hv
    rw [htree, view_insert_some] at hv
    rw [descriptors_addToTree]
    rcases hv with ⟨-, hd⟩ | ⟨-, hv⟩
    · exact .inl (hdata n hd).2
    · exact h.owned p n hv
  · rw [descriptors_addToTree]
    exact h.nonneg

theorem Registry.not_carries_addFile (h : s.Registry) :
    ¬ (s.addToTree path (-1) (-1)).Carries (tokens path) := by
  obtain ⟨data, htree, hdata, -⟩ := s.tree_addToTree path (-1) (-1)
  rintro ⟨node, hv, n, rfl, hfd⟩
  rw [descriptors_addToTree] at hfd
  rw [htree] at hv
  rcases view_insert_some.1 hv with ⟨-, hd⟩ | ⟨hp, -⟩
  · have := h.nonneg _ hfd
    rw [(hdata n hd).2] at this
    omega
  · exact hp rfl

theorem Registry.install (h : s.Registry) (h0 : 0 ≤ ans.fd) (hfd : ans.fd ∉ s.descriptors)
    (hc : ¬ s.Carries (tokens dir)) : (s.install dir ans).Registry := by
  obtain ⟨node, htree, hpath, hnfd⟩ := s.tree_install h0
  -- the descriptor of a node that is there is not the new one
  have hold : ∀ p n, s.tree.view p = some (some n) → n.fd ≠ ans.fd := by
    intro p n hv he
    rcases h.owned p n hv with hneg | ⟨d, hd, -⟩
    · omega
    · exact hfd (he ▸ UnorderedMap.mem_of_lookup hd)
  refine ⟨?_, ?_, ?_, ?_⟩
  · intro d
    rw [set_install, Finset.mem_insert, h.coherent d, Registered, Registered, htree, descriptors_install]
    simp only [view_insert_some, AList.mem_insert]
    constructor
    · rintro (rfl | ⟨n, hv, hn, hn'⟩)
      · exact ⟨node, .inl ⟨rfl, rfl⟩, hpath, .inl hnfd⟩
      · have hp : tokens d ≠ tokens dir := by
          intro he
          rw [he] at hv
          exact hc ⟨_, hv, n, rfl, hn'⟩
        exact ⟨n, .inr ⟨hp, hv⟩, hn, .inr hn'⟩
    · rintro ⟨n, ⟨-, hd⟩ | ⟨-, hv⟩, hn, hn'⟩
      · obtain rfl := Option.some.inj hd
        exact .inl (hn ▸ hpath)
      · exact .inr ⟨n, hv, hn, hn'.resolve_left (hold _ n hv)⟩
  · intro p n hv
    rw [htree, view_insert_some] at hv
    rcases hv with ⟨rfl, hd⟩ | ⟨-, hv⟩
    · obtain rfl := Option.some.inj hd
      rw [hpath]
    · exact h.placed p n hv
  · intro p n hv
    rw [htree, view_insert_some] at hv
    rw [descriptors_install]
    rcases hv with ⟨-, hd⟩ | ⟨-, hv⟩
    · obtain rfl := Option.some.inj hd
      exact .inr ⟨_, by rw [hnfd, AList.lookup_insert], hpath.symm⟩
    · rw [AList.lookup_insert_ne (hold p n hv)]
      exact h.owned p n hv
  · intro fd hm
    rw [descriptors_install, AList.mem_insert] at hm
    rcases hm with rfl | hm
    · exact h0
    · exact h.nonneg fd hm

theorem Registry.eq_of_fd {p q : List Str} {n m : TreeNode} (h : s.Registry)
    (hp : s.tree.view p = some (some n)) (hq : s.tree.view q = some (some m)) (he : n.fd = m.fd)
    (hopen : n.fd ∈ s.descriptors) : p = q := by
  have h0 := h.nonneg _ hopen
  rcases h.owned p n hp with hneg | ⟨d, hd, hdir⟩
  · omega
  rcases h.owned q m hq with hneg | ⟨d', hd', hdir'⟩
  · omega
  rw [he, hd'] at hd
  obtain rfl := Option.some.inj hd
  rw [← h.placed p n hp, ← h.placed q m hq, ← hdir, hdir']

theorem Registry.congr (h : s.Registry) (hset : ∀ d, d ∈ s'.set ↔ d ∈ s.set) (htree : s'.tree = s.tree)
    (hds : ∀ fd, s'.descriptors.lookup fd = s.descriptors.lookup fd) : s'.Registry := by
  have hmem : ∀ fd, fd ∈ s'.descriptors ↔ fd ∈ s.descriptors := by
    intro fd
    rw [← AList.lookup_isSome, hds, AList.lookup_isSome]
  refine ⟨?_, ?_, ?_, ?_⟩
  · intro d
    rw [hset, h.coherent d, Registered, Registered, htree]
    simp only [hmem]
  · rw [htree]
    exact h.placed
  · intro p n hv
    rw [htree] at hv
    rw [hds]
    exact h.owned p n hv
  · intro fd hm
    exact h.nonneg fd ((hmem fd).1 hm)

/-- What a drop closes belongs to the nodes of the subtree, and so to no other. -/
theorem Registry.lookup_closed {p : List Str} {n : TreeNode} (h : s.Registry)
    (hcl : Closed (s.tree.drop path).2 s s')
    (hcalls : ∀ x ∈ (s.tree.drop path).2, ∃ rel, s.tree.view (tokens path ++ rel) = some x.2)
    (hp : ¬ tokens path <+: p) (hv : s.tree.view p = some (some n)) :
    s'.descriptors.lookup n.fd = s.descriptors.lookup n.fd := by
  rw [hcl.descriptors]
  refine ite_eq_right_iff.2 ?_
  rintro ⟨x, hx, m, hm, hmfd⟩
  obtain ⟨rel, hv'⟩ := hcalls x hx
  rw [Option.mem_def.1 hm] at hv'
  by_cases hopen : n.fd ∈ s.descriptors
  · have hpq := h.eq_of_fd hv hv' hmfd.symm hopen
    exact absurd ⟨rel, hpq.symm⟩ hp
  · exact (AList.lookup_eq_none.2 hopen).symm

theorem view_drop_some {p : List Str} {n : TreeNode} :
    (s.tree.drop path).1.view p = some (some n) ↔ ¬ tokens path <+: p ∧ s.tree.view p = some (some n) := by
  rw [view_drop]
  by_cases hp : tokens path <+: p
  · rw [PathMap.drop_below hp]
    simp [hp]
  · rw [PathMap.drop_not_below hp]
    simp [hp]

theorem Registry.called_iff {d : Str} (h : s.Registry) (hnonnull : ∀ x ∈ (s.tree.drop path).2, x.2 ≠ none)
    (hn : (s.tree.view (tokens path)).isSome) (he : s.Erasable path) (hd : d ∈ s.set) :
    (∃ x ∈ (s.tree.drop path).2, x.1 = d) ↔ tokens path <+: tokens d := by
  obtain ⟨hcan, hslash, hbelow⟩ := he
  constructor
  · -- what is erased is put together from the tokens of a node below
    rintro ⟨x, hx, hxd⟩
    obtain ⟨rel, data, hv, rfl⟩ := (mem_calls_of_canonical hcan hslash hn).1 hx
    obtain ⟨m, rfl⟩ := Option.ne_none_iff_exists'.1 (hnonnull _ hx)
    have htok : ∀ t ∈ rel, IsName t := by
      intro t ht
      refine isName_of_mem_tokens (show t ∈ tokens m.path from ?_)
      rw [h.placed _ m hv]
      exact List.mem_append_right _ ht
    have htoks : tokens (['/'].intercalate (tokens path ++ rel)) = tokens path ++ rel := tokens_intercalate htok
    rw [show ['/'].intercalate (tokens path ++ rel) = d from hxd] at htoks
    exact ⟨rel, htoks.symm⟩
  · -- a watched path below is spelled as it is put together
    rintro ⟨rel, hrel⟩
    obtain ⟨n, hv, -, -⟩ := (h.coherent d).1 hd
    have hspelled : d = ['/'].intercalate (tokens path ++ rel) := by
      rw [hrel]
      exact hbelow d hd ⟨rel, hrel⟩
    exact ⟨(d, some n), (mem_calls_of_canonical hcan hslash hn).2
      ⟨rel, some n, by rw [hrel]; exact hv, congrArg (·, some n) hspelled⟩, rfl⟩

theorem Registry.removeWatch_absent (h : s.Registry) (hs : s.removeWatch path = .ok s')
    (hn : s.tree.view (tokens path) = none) : s'.Registry := by
  obtain ⟨hcl, htree⟩ := removeWatch_cases hs
  rw [drop_of_none hn] at hcl htree
  refine h.congr ?_ htree ?_
  · intro d
    rw [hcl.set]
    simp
  · intro fd
    rw [hcl.descriptors]
    simp

/-- A directory goes that can be erased, if it has a node. -/
theorem Registry.removeWatch (h : s.Registry) (hs : s.removeWatch path = .ok s')
    (herase : (s.tree.view (tokens path)).isSome → s.Erasable path) : s'.Registry := by
  by_cases hn : (s.tree.view (tokens path)).isSome
  swap
  · exact h.removeWatch_absent hs (Option.not_isSome_iff_eq_none.1 hn)
  obtain ⟨hcl, htree⟩ := removeWatch_cases hs
  have he := herase hn
  have hcalls : ∀ x ∈ (s.tree.drop path).2, ∃ rel, s.tree.view (tokens path ++ rel) = some x.2 := by
    intro x hx
    obtain ⟨rel, data, hv, rfl⟩ := (mem_calls_of_canonical he.1 he.2.1 hn).1 hx
    exact ⟨rel, hv⟩
  have hopen : ∀ p n, ¬ tokens path <+: p → s.tree.view p = some (some n) →
      (n.fd ∈ s'.descriptors ↔ n.fd ∈ s.descriptors) := by
    intro p n hp hv
    rw [← AList.lookup_isSome, h.lookup_closed hcl hcalls hp hv, AList.lookup_isSome]
  have hcalled : ∀ d ∈ s.set, (∀ x ∈ (s.tree.drop path).2, x.1 ≠ d) ↔ ¬ tokens path <+: tokens d := by
    intro d hd
    rw [← h.called_iff hcl.nonnull hn he hd]
    exact ⟨fun hall ⟨x, hx, hxd⟩ => hall x hx hxd, fun hno x hx hxd => hno ⟨x, hx, hxd⟩⟩
  refine ⟨?_, ?_, ?_, ?_⟩
  · intro d
    rw [hcl.set, Registered, htree]
    simp only [view_drop_some]
    constructor
    · rintro ⟨hd, hx⟩
      obtain ⟨n, hv, hnp, hnfd⟩ := (h.coherent d).1 hd
      have hp := (hcalled d hd).1 hx
      exact ⟨n, ⟨hp, hv⟩, hnp, (hopen _ n hp hv).2 hnfd⟩
    · rintro ⟨n, ⟨hp, hv⟩, hnp, hnfd⟩
      have hd : d ∈ s.set := (h.coherent d).2 ⟨n, hv, hnp, (hopen _ n hp hv).1 hnfd⟩
      exact ⟨hd, (hcalled d hd).2 hp⟩
  · intro p n hv
    rw [htree, view_drop_some] at hv
    exact h.placed p n hv.2
  · intro p n hv
    rw [htree, view_drop_some] at hv
    rw [h.lookup_closed hcl hcalls hv.1 hv.2]
    exact h.owned p n hv.2
  · intro fd hm
    obtain ⟨d, hd⟩ := UnorderedMap.exists_lookup hm
    exact h.nonneg fd (UnorderedMap.mem_of_lookup (hcl.lookup hd))

/-! ### Runs -/

theorem Registry.addWatch (h : s.Registry) (hs : s.addWatch dir ans = .ok s')
    (hc : dir ∉ s.set → ¬ s.Carries (tokens dir)) : s'.Registry := by
  rcases addWatch_cases hs with ⟨-, rfl⟩ | ⟨hd, h0, hfd, rfl⟩
  · exact h
  · exact h.install h0 hfd (hc hd)

theorem Registry.entry {node : Fts.FTSENT} (h : s.Registry)
    (hc : Fts.ReportsFile options node ∧ s.onEmptyDir = true ∨
      Fts.ReportsDir options node ∧ node.fts_path ∉ s.set → ¬ s.Carries (tokens node.fts_path))
    (hs : if Fts.ReportsDir options node then (s.reportFile node).addWatch node.fts_path ans = .ok s'
      else s' = s.reportFile node) : s'.Registry := by
  have hfile : (s.reportFile node).Registry := by
    unfold reportFile
    split
    · rename_i hf; exact h.addFile (hc (.inl hf))
    · exact h
  split at hs
  · rename_i hd
    refine hfile.addWatch hs fun hset => ?_
    rw [set_reportFile] at hset
    have hold := hc (.inr ⟨hd, hset⟩)
    unfold reportFile
    split
    · exact h.not_carries_addFile
    · exact hold
  · exact hs ▸ hfile

theorem Registry.next (h : s.Registry) (hdir : a.OfDirectories) (ha : s.Orderly a)
    (hnext : s.next a = .ok s') : s'.Registry := by
  obtain ⟨out, he⟩ := next_effect hnext
  cases he with
  | entry hw hrel hs => exact h.entry (ha _ hw) hs
  | walkDone hw => exact h.congr (fun _ => Iff.rfl) rfl fun _ => rfl
  | create hr hk hp hs =>
    exact (h.addWatch hs ((ha _ (by rw [hp]; rfl)).1 hk.2)).congr (fun _ => Iff.rfl) rfl fun _ => rfl
  | modify hr hk hp hout => simp [Action.OfDirectories, hk.1] at hdir
  | fileDelete hr hk hp hcb hc => simp [Action.OfDirectories, hk.1] at hdir
  | dirDelete hr hk hp hs hc => exact h.removeWatch hs ((ha _ (by rw [hp]; rfl)).2 hk.2)
  | ignored hr hk => exact h

theorem Registry.init {root : Str} {onNewFile onEmptyDir : Bool} {filters : Finset Str}
    (h : (new root onNewFile onEmptyDir filters).init ans = .ok s) : s.Registry := by
  obtain ⟨h0, rfl⟩ := init_cases h
  have hview : ∀ p node, (new root onNewFile onEmptyDir filters).tree.view p ≠ some (some node) := by
    intro p node hv
    cases p with
    | nil => cases hv
    | cons t ts => rw [show (new root onNewFile onEmptyDir filters).tree = DirTree.new from rfl,
        view_new (List.cons_ne_nil _ _)] at hv; cases hv
  have hnew : (new root onNewFile onEmptyDir filters).Registry := by
    refine ⟨fun d => ⟨fun hd => absurd hd (Finset.notMem_empty d), ?_⟩, fun p n hv => absurd hv (hview p n),
      fun p n hv => absurd hv (hview p n), fun fd hm => absurd hm (AList.notMem_empty fd)⟩
    rintro ⟨node, hv, -⟩
    exact absurd hv (hview _ node)
  refine (hnew.install h0 (AList.notMem_empty _) ?_).congr (fun _ => Iff.rfl) rfl fun _ => rfl
  rintro ⟨d, hd, n, rfl, -⟩
  exact hview _ n hd

end ChCppUtils.FsWatch
