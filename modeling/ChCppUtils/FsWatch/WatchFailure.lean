import ChCppUtils.FsWatch.Steps
import ChCppUtils.Lib.Runs

/-!
# Watches that the kernel refuses

`addWatch` prints that `inotify_add_watch` or `epoll_ctl` has failed, and goes on: the directory is entered
in `set`, `map` and the tree as if it were watched, and the descriptor stays open. Since the directory is in
`set`, no later `addWatch` of it calls the kernel (`addWatch_fails`).
-/

namespace ChCppUtils.FsWatch

open Runs DirTree

/-- `addWatch(dir, true)` calls the kernel and gets a descriptor, and one of the two calls after that fails. -/
structure Fails (s : FsWatch) (dir : Str) (ans : Answer) : Prop where
  unwatched : dir ∉ s.set
  opened : 0 ≤ ans.fd ∧ ans.fd ∉ s.descriptors
  failed : ans.wd = -1 ∨ ans.epoll = false

/-- The containers and the open descriptors are as they were. -/
structure Untouched (s s' : FsWatch) : Prop where
  set : s'.set = s.set
  map : s'.map = s.map
  tree : s'.tree = s.tree
  descriptors : s'.descriptors = s.descriptors

/-- All that `addWatch` enters for a directory is there. -/
structure Entered (s : FsWatch) (dir : Str) (fd : Int) : Prop where
  set : dir ∈ s.set
  map : fd ∈ s.map
  tree : ∃ node : TreeNode, s.tree.view (tokens dir) = some (some node) ∧ node.path = dir ∧ node.fd = fd
  descriptors : fd ∈ s.descriptors

instance (s : FsWatch) (dir : Str) (ans : Answer) : Decidable (s.Fails dir ans) :=
  decidable_of_iff (dir ∉ s.set ∧ (0 ≤ ans.fd ∧ ans.fd ∉ s.descriptors) ∧ (ans.wd = -1 ∨ ans.epoll = false))
    ⟨fun h => ⟨h.1, h.2.1, h.2.2⟩, fun h => ⟨h.unwatched, h.opened, h.failed⟩⟩

variable {s s' : FsWatch} {dir : Str} {ans : Answer}

theorem entered_install (hfd : 0 ≤ ans.fd) : (s.install dir ans).Entered dir ans.fd := by
  obtain ⟨node, htree, hpath, hnode⟩ : ∃ node : TreeNode,
    (s.install dir ans).tree = s.tree.insert dir (some node) ∧ node.path = dir ∧ node.fd = ans.fd := tree_install hfd
  refine ⟨?_, ?_, ⟨node, ?_, hpath, hnode⟩, ?_⟩
  · rw [set_install]
    exact Finset.mem_insert_self dir s.set
  · rw [map_install]
    exact UnorderedMap.mem_emplace s.map ans.fd dir
  · rw [htree, view_insert, PathMap.insert_self]
  · rw [descriptors_install]
    exact (AList.mem_insert _).2 (.inl rfl)

theorem Entered.addWatch_eq {fd : Int} (h : s.Entered dir fd) (ans : Answer) : s.addWatch dir ans = .ok s :=
  if_pos h.set

/-- Where a call fails, everything is entered nevertheless, and the directory is never tried again. -/
theorem addWatch_fails (h : s.Fails dir ans) : ∃ s', s.addWatch dir ans = .ok s' ∧ s'.Entered dir ans.fd ∧
    ¬ Untouched s s' ∧ ∀ ans', s'.addWatch dir ans' = .ok s' := by
  obtain ⟨hfd, hfree⟩ := h.opened
  have hentered : (s.install dir ans).Entered dir ans.fd := entered_install hfd
  refine ⟨s.install dir ans, addWatch_eq_install h.unwatched hfd hfree, hentered, fun hu => ?_, hentered.addWatch_eq⟩
  exact h.unwatched (hu.set ▸ hentered.set)

/-- `r/a` is gone before `inotify_add_watch` is called for it. -/
theorem addWatch_fails_gone : ∃ s₀ s, (new "r".toList false false ∅).init ⟨3, 1, true⟩ = .ok s₀ ∧
    Reach (Ok next) s₀ s ∧ ∃ s', s.addWatch "r/a".toList ⟨5, -1, true⟩ = .ok s' ∧ s'.Entered "r/a".toList 5 ∧
      ¬ Untouched s s' ∧ ∀ ans', s'.addWatch "r/a".toList ans' = .ok s' := by
  have hg : Gives ((new "r".toList false false ∅).init ⟨3, 1, true⟩) fun s₀ =>
      Goes next (fun _ _ => True) (fun s => s.Fails "r/a".toList ⟨5, -1, true⟩) s₀ [.walkDone] := by
    decide
  obtain ⟨s₀, hinit, hgoes⟩ := hg.ok
  obtain ⟨s, hr, hf⟩ := hgoes.reach_ok
  exact ⟨s₀, s, hinit, hr, addWatch_fails hf⟩

/-- `epoll_ctl` fails for `r/a`, which is in `set` afterwards. -/
theorem not_untouched_epoll : ∃ s₀ s s', (new "r".toList false false ∅).init ⟨3, 1, true⟩ = .ok s₀ ∧
    Reach (Ok next) s₀ s ∧ s.Fails "r/a".toList ⟨5, 1, false⟩ ∧
      s.addWatch "r/a".toList ⟨5, 1, false⟩ = .ok s' ∧ ¬ Untouched s s' := by
  have hg : Gives ((new "r".toList false false ∅).init ⟨3, 1, true⟩) fun s₀ =>
      Goes next (fun _ _ => True) (fun s => s.Fails "r/a".toList ⟨5, 1, false⟩ ∧
        Gives (s.addWatch "r/a".toList ⟨5, 1, false⟩) fun s' => "r/a".toList ∈ s'.set) s₀ [.walkDone] := by
    decide
  obtain ⟨s₀, hinit, hgoes⟩ := hg.ok
  obtain ⟨s, hr, hf, hgives⟩ := hgoes.reach_ok
  obtain ⟨s', hs', hset⟩ := hgives.ok
  exact ⟨s₀, s, s', hinit, hr, hf, hs', fun hu => hf.unwatched (hu.set ▸ hset)⟩

end ChCppUtils.FsWatch
