import ChCppUtils.DirTree.Tree

/-!
# The tree is a map over token lists

A history of inserts and drops on a fresh tree, read through `tokens`, is a history of a `PathMap`;
the tree shows that map after it. Only the root is extra: it is there from the start and nothing
removes it.
-/

namespace ChCppUtils.DirTree

open PathMap (ofOps)

variable {D : Type}

inductive Op (D : Type) where
  | insert (key : Str) (data : Option D)
  | drop (key : Str)

namespace Op

def apply (t : DirTree D) : Op D → DirTree D
  | .insert key data => t.insert key data
  | .drop key => (t.drop key).1

/-- The operation on token lists that a call stands for. -/
def abs : Op D → PathMap.Op Str (Option D)
  | .insert key data => .insert (tokens key) data
  | .drop key => .drop (tokens key)

end Op

/-- The tree after the calls `ops`, oldest first, on a fresh one. -/
def run (ops : List (Op D)) : DirTree D := ops.foldl Op.apply new

/-- The abstract map after a history that starts with no node. -/
def absRun (ops : List (PathMap.Op Str (Option D))) : PathMap Str (Option D) := ofOps none (fun _ => none) ops

theorem run_append_singleton (ops : List (Op D)) (o : Op D) : run (ops ++ [o]) = o.apply (run ops) := by
  simp [run]

theorem view_apply_congr {t : DirTree D} {m : PathMap Str (Option D)} (h : ∀ p, p ≠ [] → t.view p = m p)
    (o : Op D) {p : List Str} (hp : p ≠ []) : (o.apply t).view p = o.abs.apply none m p := by
  cases o with
  | insert key data =>
    show (t.insert key data).view p = PathMap.insert none (tokens key) data m p
    rw [view_insert]
    simp only [PathMap.insert, h p hp]
  | drop key =>
    show (t.drop key).1.view p = PathMap.drop (tokens key) m p
    rw [view_drop]
    simp only [PathMap.drop, h p hp]

theorem view_run (ops : List (Op D)) {p : List Str} (hp : p ≠ []) :
    (run ops).view p = absRun (ops.map Op.abs) p := by
  induction ops using List.reverseRecOn generalizing p with
  | nil => exact view_new hp
  | append_singleton ops o ih =>
    rw [run_append_singleton, List.map_append, List.map_singleton, absRun, PathMap.ofOps_concat]
    exact view_apply_congr (fun p hp => ih hp) o hp

/-- The root node is there from the start and never gets data. -/
theorem view_run_nil (ops : List (Op D)) : (run ops).view [] = some none := by
  induction ops using List.reverseRecOn with
  | nil => rfl
  | append_singleton ops o ih =>
    rw [run_append_singleton]
    cases o with
    | insert key data =>
      show ((run ops).insert key data).view [] = some none
      rw [view_insert, PathMap.insert_of_some (tokens_ne_nil key).symm ih]
    | drop key =>
      show ((run ops).drop key).1.view [] = some none
      rw [view_drop, PathMap.drop_not_below (by simp [tokens_ne_nil key]), ih]

theorem tokens_dropLast_append_ne_nil (key s : Str) : (tokens key).dropLast ++ [s] ≠ [] := by
  simp

/-- How a tree stands to the history of token-list operations it came from. -/
structure Refines (t : DirTree D) (ops : List (PathMap.Op Str (Option D))) : Prop where
  view : ∀ p, p ≠ [] → t.view p = absRun ops p
  /-- The nodes: some insert went to the path or below it, and no later drop took it away. -/
  nodes : ∀ p, p ≠ [] → ((t.view p).isSome ↔
    ∃ pre q d post, ops = pre ++ .insert q d :: post ∧ p <+: q ∧ ∀ o ∈ post, ¬ o.Drops p)
  prefixes : t.view.PrefixClosed
  /-- The data: that of the last insert to the path since the node was created, else null. -/
  data : ∀ p d, p ≠ [] → t.view p = some d →
    (∃ pre post, ops = pre ++ .insert p d :: post ∧ ∀ o ∈ post, ¬ o.Sets p) ∨
      (d = none ∧ ∀ pre e post, ops = pre ++ .insert p e :: post → ∃ o ∈ post, o.Drops p)
  search : ∀ key cbk, t.search key cbk = lookupWild cbk (tokens key) (absRun ops)
  drop_absent : ∀ key, absRun ops (tokens key) = none → t.drop key = (t, [])
  insert_frame : ∀ key d p, p ≠ tokens key → (t.view p).isSome ∨ ¬ p <+: tokens key →
    (t.insert key d).view p = t.view p
  drop_frame : ∀ key p, ¬ tokens key <+: p → (t.drop key).1.view p = t.view p

theorem run_refines (ops : List (Op D)) : Refines (run ops) (ops.map Op.abs) where
  view := fun p hp => view_run ops hp
  nodes := fun p hp => by
    rw [view_run ops hp]
    exact PathMap.ofOps_isSome rfl _
  prefixes := view_prefixClosed _
  data := fun p d hp h => by
    rw [view_run ops hp] at h
    exact PathMap.ofOps_eq_some rfl _ h
  search := fun key cbk => by
    have hstar := view_run ops (tokens_dropLast_append_ne_nil key ['*'])
    rw [search_eq, lookupWild, lookupWild, view_run ops (tokens_ne_nil key), hstar]
  drop_absent := fun key h => drop_of_none (by rw [view_run ops (tokens_ne_nil key), h])
  insert_frame := fun key d p hne h => by
    rw [view_insert]
    rcases h with h | h
    · obtain ⟨e, he⟩ := Option.isSome_iff_exists.1 h
      rw [PathMap.insert_of_some hne he, he]
    · exact PathMap.insert_not_above d _ h
  drop_frame := fun key p h => by
    rw [view_drop, PathMap.drop_not_below h]

end ChCppUtils.DirTree
