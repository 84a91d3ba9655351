import ChCppUtils.DirTree.Loops

/-!
# `DirTree` (dirtree.cpp)

The tree with its two invariants: children are filed under their own keys, and the children of the
root have keys that start with a dot, since `normalize` puts such a token first. So the root has no
child `*`, which is why the flag `found` of `search` is set whenever a wildcard child is met.
-/

namespace ChCppUtils

variable {D : Type}

/-! ### The callbacks of a drop -/

mutual

/-- `Node::dropChildren`: the calls `dropChildCbk(node, suffix)` it makes, in order. -/
def Node.dropChildren (suffix : Str) : Node D → List (Str × Option D)
  | .mk key data children =>
    children.dropEach (suffix ++ ['/'] ++ key) ++ [(suffix ++ ['/'] ++ key, data)]

def Children.dropEach (suffix : Str) : Children D → List (Str × Option D)
  | .nil => []
  | .cons _ node rest => node.dropChildren suffix ++ rest.dropEach suffix

end

/-- `class DirTree`; no operation reads the key and the data of the root node. -/
structure DirTree (D : Type) where
  root : Node D
  keyed : root.Keyed
  dotted : ∀ k, (root.getChild k).isSome → DirTree.char0 k = '.'

namespace DirTree

def new : DirTree D where
  root := Node.new ['r', 'o', 'o', 't']
  keyed := trivial
  dotted := fun _ h => by simp at h

/-- The tree as a map from token lists to data pointers; the root is the empty list. -/
def view (t : DirTree D) : PathMap Str (Option D) := t.root.view

/-- The key the loop of `insert` walks. -/
def insertKey (key : Str) : Str :=
  let key := normalize key
  if char0 key = '/' then key.drop 1 else key

theorem insertKey_eq (key : Str) : insertKey key = normalize key := by
  simp [insertKey, char0_normalize]

theorem getNextToken_normalize (key : Str) : getNextToken (normalize key) 0 ≠ [] := fun h =>
  tokens_ne_nil key (tokensFrom_nil h)

theorem view_singleton_isSome {node : Node D} {k : Str} :
    (node.view [k]).isSome = (node.getChild k).isSome := by
  rw [Node.view_cons]
  cases node.getChild k <;> rfl

def insert (t : DirTree D) (key : Str) (data : Option D) : DirTree D where
  root := insertLoop (insertKey key) data ((insertKey key).length + 1) 0 t.root
  keyed := (insertLoop_keyed data _ _ t.keyed).1
  dotted := fun k h => by
    obtain ⟨s, ts, hts⟩ := exists_tokens_eq_cons key
    rw [insertKey_eq, ← view_singleton_isSome, insertLoop_view data (.init _), PathMap.insert_isSome] at h
    rcases h with h | h
    · rw [show tokensFrom _ _ _ = ('.' :: s) :: ts from hts, List.cons_prefix_cons] at h
      rw [h.1]; rfl
    · exact t.dotted k (view_singleton_isSome ▸ h)

def search (t : DirTree D) (key : Str) (cbk : Str → Str → Bool) : Option D :=
  let key := normalize key
  searchLoop key cbk (key.length + 1) 0 false t.root

def hasChildren (t : DirTree D) (key : Str) : Res Bool :=
  let key := normalize key
  hasChildrenLoop key (key.length + 2) 0 (some t.root)

/-- `dropChildCbk`: the path handed to the caller's callback. -/
def dropPath (pre suffix : Str) : Str := Split.upToLast '/' pre ++ suffix

theorem dropLoop_view {t : DirTree D} {key : Str} {root sub : Node D}
    (h : dropLoop (normalize key) ((normalize key).length + 1) 0 t.root = some (root, sub)) :
    root.view = PathMap.drop (tokens key) t.view ∧ t.root.walk (tokens key) = some sub := by
  have hn := Fuel.init (normalize key)
  have ht := getNextToken_normalize key
  cases hw : t.root.walk (tokens key) with
  | none => rw [dropLoop_eq_none hn ht hw] at h; cases h
  | some sub' =>
    obtain ⟨root', hd, hv⟩ := dropLoop_eq_some hn ht t.keyed hw
    rw [hd] at h
    cases h
    exact ⟨hv, rfl⟩

/-- `drop(key, dropCbk)`: the tree after it, and the calls `dropCbk(path, data)` in order. -/
def drop (t : DirTree D) (key : Str) : DirTree D × List (Str × Option D) :=
  match h : dropLoop (normalize key) ((normalize key).length + 1) 0 t.root with
  | none => (t, [])
  | some (root, sub) =>
    ({ root := root
       keyed := (dropLoop_keyed _ _ t.keyed h).1
       dotted := fun k hk => by
        rw [← view_singleton_isSome, (dropLoop_view h).1, PathMap.drop_isSome] at hk
        exact t.dotted k (view_singleton_isSome ▸ hk.2) },
      (sub.dropChildren []).map fun (suffix, data) => (dropPath (normalize key) suffix, data))

/-! ### What each operation does -/

@[simp] theorem view_new {p : List Str} (hp : p ≠ []) : (new : DirTree D).view p = none :=
  DirTree.view_new_node hp

theorem view_insert (t : DirTree D) (key : Str) (data : Option D) :
    (t.insert key data).view = PathMap.insert none (tokens key) data t.view := by
  simp only [view, insert]
  rw [insertLoop_view data (.init _), insertKey_eq]
  rfl

theorem search_eq (t : DirTree D) (key : Str) (cbk : Str → Str → Bool) :
    t.search key cbk = lookupWild cbk (tokens key) t.view := by
  have hstar : t.root.getChild ['*'] = none := by
    cases h : t.root.getChild ['*'] with
    | none => rfl
    | some c => exact absurd (t.dotted _ (by rw [h]; rfl)) (by decide)
  exact searchLoop_eq cbk (.init _) t.keyed (.inr ⟨tokens_ne_nil key, hstar⟩)

theorem hasChildren_eq (t : DirTree D) (key : Str) :
    t.hasChildren key = match t.root.walk (tokens key) with
      | some node => .ok node.hasChildren
      | none => .error .nullDeref := by
  simp only [hasChildren]
  rw [hasChildrenLoop_eq (.init _) (getNextToken_normalize key)]
  rfl

theorem hasChildren_eq_false_iff {t : DirTree D} {key : Str} : t.hasChildren key = .ok false ↔
    (t.view (tokens key)).isSome ∧ ∀ k, t.view (tokens key ++ [k]) = none := by
  have hview : ∀ k, t.view (tokens key ++ [k]) = (t.root.walk (tokens key)).bind fun node => node.view [k] := by
    intro k
    rw [view, Node.view, Node.walk_append]
    cases t.root.walk (tokens key) <;> rfl
  simp only [hview]
  rw [hasChildren_eq, view, Node.view]
  cases t.root.walk (tokens key) with
  | none => simp
  | some node =>
    have hchild : ∀ k, node.view [k] = none ↔ node.getChild k = none := by
      intro k
      rw [← Option.not_isSome_iff_eq_none, view_singleton_isSome, Option.not_isSome_iff_eq_none]
    simp only [Option.bind_some, Option.map_some, Option.isSome_some, true_and, hchild]
    rw [Except.ok.injEq, Bool.eq_false_iff, ne_eq, Node.hasChildren_iff]
    simp

theorem view_concat_of_childless {t : DirTree D} {key : Str} (h : t.hasChildren key = .ok false) (k : Str) :
    t.view (tokens key ++ [k]) = none :=
  (hasChildren_eq_false_iff.1 h).2 k

theorem drop_of_none {t : DirTree D} {key : Str} (h : t.view (tokens key) = none) : t.drop key = (t, []) := by
  have hw : t.root.walk (tokens key) = none := by
    rw [view, ← Option.not_isSome_iff_eq_none, Node.view_isSome] at h
    simpa using h
  have hd := dropLoop_eq_none (.init (normalize key)) (getNextToken_normalize key) hw
  unfold drop
  split
  · rfl
  · rename_i h'; rw [hd] at h'; cases h'

theorem drop_calls {t : DirTree D} {key : Str} {sub : Node D} (h : t.root.walk (tokens key) = some sub) :
    (t.drop key).2 = (sub.dropChildren []).map fun x => (dropPath (normalize key) x.1, x.2) := by
  obtain ⟨root, hd, -⟩ :=
    dropLoop_eq_some (.init (normalize key)) (getNextToken_normalize key) t.keyed h
  unfold drop
  split
  · rename_i h'; rw [hd] at h'; cases h'
  · rename_i h'; rw [hd] at h'; cases h'; rfl

theorem view_drop (t : DirTree D) (key : Str) :
    (t.drop key).1.view = PathMap.drop (tokens key) t.view := by
  cases hw : t.view (tokens key) with
  | none =>
    rw [drop_of_none hw]
    exact (PathMap.PrefixClosed.drop_absent Node.view_prefixClosed hw).symm
  | some d =>
    unfold drop
    split
    · rename_i h'
      rw [view, Node.view] at hw
      obtain ⟨sub, hsub, -⟩ := Option.map_eq_some_iff.1 hw
      obtain ⟨root, hd, -⟩ :=
        dropLoop_eq_some (.init (normalize key)) (getNextToken_normalize key) t.keyed hsub
      rw [hd] at h'
      cases h'
    · rename_i h'; exact (dropLoop_view h').1

theorem view_prefixClosed (t : DirTree D) : t.view.PrefixClosed := Node.view_prefixClosed

end DirTree

end ChCppUtils
