import ChCppUtils.DirTree.Node
import ChCppUtils.DirTree.Token

/-!
# The token loops of `DirTree` (dirtree.cpp)

`insert`, `search`, `hasChildren` and `drop` each walk the tokens of the key with a loop of their
own. A loop that goes down through a pointer and changes what it points to is a recursion that puts
the changed child back; the first argument bounds the iterations and never runs out (`Fuel`). One
lemma a loop says what it does in terms of `tokensFrom` and `Node.view`.
-/

namespace ChCppUtils.DirTree

variable {D : Type}

/-- `if (!node->hasChild(token)) node->addChild(token, newNode)` -/
def ensureChild (node : Node D) (token : Str) : Node D :=
  if !node.hasChild token then node.addChild token (Node.new token) else node

def insertLoop (key : Str) (data : Option D) : Nat → Nat → Node D → Node D
  | 0, _, node => node
  | n + 1, frm, node =>
    let token := getNextToken key frm
    if token.length ≠ 0 then
      let node := ensureChild node token
      match node.getChild token with
      | none => node  -- not reached: the child is there now
      | some child => node.setChild token (insertLoop key data n (frm + token.length + 1) child)
    else node.setData data

/-- The loop of `search`, with the flag `found` it carries. -/
def searchLoop (key : Str) (cbk : Str → Str → Bool) : Nat → Nat → Bool → Node D → Option D
  | 0, _, _, _ => none
  | n + 1, frm, found, node =>
    let token := getNextToken key frm
    if token.length = 0 then if found then node.data else none
    else
      let frm := frm + token.length + 1
      match node.getChild token with
      | none =>
        if !isLastToken key frm then none
        else match node.getChild ['*'] with
          | none => none
          | some star => if cbk star.key token then if found then star.data else none else none
      | some child => searchLoop key cbk n frm true child

/-- The loop of `hasChildren`; the node pointer is `none` once a child is missing. -/
def hasChildrenLoop (key : Str) : Nat → Nat → Option (Node D) → Res Bool
  | 0, _, _ => .error .outOfFuel
  | n + 1, frm, node =>
    let token := getNextToken key frm
    let frm := frm + token.length + 1
    match node with
    | none => .error .nullDeref
    | some node =>
      if isLastToken key frm then
        match node.getChild token with
        | some last => .ok last.hasChildren
        | none => hasChildrenLoop key n frm none
      else hasChildrenLoop key n frm (node.getChild token)

/-- The loop of `drop` with the unlinking in `dropTree`: the node with the subtree gone, and the
subtree. -/
def dropLoop (key : Str) : Nat → Nat → Node D → Option (Node D × Node D)
  | 0, _, _ => none
  | n + 1, frm, node =>
    let token := getNextToken key frm
    match node.getChild token with
    | none => none
    | some child =>
      let frm := frm + token.length + 1
      if (getNextToken key frm).length = 0 then some (node.deleteChild child.key, child)
      else (dropLoop key n frm child).map fun (c, sub) => (node.setChild token c, sub)

variable {key : Str} {n frm : Nat} {node : Node D}

/-! ### `insert` -/

theorem ensureChild_getChild (node : Node D) (t t' : Str) : (ensureChild node t).getChild t' =
    if t' = t then some ((node.getChild t).getD (Node.new t)) else node.getChild t' := by
  unfold ensureChild
  rw [Node.hasChild_eq]
  cases h : node.getChild t with
  | none => simp [Node.getChild_addChild, h]
  | some c =>
    by_cases ht : t' = t
    · subst ht; simp [h]
    · simp [ht]

@[simp] theorem ensureChild_data (node : Node D) (t : Str) : (ensureChild node t).data = node.data := by
  unfold ensureChild; split <;> simp

@[simp] theorem ensureChild_key (node : Node D) (t : Str) : (ensureChild node t).key = node.key := by
  unfold ensureChild; split <;> simp

theorem ensureChild_keyed (h : node.Keyed) (t : Str) : (ensureChild node t).Keyed := by
  unfold ensureChild
  split
  · exact h.addChild rfl (.new t)
  · exact h

theorem view_setData (node : Node D) (d : Option D) :
    (node.setData d).view = PathMap.insert none [] d node.view := by
  funext q
  rw [PathMap.insert_nil]
  rcases q with _ | ⟨t, q⟩
  · simp
  · rw [Node.view_cons, Node.getChild_setData, ← Node.view_cons, if_neg (List.cons_ne_nil t q)]

theorem view_new_node {t : Str} {q : List Str} (hq : q ≠ []) : (Node.new t : Node D).view q = none := by
  obtain ⟨t', q, rfl⟩ := List.exists_cons_of_ne_nil hq
  rw [Node.view_cons, Node.getChild_new]
  rfl

theorem insertLoop_view (data : Option D) (hn : Fuel key n frm) :
    (insertLoop key data n frm node).view = PathMap.insert none (tokensFrom key n frm) data node.view := by
  induction n generalizing frm node with
  | zero => exact absurd hn.1 (Nat.lt_irrefl 0)
  | succ n ih =>
    rw [insertLoop]
    by_cases ht : getNextToken key frm = []
    · rw [tokensFrom_nil ht, ht, if_neg (by simp), view_setData]
    · have hlen : (getNextToken key frm).length ≠ 0 := by simpa using ht
      rw [tokensFrom_cons ht, if_pos hlen]
      dsimp only
      rw [ensureChild_getChild, if_pos rfl]
      set t := getNextToken key frm
      set ts := tokensFrom key n (frm + t.length + 1)
      -- the child the loop goes on with has the tree below `t`, or is fresh
      have hsub : ∀ q, ((insertLoop key data n (frm + t.length + 1)
          ((node.getChild t).getD (Node.new t))).view q) = PathMap.insert none ts data (node.view.sub t) q := by
        intro q
        rw [ih (hn.next ht), Node.sub_view]
        cases node.getChild t with
        | some c => rfl
        | none =>
          exact congrFun (PathMap.insert_congr_root (by simp) fun q hq => by simp [view_new_node hq]) q
      funext q
      rcases q with _ | ⟨t', q⟩
      · simp [PathMap.insert_cons_nil]
      · rw [Node.view_cons, Node.getChild_setChild, PathMap.insert_cons]
        by_cases htt : t' = t
        · rw [if_pos htt, if_pos htt, ensureChild_getChild, if_pos rfl, ← hsub]
          rfl
        · rw [if_neg htt, if_neg htt, ensureChild_getChild, if_neg htt, ← Node.view_cons]

theorem insertLoop_keyed (data : Option D) (n frm : Nat) (h : node.Keyed) :
    (insertLoop key data n frm node).Keyed ∧ (insertLoop key data n frm node).key = node.key := by
  induction n generalizing frm node with
  | zero => exact ⟨h, rfl⟩
  | succ n ih =>
    rw [insertLoop]
    split
    · have hE := ensureChild_keyed h (getNextToken key frm)
      dsimp only
      split
      · exact ⟨hE, ensureChild_key _ _⟩
      · rename_i child hc
        obtain ⟨hck, hcK⟩ := hE.getChild hc
        obtain ⟨hK, hk⟩ := ih (frm + (getNextToken key frm).length + 1) hcK
        exact ⟨hE.setChild (hk.trans hck) hK, by simp⟩
    · exact ⟨h.setData data, Node.key_setData⟩

/-! ### `search` -/

/-- What `search` returns at the path `ts` of a map: the data there, or else the data of the
wildcard child of its parent where the callback takes it. -/
def lookupWild (cbk : Str → Str → Bool) (ts : List Str) (m : PathMap Str (Option D)) : Option D :=
  match m ts with
  | some d => d
  | none =>
    match m (ts.dropLast ++ [['*']]), ts.getLast? with
    | some d, some t => if cbk ['*'] t then d else none
    | _, _ => none

theorem lookupWild_cons {cbk : Str → Str → Bool} {t : Str} {ts : List Str} (hts : ts ≠ [])
    (m : PathMap Str (Option D)) : lookupWild cbk (t :: ts) m = lookupWild cbk ts (m.sub t) := by
  rw [lookupWild, lookupWild, List.dropLast_cons_of_ne_nil hts, List.cons_append,
    List.getLast?_cons_of_ne_nil hts]
  rfl

theorem searchLoop_eq (cbk : Str → Str → Bool) (hn : Fuel key n frm) (hK : node.Keyed) {found : Bool}
    (hf : found = true ∨ tokensFrom key n frm ≠ [] ∧ node.getChild ['*'] = none) :
    searchLoop key cbk n frm found node = lookupWild cbk (tokensFrom key n frm) node.view := by
  induction n generalizing frm node found with
  | zero => exact absurd hn.1 (Nat.lt_irrefl 0)
  | succ n ih =>
    rw [searchLoop]
    by_cases ht : getNextToken key frm = []
    · have hfound : found = true := by
        rcases hf with hf | ⟨hf, -⟩
        · exact hf
        · exact absurd (tokensFrom_nil ht) hf
      rw [tokensFrom_nil ht, if_pos (by simp [ht]), if_pos hfound]
      simp [lookupWild]
    · rw [if_neg (by simpa using ht), tokensFrom_cons ht]
      have hn' := hn.next ht
      set t := getNextToken key frm
      cases hc : node.getChild t with
      | some c =>
        dsimp only
        rw [ih hn' (hK.getChild hc).2 (.inl rfl)]
        by_cases hts : tokensFrom key n (frm + t.length + 1) = []
        · simp [hts, lookupWild, Node.view_cons, hc]
        · rw [lookupWild_cons hts, Node.sub_view, hc]
          rfl
      | none =>
        dsimp only
        by_cases hts : getNextToken key (frm + t.length + 1) = []
        · rw [isLastToken_iff.2 hts, tokensFrom_nil hts]
          have ht' : node.view [t] = none := by rw [Node.view_cons, hc]; rfl
          rw [lookupWild, ht']
          simp only [Bool.not_true, Bool.false_eq_true, if_false, List.dropLast_singleton,
            List.nil_append, List.getLast?_singleton, Node.view_cons]
          cases hs : node.getChild ['*'] with
          | none => rfl
          | some star =>
            have hfound : found = true := hf.resolve_right fun h => by simp [hs] at h
            simp [hfound, (hK.getChild hs).1]
        · have hlast : isLastToken key (frm + t.length + 1) = false :=
            Bool.eq_false_iff.2 fun h => hts (isLastToken_iff.1 h)
          have hne : tokensFrom key n (frm + t.length + 1) ≠ [] :=
            fun h => hts ((tokensFrom_eq_nil_iff hn'.1).1 h)
          rw [hlast, lookupWild_cons hne, Node.sub_view, hc]
          rfl

/-! ### `drop` -/

theorem view_deleteChild (node : Node D) (t : Str) :
    (node.deleteChild t).view = PathMap.drop [t] node.view := by
  funext q
  rcases q with _ | ⟨t', q⟩
  · simp [PathMap.drop_cons_nil]
  · rw [Node.view_cons, Node.getChild_deleteChild, PathMap.drop_cons]
    by_cases htt : t' = t
    · simp [htt, PathMap.drop]
    · rw [if_neg htt, if_neg htt, ← Node.view_cons]

theorem dropLoop_eq_none (hn : Fuel key n frm) (ht : getNextToken key frm ≠ [])
    (h : node.walk (tokensFrom key n frm) = none) : dropLoop key n frm node = none := by
  induction n generalizing frm node with
  | zero => rfl
  | succ n ih =>
    have hn' := hn.next ht
    rw [tokensFrom_cons ht, Node.walk_cons] at h
    rw [dropLoop]
    cases hc : node.getChild (getNextToken key frm) with
    | none => rfl
    | some c =>
      rw [hc, Option.bind_some] at h
      dsimp only
      by_cases hts : getNextToken key (frm + (getNextToken key frm).length + 1) = []
      · rw [tokensFrom_nil hts] at h
        cases h
      · rw [if_neg (by simpa using hts), ih hn' hts h]
        rfl

theorem dropLoop_eq_some {sub : Node D} (hn : Fuel key n frm) (ht : getNextToken key frm ≠ [])
    (hK : node.Keyed) (h : node.walk (tokensFrom key n frm) = some sub) :
    ∃ node', dropLoop key n frm node = some (node', sub) ∧
      node'.view = PathMap.drop (tokensFrom key n frm) node.view := by
  induction n generalizing frm node with
  | zero => exact absurd hn.1 (Nat.lt_irrefl 0)
  | succ n ih =>
    have hn' := hn.next ht
    rw [tokensFrom_cons ht, Node.walk_cons] at h
    rw [dropLoop, tokensFrom_cons ht]
    set t := getNextToken key frm
    cases hc : node.getChild t with
    | none => simp [hc] at h
    | some c =>
      obtain ⟨hck, hcK⟩ := hK.getChild hc
      rw [hc, Option.bind_some] at h
      dsimp only
      by_cases hts : getNextToken key (frm + t.length + 1) = []
      · rw [tokensFrom_nil hts] at h ⊢
        obtain rfl : c = sub := by simpa using h
        exact ⟨node.deleteChild c.key, by simp [hts], by rw [hck]; exact view_deleteChild node t⟩
      · obtain ⟨c', hl, hv⟩ := ih hn' hts hcK h
        refine ⟨node.setChild t c', by rw [if_neg (by simpa using hts), hl]; rfl, ?_⟩
        funext q
        rcases q with _ | ⟨t', q⟩
        · simp [PathMap.drop_cons_nil]
        · rw [Node.view_cons, Node.getChild_setChild, PathMap.drop_cons]
          by_cases htt : t' = t
          · rw [if_pos htt, if_pos htt, hc, Option.map_some, Option.bind_some, hv, Node.sub_view, hc]
            rfl
          · rw [if_neg htt, if_neg htt, ← Node.view_cons]

theorem dropLoop_keyed {node' sub : Node D} (n frm : Nat) (h : node.Keyed)
    (hd : dropLoop key n frm node = some (node', sub)) : node'.Keyed ∧ node'.key = node.key := by
  induction n generalizing frm node node' sub with
  | zero => simp [dropLoop] at hd
  | succ n ih =>
    simp only [dropLoop] at hd
    split at hd
    · simp at hd
    · rename_i child hc
      obtain ⟨hck, hcK⟩ := h.getChild hc
      split at hd
      · cases hd
        exact ⟨h.deleteChild _, Node.key_deleteChild⟩
      · obtain ⟨⟨c, s⟩, hl, he⟩ := Option.map_eq_some_iff.1 hd
        cases he
        obtain ⟨hK, hk⟩ := ih _ hcK hl
        exact ⟨h.setChild (hk.trans hck) hK, Node.key_setChild⟩

/-! ### `hasChildren` -/

theorem hasChildrenLoop_eq (hn : Fuel key n frm) (ht : getNextToken key frm ≠ []) :
    hasChildrenLoop key (n + 1) frm (some node) =
      match node.walk (tokensFrom key n frm) with
      | some last => .ok last.hasChildren
      | none => .error .nullDeref := by
  induction n generalizing frm node with
  | zero => exact absurd hn.1 (Nat.lt_irrefl 0)
  | succ n ih =>
    have hn' := hn.next ht
    rw [hasChildrenLoop, tokensFrom_cons ht, Node.walk_cons]
    set t := getNextToken key frm
    by_cases hts : getNextToken key (frm + t.length + 1) = []
    · rw [if_pos (isLastToken_iff.2 hts), tokensFrom_nil hts]
      cases node.getChild t with
      | none => rfl
      | some c => rfl
    · rw [if_neg fun h => hts (isLastToken_iff.1 h)]
      cases node.getChild t with
      | none => rfl
      | some c => exact ih hn' hts

end ChCppUtils.DirTree
