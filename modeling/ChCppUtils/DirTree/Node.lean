import ChCppUtils.Basic
import ChCppUtils.Lib.PathMap

/-!
# `Node` (dirtree.cpp)

A node owns its children, so a subtree is a value: `Node` and its map of children are one mutual
inductive type, with the children in some order of iteration. A pointer into the tree is the path
of keys that leads to it, and the updates through a pointer return the changed node.

`Keyed` is the shape the operations keep: a child is filed under its own key, and once.
-/

namespace ChCppUtils

mutual

/-- `class Node`; the `data` pointer is `none` where it is `NULL`. -/
inductive Node (D : Type) where
  | mk (key : Str) (data : Option D) (children : Children D)

/-- `unordered_map<string, Node *>` -/
inductive Children (D : Type) where
  | nil
  | cons (key : Str) (node : Node D) (rest : Children D)

end

variable {D : Type}

namespace Children

def keys : Children D → List Str
  | nil => []
  | cons k _ r => k :: r.keys

def size : Children D → Nat
  | nil => 0
  | cons _ _ r => r.size + 1

def find (k : Str) : Children D → Option (Node D)
  | nil => none
  | cons k' n r => if k' = k then some n else r.find k

/-- `unordered_map::insert`: an entry that exists stays. -/
def insert (k : Str) (n : Node D) : Children D → Children D
  | nil => cons k n nil
  | cons k' n' r => if k' = k then cons k' n' r else cons k' n' (r.insert k n)

/-- The node filed under `k` is now `n`: what a change made through the child's pointer does. -/
def assign (k : Str) (n : Node D) : Children D → Children D
  | nil => nil
  | cons k' n' r => if k' = k then cons k' n r else cons k' n' (r.assign k n)

def erase (k : Str) : Children D → Children D
  | nil => nil
  | cons k' n r => if k' = k then r.erase k else cons k' n (r.erase k)

variable {k k' : Str} {n : Node D}

theorem find_insert : ∀ cs : Children D,
    (cs.insert k n).find k' = if k' = k then some ((cs.find k).getD n) else cs.find k'
  | nil => by simp only [insert, find]; split <;> simp [*, eq_comm]
  | cons k₁ n₁ r => by
    have ih := find_insert r
    grind [insert, find]

theorem find_assign : ∀ cs : Children D,
    (cs.assign k n).find k' = if k' = k then (cs.find k).map fun _ => n else cs.find k'
  | nil => by simp [assign, find]
  | cons k₁ n₁ r => by
    have ih := find_assign r
    grind [assign, find]

theorem find_erase : ∀ cs : Children D, (cs.erase k).find k' = if k' = k then none else cs.find k'
  | nil => by simp [erase, find]
  | cons k₁ n₁ r => by
    have ih := find_erase r
    grind [erase, find]

theorem mem_keys_insert : ∀ cs : Children D, k' ∈ (cs.insert k n).keys ↔ k' = k ∨ k' ∈ cs.keys
  | nil => by simp [insert, keys]
  | cons k₁ n₁ r => by
    have ih := mem_keys_insert r
    grind [insert, keys]

theorem keys_assign : ∀ cs : Children D, (cs.assign k n).keys = cs.keys
  | nil => rfl
  | cons k₁ n₁ r => by
    have ih := keys_assign r
    grind [assign, keys]

theorem mem_keys_erase : ∀ cs : Children D, k' ∈ (cs.erase k).keys ↔ k' ≠ k ∧ k' ∈ cs.keys
  | nil => by simp [erase, keys]
  | cons k₁ n₁ r => by
    have ih := mem_keys_erase r
    grind [erase, keys]

end Children

namespace Node

def key : Node D → Str
  | mk k _ _ => k

def data : Node D → Option D
  | mk _ d _ => d

def children : Node D → Children D
  | mk _ _ cs => cs

/-- `new Node()` and `setKey`: value-initialised, so `data` is null. -/
def new (key : Str) : Node D := mk key none .nil

def addChild : Node D → Str → Node D → Node D
  | mk k d cs, key, node => mk k d (cs.insert key node)

def hasChildren (n : Node D) : Bool := if 0 = n.children.size then false else true

def hasChild (n : Node D) (key : Str) : Bool := (n.children.find key).isSome

def getChild (n : Node D) (key : Str) : Option (Node D) := n.children.find key

def deleteChild : Node D → Str → Node D
  | mk k d cs, key => mk k d (cs.erase key)

def setData : Node D → Option D → Node D
  | mk k _ cs, data => mk k data cs

/-- The child filed under `key` has become `node`. -/
def setChild : Node D → Str → Node D → Node D
  | mk k d cs, key, node => mk k d (cs.assign key node)

section
variable {k k' : Str} {c n : Node D} {d : Option D}

@[simp] theorem key_new : (new k : Node D).key = k := rfl
@[simp] theorem data_new : (new k : Node D).data = none := rfl
@[simp] theorem getChild_new : (new k : Node D).getChild k' = none := rfl
@[simp] theorem key_setData : (n.setData d).key = n.key := by cases n; rfl
@[simp] theorem data_setData : (n.setData d).data = d := by cases n; rfl
@[simp] theorem getChild_setData : (n.setData d).getChild k = n.getChild k := by cases n; rfl
@[simp] theorem key_addChild : (n.addChild k c).key = n.key := by cases n; rfl
@[simp] theorem data_addChild : (n.addChild k c).data = n.data := by cases n; rfl
@[simp] theorem key_deleteChild : (n.deleteChild k).key = n.key := by cases n; rfl
@[simp] theorem data_deleteChild : (n.deleteChild k).data = n.data := by cases n; rfl
@[simp] theorem key_setChild : (n.setChild k c).key = n.key := by cases n; rfl
@[simp] theorem data_setChild : (n.setChild k c).data = n.data := by cases n; rfl

theorem getChild_addChild : (n.addChild k c).getChild k' =
    if k' = k then some ((n.getChild k).getD c) else n.getChild k' := by
  cases n; exact Children.find_insert _

theorem getChild_deleteChild : (n.deleteChild k).getChild k' = if k' = k then none else n.getChild k' := by
  cases n; exact Children.find_erase _

theorem getChild_setChild : (n.setChild k c).getChild k' =
    if k' = k then (n.getChild k).map fun _ => c else n.getChild k' := by
  cases n; exact Children.find_assign _

theorem hasChild_eq : n.hasChild k = (n.getChild k).isSome := rfl

theorem hasChildren_iff : n.hasChildren = true ↔ ∃ k, (n.getChild k).isSome := by
  obtain ⟨key, data, cs⟩ := n
  cases cs with
  | nil => simp [hasChildren, children, Children.size, getChild, Children.find]
  | cons k₁ c₁ r =>
    refine ⟨fun _ => ⟨k₁, by simp [getChild, children, Children.find]⟩, fun _ => ?_⟩
    simp [hasChildren, children, Children.size]

end

/-- The node at the end of a path of keys. -/
def walk : Node D → List Str → Option (Node D)
  | n, [] => some n
  | n, t :: ts => (n.getChild t).bind fun c => c.walk ts

/-- The tree below a node as a map from paths to data pointers. -/
def view (n : Node D) : PathMap Str (Option D) := fun p => (n.walk p).map data

variable {n c : Node D} {t : Str} {p q : List Str}

@[simp] theorem walk_nil : n.walk [] = some n := rfl

theorem walk_cons : n.walk (t :: p) = (n.getChild t).bind fun c => c.walk p := rfl

theorem walk_append : n.walk (p ++ q) = (n.walk p).bind fun c => c.walk q := by
  induction p generalizing n with
  | nil => rfl
  | cons t p ih =>
    rw [List.cons_append, walk_cons, walk_cons]
    cases n.getChild t with
    | none => rfl
    | some c => exact ih

@[simp] theorem view_nil : n.view [] = some n.data := rfl

theorem view_cons : n.view (t :: p) = (n.getChild t).bind fun c => c.view p := by
  simp only [view, walk_cons]
  cases n.getChild t <;> rfl

theorem sub_view : n.view.sub t = fun p => (n.getChild t).bind fun c => c.view p :=
  funext fun _ => view_cons

theorem view_isSome : (n.view p).isSome = (n.walk p).isSome := by simp [view]

theorem view_prefixClosed : n.view.PrefixClosed := by
  rintro p _ ⟨r, rfl⟩ h
  rw [view_isSome] at h ⊢
  rw [walk_append] at h
  cases hp : n.walk p with
  | none => simp [hp] at h
  | some c => rfl

end Node

/-! ### Shape -/

mutual

/-- Every child below is filed under its own key, and once. -/
def Node.Keyed : Node D → Prop
  | .mk _ _ cs => cs.Keyed

def Children.Keyed : Children D → Prop
  | .nil => True
  | .cons k n r => n.key = k ∧ k ∉ r.keys ∧ n.Keyed ∧ r.Keyed

end

namespace Children
variable {k : Str} {n : Node D}

theorem Keyed.find : ∀ {cs : Children D}, cs.Keyed → cs.find k = some n → n.key = k ∧ n.Keyed
  | cons k₁ n₁ r, ⟨hk, _, hn, hr⟩, hf => by
    rw [Children.find] at hf
    split at hf
    · cases hf; exact ⟨hk.trans ‹_›, hn⟩
    · exact Keyed.find hr hf

theorem Keyed.insert (hk : n.key = k) (hn : n.Keyed) : ∀ {cs : Children D}, cs.Keyed → (cs.insert k n).Keyed
  | nil, _ => ⟨hk, by simp [keys], hn, trivial⟩
  | cons k₁ n₁ r, ⟨hk₁, hr₁, hn₁, hr⟩ => by
    rw [Children.insert]
    split
    · exact ⟨hk₁, hr₁, hn₁, hr⟩
    · exact ⟨hk₁, by rw [mem_keys_insert]; exact not_or.2 ⟨‹_›, hr₁⟩, hn₁, Keyed.insert hk hn hr⟩

theorem Keyed.assign (hk : n.key = k) (hn : n.Keyed) : ∀ {cs : Children D}, cs.Keyed → (cs.assign k n).Keyed
  | nil, _ => trivial
  | cons k₁ n₁ r, ⟨hk₁, hr₁, hn₁, hr⟩ => by
    rw [Children.assign]
    split
    · exact ⟨hk.trans (Eq.symm ‹_›), hr₁, hn, hr⟩
    · exact ⟨hk₁, by rwa [keys_assign], hn₁, Keyed.assign hk hn hr⟩

theorem Keyed.erase : ∀ {cs : Children D}, cs.Keyed → (cs.erase k).Keyed
  | nil, _ => trivial
  | cons k₁ n₁ r, ⟨hk₁, hr₁, hn₁, hr⟩ => by
    rw [Children.erase]
    split
    · exact Keyed.erase hr
    · exact ⟨hk₁, fun hm => hr₁ (mem_keys_erase r |>.1 hm).2, hn₁, Keyed.erase hr⟩

end Children

namespace Node.Keyed
variable {k : Str} {n c : Node D}

theorem new (k : Str) : (Node.new k : Node D).Keyed := trivial

theorem getChild (h : n.Keyed) (hc : n.getChild k = some c) : c.key = k ∧ c.Keyed := by
  cases n; exact Children.Keyed.find h hc

theorem addChild (h : n.Keyed) (hk : c.key = k) (hc : c.Keyed) : (n.addChild k c).Keyed := by
  cases n; exact Children.Keyed.insert hk hc h

theorem setChild (h : n.Keyed) (hk : c.key = k) (hc : c.Keyed) : (n.setChild k c).Keyed := by
  cases n; exact Children.Keyed.assign hk hc h

theorem deleteChild (h : n.Keyed) (k : Str) : (n.deleteChild k).Keyed := by
  cases n; exact Children.Keyed.erase h

theorem setData (h : n.Keyed) (d : Option D) : (n.setData d).Keyed := by
  cases n; exact h

end Node.Keyed

end ChCppUtils
