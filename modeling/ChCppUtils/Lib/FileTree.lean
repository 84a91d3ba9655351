import Mathlib.Logic.Function.Basic
import Mathlib.Data.List.Basic

/-!
# Directories and the paths through them

The inodes of a file system, each a file or a directory whose entries name inodes; every directory has the
entries `here` and `up`. A walk follows one name after the other. `go` follows also names that are missing, as
if directories were made for them: a position is an inode and how far below it the made ones reach. A walk
is `Open` if no file is in its way. A directory that is made does not change which walks are open
(`open_makeDir`).
-/

inductive Inode (ν : Type*) where
  | file
  | dir (entries : ν → Option Nat)

namespace Inode

variable {ν : Type*}

def isDir : Inode ν → Bool
  | file => false
  | dir _ => true

def entry (name : ν) : Inode ν → Option Nat
  | file => none
  | dir entries => entries name

end Inode

namespace FileTree

variable {ν : Type*}

/-- The entry `name` of the inode number `i`. -/
def entryOf (inodes : List (Inode ν)) (i : Nat) (name : ν) : Option Nat := inodes[i]?.bind (Inode.entry name)

def isDirIn (inodes : List (Inode ν)) (i : Nat) : Bool := inodes[i]?.any Inode.isDir

end FileTree

structure FileTree (ν : Type*) (here up : ν) where
  inodes : List (Inode ν)
  root : FileTree.isDirIn inodes 0 = true
  valid : ∀ i name j, FileTree.entryOf inodes i name = some j → j < inodes.length
  self : ∀ i, FileTree.isDirIn inodes i = true → FileTree.entryOf inodes i here = some i
  parent : ∀ i, FileTree.isDirIn inodes i = true →
    ∃ j, FileTree.entryOf inodes i up = some j ∧ FileTree.isDirIn inodes j = true

namespace FileTree

variable {ν : Type*} {here up : ν}

def entry (t : FileTree ν here up) (i : Nat) (name : ν) : Option Nat := entryOf t.inodes i name

def isDir (t : FileTree ν here up) (i : Nat) : Bool := isDirIn t.inodes i

/-- The inode that the names lead to. -/
def walk (t : FileTree ν here up) (i : Nat) (names : List ν) : Option Nat := names.foldlM t.entry i

section
variable [DecidableEq ν]

/-- Only a root, which is its own parent. -/
def bare (here up : ν) : FileTree ν here up where
  inodes := [.dir (Function.update (Function.update (fun _ => none) up (some 0)) here (some 0))]
  root := rfl
  valid i name j h := by
    cases i with
    | succ i => cases h
    | zero =>
      have h : Function.update (Function.update (fun _ => none) up (some 0)) here (some 0) name = some j := h
      rw [Function.update_apply, Function.update_apply] at h
      split at h
      · cases h; exact Nat.one_pos
      · split at h
        · cases h; exact Nat.one_pos
        · cases h
  self i h := by
    cases i with
    | succ i => cases h
    | zero => exact Function.update_self ..
  parent i h := by
    cases i with
    | succ i => cases h
    | zero =>
      refine ⟨0, ?_, rfl⟩
      show Function.update (Function.update (fun _ => none) up (some 0)) here (some 0) up = some 0
      rw [Function.update_apply]
      split
      · rfl
      · exact Function.update_self ..

end

/-! ### A new directory -/

section
variable {inodes : List (Inode ν)} {d i j : Nat} {name : ν}

theorem lt_of_isDirIn (h : isDirIn inodes i = true) : i < inodes.length := by
  by_contra hle
  rw [isDirIn, List.getElem?_eq_none (Nat.le_of_not_lt hle)] at h
  cases h

theorem isDirIn_of_entryOf (h : entryOf inodes i name = some j) : isDirIn inodes i = true := by
  rw [entryOf] at h
  cases hi : inodes[i]? with
  | none => rw [hi] at h; cases h
  | some inode =>
    rw [hi] at h
    cases inode with
    | file => cases h
    | dir entries => rw [isDirIn, hi]; rfl

variable [DecidableEq ν]

/-- The inodes with a new directory `name` in the directory `d`. -/
def withDir (here up : ν) (inodes : List (Inode ν)) (d : Nat) (name : ν) : List (Inode ν) :=
  inodes.set d (.dir (Function.update (entryOf inodes d) name (some inodes.length))) ++
    [.dir (Function.update (Function.update (fun _ => none) up (some d)) here (some inodes.length))]

theorem getElem_withDir (here up : ν) (hd : d < inodes.length) (name : ν) (i : Nat) :
    (withDir here up inodes d name)[i]? =
      if i = inodes.length then
        some (.dir (Function.update (Function.update (fun _ => none) up (some d)) here (some inodes.length)))
      else if i = d then some (.dir (Function.update (entryOf inodes d) name (some inodes.length))) else inodes[i]? := by
  unfold withDir
  by_cases hlen : i = inodes.length
  · subst hlen
    rw [if_pos rfl, List.getElem?_append_right (Nat.le_of_eq List.length_set)]
    simp
  · rw [if_neg hlen]
    by_cases hlt : i < inodes.length
    · rw [List.getElem?_append_left (by rw [List.length_set]; exact hlt)]
      by_cases hid : i = d
      · rw [if_pos hid, hid, List.getElem?_set_self hd]
      · rw [if_neg hid, List.getElem?_set_ne (Ne.symm hid)]
    · rw [if_neg (by omega), List.getElem?_eq_none (by simp; omega), List.getElem?_eq_none (by omega)]

theorem isDirIn_withDir (hd : isDirIn inodes d = true) (name : ν) (i : Nat) :
    isDirIn (withDir here up inodes d name) i = (i == inodes.length || isDirIn inodes i) := by
  unfold isDirIn at hd ⊢
  rw [getElem_withDir here up (lt_of_isDirIn hd)]
  split
  · rename_i h
    simp [h, Inode.isDir]
  · rename_i h
    split
    · rename_i h'
      rw [h', hd]
      simp [Inode.isDir]
    · rw [beq_false_of_ne h, Bool.false_or]

theorem entryOf_withDir (hd : isDirIn inodes d = true) (name : ν) (i : Nat) (x : ν) :
    entryOf (withDir here up inodes d name) i x =
      if i = inodes.length then if x = here then some inodes.length else if x = up then some d else none
      else if i = d ∧ x = name then some inodes.length else entryOf inodes i x := by
  rw [entryOf, getElem_withDir here up (lt_of_isDirIn hd)]
  split
  · rename_i h
    show Function.update _ here _ x = _
    by_cases hx : x = here
    · rw [hx, Function.update_self, if_pos rfl]
    · rw [Function.update_of_ne hx, if_neg hx]
      by_cases hu : x = up
      · rw [hu, Function.update_self, if_pos rfl]
      · rw [Function.update_of_ne hu, if_neg hu]
  · split
    · rename_i h
      show Function.update _ name _ x = _
      by_cases hx : x = name
      · rw [hx, Function.update_self, if_pos ⟨h, rfl⟩]
      · rw [Function.update_of_ne hx, if_neg fun hc => hx hc.2, h]
    · rename_i h
      rw [if_neg fun hc => h hc.1]
      rfl

omit [DecidableEq ν] in
theorem entryOf_here (t : FileTree ν here up) (hd : t.isDir d = true) (hn : t.entry d name = none) : here ≠ name := by
  rintro rfl
  have hself := t.self d hd
  rw [entry] at hn
  rw [hn] at hself
  cases hself

omit [DecidableEq ν] in
theorem entryOf_up (t : FileTree ν here up) (hd : t.isDir d = true) (hn : t.entry d name = none) : up ≠ name := by
  rintro rfl
  obtain ⟨j, hj, -⟩ := t.parent d hd
  rw [entry] at hn
  rw [hn] at hj
  cases hj

/-- `d` has no entry `name`, and gets one. -/
def makeDir (t : FileTree ν here up) (d : Nat) (name : ν) (hd : t.isDir d = true) (hn : t.entry d name = none) :
    FileTree ν here up where
  inodes := withDir here up t.inodes d name
  root := by rw [isDirIn_withDir hd, t.root, Bool.or_true]
  valid i x j h := by
    have hlen : (withDir here up t.inodes d name).length = t.inodes.length + 1 := by simp [withDir]
    have hlt := lt_of_isDirIn hd
    rw [entryOf_withDir hd] at h
    rw [hlen]
    split at h
    · split at h
      · cases h; omega
      · split at h
        · cases h; omega
        · cases h
    · split at h
      · cases h; omega
      · have := t.valid i x j h
        omega
  self i h := by
    rw [isDirIn_withDir hd] at h
    rw [entryOf_withDir hd]
    split
    · rename_i hi
      rw [if_pos rfl, hi]
    · rename_i hi
      rw [if_neg fun hc => t.entryOf_here hd hn hc.2]
      rw [beq_false_of_ne hi, Bool.false_or] at h
      exact t.self i h
  parent i h := by
    rw [isDirIn_withDir hd] at h
    rw [entryOf_withDir hd]
    split
    · by_cases hu : up = here
      · exact ⟨t.inodes.length, if_pos hu, by rw [isDirIn_withDir hd]; simp⟩
      · refine ⟨d, by rw [if_neg hu, if_pos rfl], ?_⟩
        rw [isDirIn_withDir hd, show isDirIn t.inodes d = true from hd, Bool.or_true]
    · rename_i hi
      rw [if_neg fun hc => t.entryOf_up hd hn hc.2]
      rw [beq_false_of_ne hi, Bool.false_or] at h
      obtain ⟨j, hj, hdj⟩ := t.parent i h
      exact ⟨j, hj, by rw [isDirIn_withDir hd, hdj, Bool.or_true]⟩

end

/-! ### What stays -/

/-- `t'` has all that `t` has. -/
structure Le (t t' : FileTree ν here up) : Prop where
  length : t.inodes.length ≤ t'.inodes.length
  entry : ∀ i x j, t.entry i x = some j → t'.entry i x = some j
  kind : ∀ i < t.inodes.length, t'.isDir i = t.isDir i

variable {t t' : FileTree ν here up} {d i j : Nat} {name x : ν} {names : List ν}

theorem Le.refl (t : FileTree ν here up) : t.Le t := ⟨Nat.le_refl _, fun _ _ _ h => h, fun _ _ => rfl⟩

theorem Le.trans {t'' : FileTree ν here up} (h : t.Le t') (h' : t'.Le t'') : t.Le t'' :=
  ⟨Nat.le_trans h.length h'.length, fun i x j he => h'.entry i x j (h.entry i x j he),
    fun i hi => (h'.kind i (Nat.lt_of_lt_of_le hi h.length)).trans (h.kind i hi)⟩

theorem walk_cons (t : FileTree ν here up) (i : Nat) (x : ν) (names : List ν) :
    t.walk i (x :: names) = (t.entry i x).bind fun j => t.walk j names := by
  rw [walk, List.foldlM_cons]
  cases t.entry i x <;> rfl

theorem walk_append (t : FileTree ν here up) (i : Nat) (names more : List ν) :
    t.walk i (names ++ more) = (t.walk i names).bind fun j => t.walk j more := by
  rw [walk, List.foldlM_append, walk]
  cases List.foldlM t.entry i names <;> rfl

theorem isDir_of_walk (h : t.walk i names = some j) (hj : t.isDir j = true) : t.isDir i = true := by
  cases names with
  | nil =>
    obtain rfl : i = j := Option.some.inj h
    exact hj
  | cons x names =>
    rw [walk_cons] at h
    obtain ⟨k, he, -⟩ := Option.bind_eq_some_iff.1 h
    exact isDirIn_of_entryOf he

theorem Le.walk (h : t.Le t') (hw : t.walk i names = some j) : t'.walk i names = some j := by
  induction names generalizing i with
  | nil => exact hw
  | cons x names ih =>
    rw [walk_cons] at hw ⊢
    obtain ⟨k, he, hk⟩ := Option.bind_eq_some_iff.1 hw
    rw [h.entry i x k he]
    exact ih hk

theorem Le.isDir (h : t.Le t') (hi : t.isDir i = true) : t'.isDir i = true :=
  (h.kind i (lt_of_isDirIn hi)).trans hi

section
variable [DecidableEq ν]

theorem le_makeDir (hd : t.isDir d = true) (hn : t.entry d name = none) : t.Le (t.makeDir d name hd hn) where
  length := by simp [makeDir, withDir]
  entry i x j h := by
    have hi : i < t.inodes.length := lt_of_isDirIn (isDirIn_of_entryOf h)
    show entryOf (withDir here up t.inodes d name) i x = some j
    rw [entryOf_withDir hd, if_neg (Nat.ne_of_lt hi), if_neg]
    · exact h
    · rintro ⟨rfl, rfl⟩
      rw [h] at hn
      cases hn
  kind i hi := by
    show isDirIn (withDir here up t.inodes d name) i = isDirIn t.inodes i
    rw [isDirIn_withDir hd, beq_false_of_ne (Nat.ne_of_lt hi), Bool.false_or]

/-! ### Paths that a file may block -/

/-- How far a walk is below the inode, where directories would have to be made. -/
structure Pos where
  inode : Nat
  depth : Nat

/-- One name further: it stops at a file only. -/
def go (t : FileTree ν here up) (p : Pos) (x : ν) : Option Pos :=
  match p.depth with
  | 0 =>
    if t.isDir p.inode then
      match t.entry p.inode x with
      | some j => some ⟨j, 0⟩
      | none => some ⟨p.inode, 1⟩
    else none
  | k + 1 => some (if x = here then p else if x = up then ⟨p.inode, k⟩ else ⟨p.inode, k + 2⟩)

/-- No file is in the way, and none at the end. -/
def Open (t : FileTree ν here up) : Pos → List ν → Prop
  | p, [] => p.depth = 0 → t.isDir p.inode = true
  | p, x :: names =>
    match t.go p x with
    | some q => t.Open q names
    | none => False

instance Open.decidable (t : FileTree ν here up) : ∀ p names, Decidable (t.Open p names)
  | p, [] => inferInstanceAs (Decidable (p.depth = 0 → t.isDir p.inode = true))
  | p, x :: names => by
    unfold Open
    cases t.go p x with
    | none => exact .isFalse id
    | some q => exact Open.decidable t q names

/-- The positions that a new directory, number `new` in `d`, makes one. -/
inductive Same (d new : Nat) : Pos → Pos → Prop
  | keep {p : Pos} (h : p.inode < new) : Same d new p p
  | made (k : Nat) : Same d new ⟨d, k + 1⟩ ⟨new, k⟩

theorem go_of_dir {k : Nat} (hi : t.isDir i = true) (hk : k = 0) :
    t.go ⟨i, k⟩ x = some (match t.entry i x with
      | some j => ⟨j, 0⟩
      | none => ⟨i, 1⟩) := by
  subst hk
  show (if t.isDir i = true then _ else none) = _
  rw [if_pos hi]
  cases t.entry i x <;> rfl

theorem entry_makeDir (hd : t.isDir d = true) (hn : t.entry d name = none) (i : Nat) (x : ν) :
    (t.makeDir d name hd hn).entry i x =
      if i = t.inodes.length then if x = here then some t.inodes.length else if x = up then some d else none
      else if i = d ∧ x = name then some t.inodes.length else t.entry i x := entryOf_withDir hd name i x

theorem isDir_makeDir (hd : t.isDir d = true) (hn : t.entry d name = none) :
    (t.makeDir d name hd hn).isDir t.inodes.length = true := by
  show isDirIn (withDir here up t.inodes d name) _ = true
  rw [isDirIn_withDir hd]
  simp

theorem go_makeDir (hd : t.isDir d = true) (hn : t.entry d name = none) {p q : Pos}
    (h : Same d t.inodes.length p q) : t.go p x = none ∧ (t.makeDir d name hd hn).go q x = none ∨
      ∃ p' q', t.go p x = some p' ∧ (t.makeDir d name hd hn).go q x = some q' ∧ Same d t.inodes.length p' q' := by
  have hlt := lt_of_isDirIn hd
  have hle := le_makeDir hd hn
  cases h with
  | @keep p h =>
    obtain ⟨i, k⟩ := p
    have h : i < t.inodes.length := h
    cases k with
    | succ k =>
      refine .inr ⟨_, _, rfl, rfl, .keep ?_⟩
      split
      · exact h
      · split
        · exact h
        · exact h
    | zero =>
      by_cases hi : t.isDir i = true
      · right
        rw [go_of_dir hi rfl, go_of_dir (hle.isDir hi) rfl, entry_makeDir hd hn, if_neg (Nat.ne_of_lt h)]
        by_cases hnew : i = d ∧ x = name
        · -- the name that the new directory has
          obtain ⟨rfl, rfl⟩ := hnew
          rw [if_pos ⟨rfl, rfl⟩, hn]
          exact ⟨_, _, rfl, rfl, .made 0⟩
        · rw [if_neg hnew]
          refine ⟨_, _, rfl, rfl, .keep ?_⟩
          cases he : t.entry i x with
          | none => exact h
          | some j => exact t.valid i x j he
      · left
        have hi' : ¬ (t.makeDir d name hd hn).isDir i = true := by
          rw [hle.kind i h]
          exact hi
        exact ⟨if_neg hi, if_neg hi'⟩
  | made k =>
    right
    cases k with
    | zero =>
      rw [go_of_dir (isDir_makeDir hd hn) rfl, entry_makeDir hd hn, if_pos rfl]
      by_cases hx : x = here
      · exact ⟨_, _, congrArg some (if_pos hx), by rw [if_pos hx], .made 0⟩
      · rw [if_neg hx]
        by_cases hu : x = up
        · exact ⟨⟨d, 0⟩, _, congrArg some ((if_neg hx).trans (if_pos hu)), by rw [if_pos hu], .keep hlt⟩
        · exact ⟨⟨d, 2⟩, _, congrArg some ((if_neg hx).trans (if_neg hu)), by rw [if_neg hu], .made 1⟩
    | succ k =>
      refine ⟨_, _, rfl, rfl, ?_⟩
      split
      · exact .made (k + 1)
      · split
        · exact .made k
        · exact .made (k + 2)

/-- Making a directory does not block a path, and does not free one. -/
theorem open_makeDir (hd : t.isDir d = true) (hn : t.entry d name = none) {p q : Pos}
    (h : Same d t.inodes.length p q) : (t.makeDir d name hd hn).Open q names ↔ t.Open p names := by
  induction names generalizing p q with
  | nil =>
    cases h with
    | @keep p h =>
      show (p.depth = 0 → (t.makeDir d name hd hn).isDir p.inode = true) ↔ (p.depth = 0 → t.isDir p.inode = true)
      rw [(le_makeDir hd hn).kind p.inode h]
    | made k => exact ⟨fun _ h0 => absurd h0 (Nat.succ_ne_zero k), fun _ _ => isDir_makeDir hd hn⟩
  | cons x names ih =>
    rw [Open, Open]
    rcases go_makeDir (x := x) hd hn h with ⟨hp, hq⟩ | ⟨p', q', hp, hq, h'⟩
    · rw [hp, hq]
    · rw [hp, hq]
      exact ih h'

theorem open_cons (hi : t.isDir i = true) : t.Open ⟨i, 0⟩ (x :: names) ↔
    match t.entry i x with
    | some j => t.Open ⟨j, 0⟩ names
    | none => t.Open ⟨i, 1⟩ names := by
  rw [Open, go_of_dir hi rfl]
  cases t.entry i x <;> rfl

theorem Open.isDir {p : Pos} (h : t.Open p names) (h0 : p.depth = 0) : t.isDir p.inode = true := by
  obtain ⟨i, k⟩ := p
  obtain rfl : k = 0 := h0
  cases names with
  | nil => exact h rfl
  | cons x names =>
    by_contra hi
    rw [Open, go] at h
    simp only [hi] at h
    exact h

theorem Open.of_prefix {p : Pos} {more : List ν} (h : t.Open p (names ++ more)) : t.Open p names := by
  induction names generalizing p with
  | nil => exact h.isDir
  | cons x names ih =>
    rw [List.cons_append, Open] at h
    rw [Open]
    cases hq : t.go p x with
    | none => rw [hq] at h; exact h
    | some q => rw [hq] at h; exact ih h

/-- What is there is walked, and the rest of the path decides. -/
theorem open_append {more : List ν} (h : t.walk i names = some j) :
    t.Open ⟨i, 0⟩ (names ++ more) ↔ t.Open ⟨j, 0⟩ more := by
  induction names generalizing i with
  | nil =>
    obtain rfl : i = j := Option.some.inj h
    exact Iff.rfl
  | cons x names ih =>
    rw [walk_cons] at h
    obtain ⟨k, he, hk⟩ := Option.bind_eq_some_iff.1 h
    rw [List.cons_append, open_cons (isDirIn_of_entryOf he), he]
    exact ih hk

end

end FileTree
