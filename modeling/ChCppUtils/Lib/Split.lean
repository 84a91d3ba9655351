import Mathlib.Data.List.Basic
import Mathlib.Data.List.TakeWhile

/-!
# Lists cut at a separator

A list cut at every `sep` is a list of pieces (`List.splitOn`), some of them empty. `segs` keeps the
non-empty pieces, `lead` only those before the first empty one, `rest` the non-empty ones after it.
`next` reads the piece that starts at an offset; walking the offsets past each piece and its
separator until an empty piece is met enumerates `lead` (`lead_drop`), not `segs`.
-/

namespace Split

variable {α : Type*} [DecidableEq α] (sep : α)

/-- The piece of `xs` that starts at offset `frm`: up to the next separator, or to the end. -/
def next (xs : List α) (frm : Nat) : List α :=
  if xs.length ≤ frm then []
  else match (xs.drop frm).findIdx? (· == sep) with
    | some n => (xs.drop frm).take n
    | none => xs.drop frm

def segs (xs : List α) : List (List α) := (xs.splitOn sep).filter (!·.isEmpty)

def lead (xs : List α) : List (List α) := (xs.splitOn sep).takeWhile (!·.isEmpty)

def rest (xs : List α) : List (List α) :=
  ((xs.splitOn sep).dropWhile (!·.isEmpty)).filter (!·.isEmpty)

variable {sep}

theorem lead_append_rest (xs : List α) : lead sep xs ++ rest sep xs = segs sep xs := by
  have hl : (lead sep xs).filter (!·.isEmpty) = lead sep xs :=
    List.filter_eq_self.2 fun s hs => List.mem_takeWhile_imp (p := fun s : List α => !s.isEmpty) hs
  rw [← hl, lead, rest, segs, ← List.filter_append, List.takeWhile_append_dropWhile]

theorem lead_eq_splitOn {xs : List α} (h : [] ∉ xs.splitOn sep) : lead sep xs = xs.splitOn sep :=
  List.takeWhile_eq_self_iff.2 fun s hs => by
    have hne : s ≠ [] := fun he => h (he ▸ hs)
    simpa using hne

theorem ne_nil_of_mem_lead {xs s : List α} (h : s ∈ lead sep xs) : s ≠ [] := by
  simpa using List.mem_takeWhile_imp (p := fun s : List α => !s.isEmpty) h

/-- What stands behind a separator does not change the leading pieces before it. -/
theorem lead_prefix_lead_append (xs ys : List α) : lead sep xs <+: lead sep (xs ++ sep :: ys) := by
  unfold lead
  rw [List.splitOn_append_cons_self, List.takeWhile_append]
  split
  · exact (List.takeWhile_prefix _).trans (List.prefix_append _ _)
  · exact List.prefix_rfl

/-- Behind an empty piece nothing is looked at. -/
theorem lead_append_of_nil_mem {xs : List α} (h : [] ∈ xs.splitOn sep) (ys : List α) :
    lead sep (xs ++ sep :: ys) = lead sep xs := by
  unfold lead
  rw [List.splitOn_append_cons_self, List.takeWhile_append, if_neg]
  intro hl
  have hall := List.takeWhile_eq_self_iff.1 ((List.takeWhile_prefix _).eq_of_length hl) [] h
  simp at hall

theorem lead_append_of_nil_not_mem {xs : List α} (h : [] ∉ xs.splitOn sep) (ys : List α) :
    lead sep (xs ++ sep :: ys) = lead sep xs ++ lead sep ys := by
  have hall : (xs.splitOn sep).takeWhile (!·.isEmpty) = xs.splitOn sep := lead_eq_splitOn h
  unfold lead
  rw [List.splitOn_append_cons_self, List.takeWhile_append, hall, if_pos rfl]

theorem lead_concat (xs : List α) : lead sep (xs ++ [sep]) = lead sep xs := by
  unfold lead
  rw [List.splitOn_append_cons_self, List.takeWhile_append]
  split
  · rename_i hl
    rw [(List.takeWhile_prefix _).eq_of_length hl]
    simp
  · rfl

theorem splitOn_eq_takeWhile (xs : List α) :
    xs.splitOn sep = xs.takeWhile (· ≠ sep) ::
      (match xs.dropWhile (· ≠ sep) with
        | [] => []
        | _ :: t => t.splitOn sep) := by
  induction xs with
  | nil => rfl
  | cons x xs ih =>
    rw [List.splitOn_cons_eq_if_modifyHead]
    by_cases hx : x = sep
    · simp [hx]
    · rw [ih]; simp [hx]

omit [DecidableEq α] in
theorem drop_length_takeWhile (p : α → Bool) (xs : List α) :
    xs.drop (xs.takeWhile p).length = xs.dropWhile p := by
  induction xs with
  | nil => rfl
  | cons x xs ih => cases hx : p x <;> simp [hx, ih]

theorem lead_eq_takeWhile (xs : List α) :
    lead sep xs = if xs.takeWhile (· ≠ sep) = [] then [] else
      xs.takeWhile (· ≠ sep) :: lead sep (xs.drop ((xs.takeWhile (· ≠ sep)).length + 1)) := by
  have hd : xs.drop ((xs.takeWhile (· ≠ sep)).length + 1) = (xs.dropWhile (· ≠ sep)).drop 1 := by
    rw [← List.drop_drop, drop_length_takeWhile]
  rw [hd]
  conv_lhs => rw [lead, splitOn_eq_takeWhile]
  generalize xs.takeWhile (· ≠ sep) = piece
  cases piece with
  | nil => rfl
  | cons x piece =>
    cases xs.dropWhile (· ≠ sep) with
    | nil => rfl
    | cons y t => rfl

theorem next_eq_takeWhile (xs : List α) (frm : Nat) :
    next sep xs frm = (xs.drop frm).takeWhile (· ≠ sep) := by
  unfold next
  split
  · rename_i h; simp [List.drop_eq_nil_of_le h]
  · generalize xs.drop frm = ys
    induction ys with
    | nil => rfl
    | cons y ys ih =>
      by_cases hy : y = sep
      · simp [List.findIdx?_cons, hy]
      · rw [List.findIdx?_cons]
        simp only [beq_iff_eq, hy, if_false, List.takeWhile_cons, ne_eq, not_false_eq_true,
          decide_true, if_true]
        rw [← ih]
        cases ys.findIdx? (· == sep) <;> simp

theorem lead_drop (xs : List α) (frm : Nat) :
    lead sep (xs.drop frm) = if next sep xs frm = [] then [] else
      next sep xs frm :: lead sep (xs.drop (frm + (next sep xs frm).length + 1)) := by
  rw [lead_eq_takeWhile, ← next_eq_takeWhile, List.drop_drop, Nat.add_assoc]

theorem next_of_le {xs : List α} {frm : Nat} (h : xs.length ≤ frm) : next sep xs frm = [] := by
  simp [next, h]

theorem lt_of_next_ne_nil {xs : List α} {frm : Nat} (h : next sep xs frm ≠ []) : frm < xs.length :=
  Nat.lt_of_not_le fun hle => h (next_of_le hle)

/-! ### The last separator -/

/-- The position of the last `sep`. -/
def rfind (sep : α) (xs : List α) : Option Nat :=
  (xs.reverse.findIdx? (· == sep)).map fun i => xs.length - 1 - i

/-- What stands before the last separator; everything where there is none. -/
def upToLast (sep : α) (xs : List α) : List α :=
  match rfind sep xs with
  | some pos => xs.take pos
  | none => xs

theorem rfind_append {xs ys : List α} (h : sep ∉ ys) : rfind sep (xs ++ sep :: ys) = some xs.length := by
  have hf : (ys.reverse ++ sep :: xs.reverse).findIdx? (· == sep) = some ys.length := by
    rw [List.findIdx?_append, List.findIdx?_eq_none_iff.2 (by simp; rintro x hx rfl; exact h hx)]
    simp [List.findIdx?_cons]
  rw [rfind, List.reverse_append, List.reverse_cons, List.append_assoc, List.singleton_append, hf]
  simp only [Option.map_some, List.length_append, List.length_cons]
  congr 1
  omega

theorem rfind_eq_none {xs : List α} (h : sep ∉ xs) : rfind sep xs = none := by
  rw [rfind, List.findIdx?_eq_none_iff.2 (by simp; rintro x hx rfl; exact h hx)]
  rfl

theorem head?_of_rfind_zero {xs : List α} (h : rfind sep xs = some 0) : xs.head? = some sep := by
  by_cases hm : sep ∈ xs
  · obtain ⟨ys, zs, hxs, hys⟩ := List.eq_append_cons_of_mem (List.mem_reverse.2 hm)
    rw [List.reverse_eq_iff, List.reverse_append, List.reverse_cons, List.append_assoc,
      List.singleton_append] at hxs
    rw [hxs, rfind_append (by simpa using hys)] at h
    have hzs : zs.reverse = [] := List.length_eq_zero_iff.1 (Option.some.inj h)
    rw [hxs, hzs]
    rfl
  · rw [rfind_eq_none hm] at h
    cases h

theorem upToLast_append {xs ys : List α} (h : sep ∉ ys) : upToLast sep (xs ++ sep :: ys) = xs := by
  rw [upToLast, rfind_append h]
  simp

theorem exists_eq_upToLast {xs : List α} (h : sep ∈ xs) :
    ∃ last, xs = upToLast sep xs ++ sep :: last ∧ sep ∉ last := by
  obtain ⟨ys, zs, hxs, hys⟩ := List.eq_append_cons_of_mem (List.mem_reverse.2 h)
  rw [List.reverse_eq_iff, List.reverse_append, List.reverse_cons, List.append_assoc,
    List.singleton_append] at hxs
  have hlast : sep ∉ ys.reverse := by simpa using hys
  refine ⟨ys.reverse, ?_, hlast⟩
  conv_rhs => rw [hxs, upToLast_append hlast]
  exact hxs

theorem upToLast_of_not_mem {xs : List α} (h : sep ∉ xs) : upToLast sep xs = xs := by
  rw [upToLast, rfind_eq_none h]

/-! ### Pieces put together -/

theorem not_mem_of_mem_splitOn {xs s : List α} (h : s ∈ xs.splitOn sep) : sep ∉ s := by
  induction xs generalizing s with
  | nil =>
    rw [List.splitOn_nil, List.mem_singleton] at h
    simp [h]
  | cons x xs ih =>
    rw [List.splitOn_cons_eq_if_modifyHead] at h
    by_cases hx : x = sep
    · rw [if_pos (by simp [hx])] at h
      rcases List.mem_cons.1 h with rfl | h
      · simp
      · exact ih h
    · rw [if_neg (by simp [hx])] at h
      obtain ⟨y, ys, hys⟩ := List.exists_cons_of_ne_nil (List.splitOn_ne_nil sep xs)
      rw [hys] at h ih
      rcases List.mem_cons.1 h with rfl | h
      · simp only [List.mem_cons, not_or]
        exact ⟨Ne.symm hx, ih List.mem_cons_self⟩
      · exact ih (List.mem_cons_of_mem y h)

theorem not_mem_of_mem_lead {xs s : List α} (h : s ∈ lead sep xs) : sep ∉ s :=
  not_mem_of_mem_splitOn ((List.takeWhile_prefix _).subset h)

/-- Each piece behind a separator. -/
def behind (sep : α) (ss : List (List α)) : List α := ss.flatMap (sep :: ·)

theorem splitOn_append_behind {ss : List (List α)} (h : ∀ s ∈ ss, sep ∉ s) (xs : List α) :
    (xs ++ behind sep ss).splitOn sep = xs.splitOn sep ++ ss := by
  induction ss generalizing xs with
  | nil => simp [behind]
  | cons s ss ih =>
    have hs : s.splitOn sep = [s] := List.splitOn_eq_singleton (h s List.mem_cons_self)
    have hcons : xs ++ behind sep (s :: ss) = (xs ++ sep :: s) ++ behind sep ss := by simp [behind]
    rw [hcons, ih fun s hs => h s (List.mem_cons_of_mem _ hs), List.splitOn_append_cons_self, hs]
    simp

/-- Names put behind a list are among its leading pieces where it has no empty piece. -/
theorem lead_append_behind {ss : List (List α)} (h : ∀ s ∈ ss, s ≠ [] ∧ sep ∉ s) (xs : List α) :
    lead sep (xs ++ behind sep ss) = if [] ∈ xs.splitOn sep then lead sep xs else xs.splitOn sep ++ ss := by
  have hss : ss.takeWhile (fun s => !s.isEmpty) = ss :=
    List.takeWhile_eq_self_iff.2 fun s hs => by simpa using (h s hs).1
  unfold lead
  rw [splitOn_append_behind fun s hs => (h s hs).2, List.takeWhile_append]
  by_cases hmem : [] ∈ xs.splitOn sep
  · rw [if_pos hmem, if_neg]
    intro hl
    have hall := List.takeWhile_eq_self_iff.1 ((List.takeWhile_prefix _).eq_of_length hl) [] hmem
    simp at hall
  · have hall : (xs.splitOn sep).takeWhile (fun s => !s.isEmpty) = xs.splitOn sep := lead_eq_splitOn hmem
    rw [if_neg hmem, hall, if_pos rfl, hss]

/-! ### Non-empty pieces -/

theorem segs_append_cons (xs ys : List α) : segs sep (xs ++ sep :: ys) = segs sep xs ++ segs sep ys := by
  rw [segs, List.splitOn_append_cons_self, List.filter_append]
  rfl

theorem segs_of_not_mem {xs : List α} (h : sep ∉ xs) : segs sep xs = if xs = [] then [] else [xs] := by
  rw [segs, List.splitOn_eq_singleton h]
  cases xs <;> rfl

omit [DecidableEq α]

@[simp] theorem behind_nil : behind sep [] = [] := rfl

@[simp] theorem behind_cons (s : List α) (ss : List (List α)) :
    behind sep (s :: ss) = sep :: s ++ behind sep ss := rfl

theorem behind_append (ss ts : List (List α)) : behind sep (ss ++ ts) = behind sep ss ++ behind sep ts :=
  List.flatMap_append

theorem intercalate_cons (s : List α) (ss : List (List α)) :
    [sep].intercalate (s :: ss) = s ++ behind sep ss := by
  induction ss generalizing s with
  | nil => simp
  | cons t ss ih => rw [List.intercalate_cons_cons, ih, behind_cons]; simp

theorem intercalate_append {ss : List (List α)} (hss : ss ≠ []) (ts : List (List α)) :
    [sep].intercalate (ss ++ ts) = [sep].intercalate ss ++ behind sep ts := by
  obtain ⟨s, ss, rfl⟩ := List.exists_cons_of_ne_nil hss
  rw [List.cons_append, intercalate_cons, intercalate_cons, behind_append, List.append_assoc]

end Split
