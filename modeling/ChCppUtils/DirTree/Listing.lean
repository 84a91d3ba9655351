import ChCppUtils.Lib.Outline
import ChCppUtils.DirTree.Print

/-!
# The listing that `DirTree::print` writes

A line is the indentation, the key, and a line break. As long as the indentations fit into their array, and no key
begins with a blank or has a line break or a zero in it, the text can be read back: it shows which nodes the tree
has, in the order of their iteration, and nothing else (`readListing_printText`).
-/

namespace ChCppUtils

variable {D : Type}

mutual

/-- The keys of the subtree, and of the trees that follow it. -/
def Node.forest (rest : Forest Str) : Node D → Forest Str
  | .mk key _ children => .cons key children.forest rest

def Children.forest : Children D → Forest Str
  | .nil => .nil
  | .cons _ node rest => node.forest rest.forest

end

namespace DirTree

def forest (t : DirTree D) : Forest Str := t.root.forest .nil

/-- `printf("%s%s\n", format, key.data())` -/
def lineText (line : Str × Str) : Str := line.1 ++ line.2.takeWhile (· ≠ '\x00') ++ ['\n']

/-- What `print()` writes. -/
def printText (t : DirTree D) : Str := t.print.flatMap lineText ++ ['\n']

/-- The level that an indentation stands for, and the key behind it. -/
def readLine (line : Str) : Nat × Str :=
  (((line.takeWhile (· = ' ')).length + 1) / 2 - 2, line.dropWhile (· = ' '))

def readListing (text : Str) : Forest Str := Forest.read 0 ((Split.segs '\n' text).map readLine)

end DirTree

/-! ### The lines of the outline -/

namespace DirTree

/-- The line of a node at this level. -/
def line (x : Nat × Str) : Str × Str := (format (UInt32.ofNat x.1 + 1), x.2)

theorem ofNat_succ (l : Nat) : UInt32.ofNat (l + 1) = UInt32.ofNat l + 1 := UInt32.ofNat_add l 1

end DirTree

mutual

theorem Node.print_eq (F : Forest Str) : ∀ (n : Node D) (l : Nat), n.print (UInt32.ofNat l) ++
    (F.outline l).map DirTree.line = ((n.forest F).outline l).map DirTree.line
  | .mk key data cs, l => by
    have hcs := Children.print_eq cs (l + 1)
    rw [DirTree.ofNat_succ] at hcs
    rw [Node.print, Node.forest, Forest.outline, List.map_cons, List.map_append, hcs]
    rfl

theorem Children.print_eq : ∀ (cs : Children D) (l : Nat),
    cs.print (UInt32.ofNat l) = (cs.forest.outline l).map DirTree.line
  | .nil, _ => rfl
  | .cons _ n r, l => by
    rw [Children.print, Children.print_eq r l, Node.print_eq r.forest n l, Children.forest]

end

/-! ### The nodes -/

mutual

theorem Node.reaches_forest {F : Forest Str} {k : Str} {p : List Str} : ∀ n : Node D, n.Keyed →
    ((n.forest F).Reaches (k :: p) ↔ n.key = k ∧ (n.walk p).isSome ∨ F.Reaches (k :: p))
  | .mk key data cs, h => by
    rw [Node.forest, Forest.reaches_cons]
    cases p with
    | nil =>
      have hcs := Forest.reaches_nil cs.forest
      simp [hcs, Node.key, Node.walk]
    | cons k' p =>
      rw [Children.reaches_forest cs h, Node.walk_cons]
      rfl

theorem Children.reaches_forest {k : Str} {p : List Str} : ∀ cs : Children D, cs.Keyed →
    (cs.forest.Reaches (k :: p) ↔ ((cs.find k).bind fun c => c.walk p).isSome)
  | .nil, _ => iff_of_false Forest.not_reaches_cons nofun
  | .cons k₁ n₁ r, ⟨hk₁, hr₁, hn₁, hr⟩ => by
    rw [Children.forest, Node.reaches_forest n₁ hn₁, Children.reaches_forest r hr, hk₁, Children.find]
    by_cases hk : k₁ = k
    · subst hk
      have hnone : r.find k₁ = none :=
        Option.eq_none_iff_forall_ne_some.2 fun c hc => hr₁ (Children.mem_keys_of_find hc)
      rw [if_pos rfl, hnone]
      simp
    · rw [if_neg hk]
      simp [hk]

end

namespace DirTree

variable {t : DirTree D} {key : Str} {lines : List (Str × Str)}

theorem print_eq (t : DirTree D) : t.print = (t.forest.outline 0).map line := by
  have h := Node.print_eq .nil t.root 0
  rw [Forest.outline, List.map_nil, List.append_nil] at h
  exact h

theorem reaches_forest (k : Str) (p : List Str) : t.forest.Reaches (k :: p) ↔ t.root.key = k ∧ (t.view p).isSome := by
  rw [forest, Node.reaches_forest t.root t.keyed, view, Node.view_isSome]
  exact or_iff_left Forest.not_reaches_cons

/-! ### One line -/

theorem formatLoop_blank {depth : UInt32} {n : Nat} {i : UInt32} {format : Str} (h : ∀ c ∈ format, c = ' ') :
    ∀ c ∈ formatLoop depth n i format, c = ' ' := by
  induction n generalizing i format with
  | zero => exact h
  | succ n ih =>
    rw [formatLoop]
    split
    · refine ih fun c hc => ?_
      rw [strncat, List.mem_append] at hc
      rcases hc with hc | hc
      · exact h c hc
      · have hblank := List.mem_of_mem_take hc
        simpa using hblank
    · exact h

theorem format_blank (depth : UInt32) : ∀ c ∈ format depth, c = ' ' := formatLoop_blank fun _ hc => by cases hc

/-- A key that is read back as it is. -/
structure Clean (key : Str) : Prop where
  head : key.head? ≠ some ' '
  line : '\n' ∉ key
  zero : '\x00' ∉ key

theorem Clean.takeWhile (h : Clean key) : key.takeWhile (· ≠ '\x00') = key := by
  refine List.takeWhile_eq_self_iff.2 fun c hc => decide_eq_true ?_
  rintro rfl
  exact h.zero hc

theorem length_format_level {l : Nat} (hl : l ≤ 510) : (format (UInt32.ofNat l + 1)).length = formatLength (l + 2) := by
  rw [length_format, toNat_level (by omega), Nat.min_eq_left (by omega)]

theorem readLine_line {l : Nat} (hl : l ≤ 510) (h : Clean key) :
    readLine ((line (l, key)).1 ++ (line (l, key)).2) = (l, key) := by
  have hblank : ∀ c ∈ format (UInt32.ofNat l + 1), decide (c = ' ') = true :=
    fun c hc => decide_eq_true (format_blank _ c hc)
  have hkey : key.takeWhile (fun c => decide (c = ' ')) = [] ∧ key.dropWhile (fun c => decide (c = ' ')) = key := by
    cases hk : key with
    | nil => exact ⟨rfl, rfl⟩
    | cons c key' =>
      have hne : c ≠ ' ' := by
        rintro rfl
        exact h.head (by rw [hk]; rfl)
      simp [hne]
  have hlevel : ((format (UInt32.ofNat l + 1)).length + 1) / 2 - 2 = l := by
    rw [length_format_level hl, formatLength]
    split <;> omega
  show readLine (format (UInt32.ofNat l + 1) ++ key) = (l, key)
  rw [readLine, List.takeWhile_append_of_pos hblank, List.dropWhile_append_of_pos hblank, hkey.1, hkey.2,
    List.append_nil, hlevel]

/-! ### The text -/

theorem segs_printText (h : ∀ line ∈ lines, line.1 ≠ [] ∧ (∀ c ∈ line.1, c = ' ') ∧ Clean line.2) :
    Split.segs '\n' (lines.flatMap lineText ++ ['\n']) = lines.map fun line => line.1 ++ line.2 := by
  induction lines with
  | nil => rfl
  | cons x lines ih =>
    obtain ⟨⟨hne, hblank, hclean⟩, hlines⟩ := List.forall_mem_cons.1 h
    have hline : '\n' ∉ x.1 ++ x.2 := by
      rw [List.mem_append, not_or]
      refine ⟨fun hc => ?_, hclean.line⟩
      exact absurd (hblank '\n' hc) (by decide)
    have htext : lineText x = (x.1 ++ x.2) ++ ['\n'] := by rw [lineText, hclean.takeWhile]
    rw [List.flatMap_cons, htext, List.append_assoc, List.append_assoc, List.singleton_append, Split.segs_append_cons,
      ih hlines, Split.segs_of_not_mem hline, if_neg (List.append_ne_nil_of_left_ne_nil hne _)]
    rfl

/-- The listing shows the nodes of the tree and nothing else. -/
theorem readListing_printText (hfits : t.PrintFits) (hclean : ∀ line ∈ t.print, Clean line.2) :
    readListing t.printText = t.forest ∧
      ∀ p, (readListing t.printText).Reaches (t.root.key :: p) ↔ (t.view p).isSome := by
  have hread : readListing t.printText = t.forest := by
    have hlevel : ∀ x ∈ t.forest.outline 0, x.1 ≤ 510 ∧ Clean x.2 := by
      intro x hx
      refine ⟨?_, ?_⟩
      · obtain ⟨p, hp, hlen⟩ := Forest.exists_reaches hx
        cases p with
        | nil => exact hlen ▸ Nat.zero_le _
        | cons k p =>
          have hview := ((reaches_forest k (p ++ [x.2])).1 hp).2
          have hle := (printFits_iff t).1 hfits _ hview
          rw [List.length_append, List.length_singleton] at hle
          rw [hlen, List.length_cons]
          omega
      · refine hclean (line x) ?_
        rw [print_eq]
        exact List.mem_map_of_mem hx
    have hlines : ∀ y ∈ (t.forest.outline 0).map line, y.1 ≠ [] ∧ (∀ c ∈ y.1, c = ' ') ∧ Clean y.2 := by
      intro y hy
      obtain ⟨x, hx, rfl⟩ := List.mem_map.1 hy
      refine ⟨fun hnil => ?_, format_blank _, (hlevel x hx).2⟩
      have hlength := length_format_level (hlevel x hx).1
      rw [show format (UInt32.ofNat x.1 + 1) = [] from hnil, formatLength, List.length_nil] at hlength
      split at hlength
      · omega
      · omega
    rw [readListing, printText, print_eq, segs_printText hlines, List.map_map, List.map_map]
    have hid : (t.forest.outline 0).map ((readLine ∘ fun line => line.1 ++ line.2) ∘ line) = t.forest.outline 0 := by
      refine (List.map_congr_left fun x hx => ?_).trans (List.map_id _)
      exact readLine_line (hlevel x hx).1 (hlevel x hx).2
    rw [hid, Forest.read_outline]
  refine ⟨hread, fun p => ?_⟩
  rw [hread, reaches_forest]
  exact and_iff_right rfl

instance (key : Str) : Decidable (Clean key) :=
  decidable_of_iff (key.head? ≠ some ' ' ∧ '\n' ∉ key ∧ '\x00' ∉ key)
    ⟨fun h => ⟨h.1, h.2.1, h.2.2⟩, fun h => ⟨h.head, h.line, h.zero⟩⟩

/-- `./a/b` and `./a`, with the lines of the root, `.`, `a` and `b`. -/
theorem readListing_printText_two :
    readListing (((new : DirTree Nat).insert "./a/b".toList (some 0)).insert "./a".toList (some 1)).printText =
      .cons "root".toList (.cons ".".toList (.cons "a".toList (.cons "b".toList .nil .nil) .nil) .nil) .nil := by
  have hfits : (((new : DirTree Nat).insert "./a/b".toList (some 0)).insert "./a".toList (some 1)).PrintFits := by
    unfold PrintFits
    decide
  exact (readListing_printText hfits (by decide)).1

end DirTree

end ChCppUtils
