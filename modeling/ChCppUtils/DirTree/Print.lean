import Mathlib.Algebra.Group.Nat.Defs
import ChCppUtils.DirTree.DropPaths

/-!
# `DirTree::print`

The indentation of a line is put together in an array of 1024 bytes, two blanks at a time. The bound that
`strncat` gets is smaller by 3 for each of them and wraps around at the 343rd: it cuts off one blank and then
none, so the string fits for the first 510 levels below the root and for no other (`printFits_iff`).
-/

namespace ChCppUtils

variable {D : Type}

/-- `strncat(dest, src, n)` -/
def strncat (dest src : Str) (n : UInt64) : Str := dest ++ src.take n.toNat

namespace DirTree

/-- `sizeof(format)` and `sizeof("  ")`. -/
def sizeofFormat : UInt64 := 1024
def sizeofBlanks : UInt64 := 3

/-- The loop of `print`; the second argument bounds its iterations. -/
def formatLoop (depth : UInt32) : Nat → UInt32 → Str → Str
  | 0, _, format => format
  | n + 1, i, format =>
    if i ≤ depth ∧ i.toUInt64 < sizeofFormat then
      formatLoop depth n (i + 1) (strncat format [' ', ' '] (sizeofFormat - sizeofBlanks * i.toUInt64))
    else format

def format (depth : UInt32) : Str := formatLoop depth 1025 0 []

end DirTree

mutual

/-- `print(node, depth)`: the lines, each as its indentation and the key behind it. -/
def Node.print (depth : UInt32) : Node D → List (Str × Str)
  | .mk key _ children => (DirTree.format (depth + 1), key) :: children.print (depth + 1)

def Children.print (depth : UInt32) : Children D → List (Str × Str)
  | .nil => []
  | .cons _ node rest => node.print depth ++ rest.print depth

end

namespace DirTree

def print (t : DirTree D) : List (Str × Str) := t.root.print 0

/-! ### The length of an indentation -/

/-- The length of the string after `k` blanks of two. -/
def formatLength (k : Nat) : Nat := if k ≤ 341 then 2 * k else 2 * k - 1

theorem toNat_bound {i : UInt32} (h : i.toNat < 1024) : (sizeofFormat - sizeofBlanks * i.toUInt64).toNat =
    if i.toNat ≤ 341 then 1024 - 3 * i.toNat else 2 ^ 64 + 1024 - 3 * i.toNat := by
  have h3 : sizeofBlanks.toNat = 3 := rfl
  have h1024 : sizeofFormat.toNat = 1024 := rfl
  have hmul : (sizeofBlanks * i.toUInt64).toNat = 3 * i.toNat := by
    rw [UInt64.toNat_mul, UInt32.toNat_toUInt64, h3]
    exact Nat.mod_eq_of_lt (by omega)
  rw [UInt64.toNat_sub, hmul, h1024]
  split <;> omega

theorem length_strncat (dest src : Str) (n : UInt64) :
    (strncat dest src n).length = dest.length + min n.toNat src.length := by
  rw [strncat, List.length_append, List.length_take]

/-- One turn of the loop: at `i = 341` the bound is 1. -/
theorem length_strncat_blanks {i : UInt32} {format : Str} (hi : i.toNat < 1024)
    (hlen : format.length = formatLength i.toNat) :
    (strncat format [' ', ' '] (sizeofFormat - sizeofBlanks * i.toUInt64)).length = formatLength (i.toNat + 1) := by
  rw [length_strncat, toNat_bound hi, hlen, formatLength, formatLength, List.length_cons, List.length_singleton]
  split <;> split <;> omega

theorem length_formatLoop {depth : UInt32} {n : Nat} {i : UInt32} {format : Str} (hn : 1024 < n + i.toNat)
    (hi : i.toNat ≤ min (depth.toNat + 1) 1024) (hlen : format.length = formatLength i.toNat) :
    (formatLoop depth n i format).length = formatLength (min (depth.toNat + 1) 1024) := by
  induction n generalizing i format with
  | zero => omega
  | succ n ih =>
    rw [formatLoop]
    have hlt : i.toUInt64 < sizeofFormat ↔ i.toNat < 1024 := by
      rw [UInt64.lt_iff_toNat_lt, UInt32.toNat_toUInt64]
      rfl
    split
    · rename_i h
      rw [UInt32.le_iff_toNat_le, hlt] at h
      have hsucc : (i + 1).toNat = i.toNat + 1 := by
        rw [UInt32.toNat_add]
        exact Nat.mod_eq_of_lt (by have : (1 : UInt32).toNat = 1 := rfl; omega)
      refine ih (by omega) (by omega) ?_
      rw [hsucc]
      exact length_strncat_blanks h.2 hlen
    · rename_i h
      rw [UInt32.le_iff_toNat_le, hlt] at h
      rw [hlen]
      congr 1
      omega

theorem length_format (depth : UInt32) : (format depth).length = formatLength (min (depth.toNat + 1) 1024) :=
  length_formatLoop (by decide) (by simp) rfl

/-- The 513th pair of blanks does not fit. -/
theorem length_format_le_iff {depth : UInt32} : (format depth).length ≤ 1023 ↔ depth.toNat ≤ 511 := by
  rw [length_format, formatLength]
  split <;> omega

/-! ### The lines -/

end DirTree

mutual

/-- One line for each node, its indentation for the level of the node. -/
theorem Node.mem_print {line : Str × Str} : ∀ (n : Node D) (depth : UInt32), n.Keyed →
    (line ∈ n.print depth ↔ ∃ p c, n.walk p = some c ∧
      line = (DirTree.format (depth + UInt32.ofNat p.length + 1), c.key))
  | .mk key data cs, depth, h => by
    have hlevel : ∀ (k : Str) (p : List Str),
        depth + UInt32.ofNat (k :: p).length + 1 = depth + 1 + UInt32.ofNat p.length + 1 := by
      intro k p
      rw [List.length_cons, UInt32.ofNat_add]
      ac_rfl
    rw [Node.print, List.mem_cons, Children.mem_print cs (depth + 1) h]
    constructor
    · rintro (rfl | ⟨k, c, hf, p, c', hw, rfl⟩)
      · exact ⟨[], _, rfl, by simp [Node.key]⟩
      · refine ⟨k :: p, c', ?_, by rw [hlevel]⟩
        rw [Node.walk_cons, show (Node.mk key data cs).getChild k = some c from hf]
        exact hw
    · rintro ⟨p, c', hw, rfl⟩
      cases p with
      | nil =>
        obtain rfl := Option.some.inj hw
        exact .inl (by simp [Node.key])
      | cons k p =>
        rw [Node.walk_cons] at hw
        obtain ⟨c, hc, hw⟩ := Option.bind_eq_some_iff.1 hw
        exact .inr ⟨k, c, hc, p, c', hw, by rw [hlevel]⟩

theorem Children.mem_print {line : Str × Str} : ∀ (cs : Children D) (depth : UInt32), cs.Keyed →
    (line ∈ cs.print depth ↔ ∃ k c, cs.find k = some c ∧ ∃ p c', c.walk p = some c' ∧
      line = (DirTree.format (depth + UInt32.ofNat p.length + 1), c'.key))
  | .nil, _, _ => by simp [Children.print, Children.find]
  | .cons k₁ n₁ r, depth, ⟨_, hr₁, hn₁, hr⟩ => by
    rw [Children.print, List.mem_append, Node.mem_print n₁ depth hn₁, Children.mem_print r depth hr,
      Children.exists_find_cons hr₁]

end

namespace DirTree

open Split

variable {t : DirTree D}

theorem mem_print {line : Str × Str} : line ∈ t.print ↔ ∃ p c, t.root.walk p = some c ∧
    line = (format (UInt32.ofNat p.length + 1), c.key) := by
  rw [print, t.root.mem_print 0 t.keyed]
  simp

/-- No string put together in the array is longer than what fits before the end mark. -/
def PrintFits (t : DirTree D) : Prop := ∀ line ∈ t.print, line.1.length ≤ 1023

theorem toNat_level {l : Nat} (hl : l ≤ 511) : (UInt32.ofNat l + 1).toNat = l + 1 := by
  rw [UInt32.toNat_add, UInt32.toNat_ofNat_of_lt' (show l < 2 ^ 32 by omega)]
  exact Nat.mod_eq_of_lt (by have : (1 : UInt32).toNat = 1 := rfl; omega)

theorem exists_long_line {p : List Str} (hp : (t.view p).isSome) (hlen : 510 < p.length) :
    ∃ line ∈ t.print, ¬ line.1.length ≤ 1023 := by
  have hsome := t.view_prefixClosed (p.take 511) p (List.take_prefix _ _) hp
  rw [view, Node.view_isSome] at hsome
  obtain ⟨c, hc⟩ := Option.isSome_iff_exists.1 hsome
  refine ⟨_, mem_print.2 ⟨p.take 511, c, hc, rfl⟩, ?_⟩
  have hlevel : (p.take 511).length = 511 := by rw [List.length_take]; omega
  rw [hlevel, length_format_le_iff, toNat_level le_rfl]
  decide

/-- The indentations fit into the array for the trees of at most 510 levels below the root. -/
theorem printFits_iff (t : DirTree D) : t.PrintFits ↔ ∀ p, (t.view p).isSome → p.length ≤ 510 := by
  constructor
  · intro h p hp
    by_contra hlen
    obtain ⟨line, hm, hlong⟩ := exists_long_line hp (not_le.1 hlen)
    exact hlong (h line hm)
  · intro h line hm
    obtain ⟨p, c, hw, rfl⟩ := mem_print.1 hm
    have hlen := h p (by rw [view, Node.view_isSome, hw]; rfl)
    rw [length_format_le_iff, toNat_level (by omega)]
    omega

/-- `.` and 510 times `/a` behind it. -/
def deepKey : Str := ['.'] ++ behind '/' (List.replicate 510 ['a'])

theorem tokens_deepKey : tokens deepKey = ['.'] :: List.replicate 510 ['a'] := by
  have hnames : ∀ s ∈ List.replicate 510 ['a'], IsName s := by
    intro s hs
    rw [List.eq_of_mem_replicate hs]
    exact ⟨by decide, by decide⟩
  rw [deepKey, tokens_append_behind rfl hnames, if_neg (by decide)]
  rfl

/-- The indentation of the node at this key is 1025 bytes long. -/
theorem not_printFits_deep : ¬ ((new : DirTree Nat).insert deepKey (some 0)).PrintFits := by
  intro h
  have hsome : (((new : DirTree Nat).insert deepKey (some 0)).view (tokens deepKey)).isSome := by
    rw [view_insert, PathMap.insert_self]
    rfl
  have hlevel : 510 < (tokens deepKey).length := by
    rw [tokens_deepKey, List.length_cons, List.length_replicate]
    decide
  obtain ⟨line, hm, hlong⟩ := exists_long_line hsome hlevel
  exact hlong (h line hm)

end DirTree

end ChCppUtils
