import Mathlib.Algebra.Group.Nat.Defs
import Mathlib.Data.List.DropRight
import Mathlib.Data.Nat.Init

/-!
# Reading a text by a format

`sscanf` with the conversions of one character, of a decimal number and of a word, and with blanks between them.
It stops at the first directive that finds nothing to read, with the values it has until then. `scan_line`: a
line of fields that were printed is read back field by field, also if it has less fields than the format or
more.
-/

namespace Scan

/-- A type of integers. -/
structure Kind where
  bits : Nat
  signed : Bool
deriving DecidableEq, Repr

namespace Kind

/-- How many values there are. -/
def size (k : Kind) : Nat := 2 ^ k.bits

/-- How many of them are negative. -/
def negatives (k : Kind) : Nat := if k.signed then 2 ^ (k.bits - 1) else 0

/-- A value of another type, as one of this. -/
def wrap (k : Kind) (v : Int) : Int := (v + k.negatives) % k.size - k.negatives

/-- What `strtol` gives for these digits, or `strtoul`, stored in the type. -/
def store (k : Kind) (negative : Bool) (magnitude : Nat) : Int :=
  if k.signed then
    if negative then k.wrap (-(min magnitude (2 ^ 63) : Nat)) else k.wrap (min magnitude (2 ^ 63 - 1) : Nat)
  else if magnitude < 2 ^ 64 then
    if negative then k.wrap (-(magnitude : Nat)) else k.wrap magnitude
  else k.wrap (2 ^ 64 - 1 : Nat)

/-- A value of the type, which is no wider than a `long`. -/
structure Holds (k : Kind) (v : Int) : Prop where
  bits : k.bits ≤ 64
  min : -(k.negatives : Int) ≤ v
  max : v + k.negatives < k.size

variable {k : Kind} {v : Int}

theorem holds_iff : k.Holds v ↔ k.bits ≤ 64 ∧ -(k.negatives : Int) ≤ v ∧ v + k.negatives < k.size :=
  ⟨fun h => ⟨h.bits, h.min, h.max⟩, fun ⟨hbits, hmin, hmax⟩ => ⟨hbits, hmin, hmax⟩⟩

instance (k : Kind) (v : Int) : Decidable (k.Holds v) := decidable_of_iff' _ holds_iff

theorem wrap_eq (h : k.Holds v) : k.wrap v = v := by
  have hmin := h.min
  rw [wrap, Int.emod_eq_of_lt (by omega) h.max]
  omega

theorem size_le (h : k.bits ≤ 64) : k.size ≤ 2 ^ 64 := Nat.pow_le_pow_right Nat.two_pos h

theorem negatives_le (h : k.bits ≤ 64) : k.negatives ≤ 2 ^ 63 := by
  unfold negatives
  split
  · exact Nat.pow_le_pow_right Nat.two_pos (by omega)
  · exact Nat.zero_le _

theorem size_le_negatives (h : k.bits ≤ 64) (hs : k.signed = true) : k.size ≤ k.negatives + 2 ^ 63 := by
  rw [size, negatives, if_pos hs]
  cases hb : k.bits with
  | zero => exact Nat.add_le_add_left (by decide : 0 ≤ 2 ^ 63) 1
  | succ b =>
    have hle : 2 ^ b ≤ 2 ^ 63 := Nat.pow_le_pow_right Nat.two_pos (by omega)
    rw [Nat.pow_succ, Nat.add_sub_cancel]
    omega

theorem store_eq (h : k.Holds v) : k.store (decide (v < 0)) v.natAbs = v := by
  have hmin := h.min
  have hmax := h.max
  have hneg := negatives_le h.bits
  have hsize := size_le h.bits
  rw [store]
  split
  · rename_i hs
    have hhalf := size_le_negatives h.bits hs
    split
    · rename_i hlt
      have hlt := of_decide_eq_true hlt
      rw [Nat.min_eq_left (by omega), show -((v.natAbs : Nat) : Int) = v by omega]
      exact wrap_eq h
    · rename_i hge
      have hge : ¬ v < 0 := fun hlt => hge (decide_eq_true hlt)
      rw [Nat.min_eq_left (by omega), show ((v.natAbs : Nat) : Int) = v by omega]
      exact wrap_eq h
  · rename_i hs
    have hzero : k.negatives = 0 := if_neg hs
    rw [hzero] at hmin hmax
    rw [if_pos (by omega), if_neg (by simp; omega), show ((v.natAbs : Nat) : Int) = v by omega]
    exact wrap_eq h

end Kind

/-! ### Directives -/

inductive Directive where
  /-- A blank in the format: any number of blanks in the text. -/
  | blank
  | char
  | num (k : Kind)
  /-- Read and not stored. -/
  | skipNum
  | skipWord
deriving DecidableEq, Repr

inductive Value where
  | char (c : Char)
  | num (v : Int)
deriving DecidableEq, Repr

def isspace (c : Char) : Bool := c == ' ' || ('\t' ≤ c && c ≤ '\r')

/-- A sign in front of a number. -/
def sign : List Char → Bool × List Char
  | '-' :: text => (true, text)
  | '+' :: text => (false, text)
  | text => (false, text)

/-- The number at the front of a text, behind blanks: its sign and digits, and what is left. -/
def number (text : List Char) : Option (Bool × Nat × List Char) :=
  let (negative, text) := sign (text.dropWhile isspace)
  let digits := text.takeWhile Char.isDigit
  if digits = [] then none else some (negative, Nat.ofDigitChars 10 digits 0, text.dropWhile Char.isDigit)

/-- What is left behind a word. -/
def word (text : List Char) : Option (List Char) :=
  let text := text.dropWhile isspace
  if text = [] then none else some (text.dropWhile (!isspace ·))

/-- The values stored until a directive fails. -/
def scan : List Directive → List Char → List Value
  | [], _ => []
  | .blank :: ds, text => scan ds (text.dropWhile isspace)
  | .char :: _, [] => []
  | .char :: ds, c :: text => .char c :: scan ds text
  | .num k :: ds, text =>
    match number text with
    | some (negative, magnitude, text) => .num (k.store negative magnitude) :: scan ds text
    | none => []
  | .skipNum :: ds, text =>
    match number text with
    | some (_, _, text) => scan ds text
    | none => []
  | .skipWord :: ds, text =>
    match word text with
    | some text => scan ds text
    | none => []

/-- The type that the letters of a conversion name. -/
def kind? : List Char → Option (Kind × List Char)
  | 'd' :: format => some (⟨32, true⟩, format)
  | 'l' :: 'd' :: format => some (⟨64, true⟩, format)
  | 'l' :: 'u' :: format | 'L' :: 'u' :: format => some (⟨64, false⟩, format)
  | _ => none

/-- A format, as far as it has the conversions above. -/
def directives : Nat → List Char → Option (List Directive)
  | _, [] => some []
  | 0, _ => none
  | fuel + 1, '%' :: 'c' :: format => (directives fuel format).map (.char :: ·)
  | fuel + 1, '%' :: '*' :: 's' :: format => (directives fuel format).map (.skipWord :: ·)
  | fuel + 1, '%' :: '*' :: format => do
    let (_, format) ← kind? format
    (directives fuel format).map (.skipNum :: ·)
  | fuel + 1, '%' :: format => do
    let (k, format) ← kind? format
    (directives fuel format).map (.num k :: ·)
  | fuel + 1, ' ' :: format => (directives fuel format).map (.blank :: ·)
  | _ + 1, _ => none

/-! ### What is printed is read back -/

/-- A field of a line. -/
inductive Field where
  | num (v : Int)
  | word (w : List Char)

def showNum (v : Int) : List Char := (if v < 0 then ['-'] else []) ++ Nat.toDigits 10 v.natAbs

def Field.show : Field → List Char
  | .num v => showNum v
  | .word w => w

/-- The fields of a line, with a blank in front of each, and its end. -/
def line (fields : List Field) : List Char := fields.flatMap (' ' :: ·.show) ++ ['\n']

/-- The conversion is the one for the field. -/
inductive Fits : Directive → Field → Prop
  | num {k : Kind} {v : Int} (h : k.Holds v) : Fits (.num k) (.num v)
  | skipNum (v : Int) : Fits .skipNum (.num v)
  | skipWord (f : Field) (hne : f.show ≠ []) (hw : ∀ c ∈ f.show, isspace c = false) : Fits .skipWord f

def stored : Directive → Field → Option Value
  | .num _, .num v => some (.num v)
  | _, _ => none

variable {v : Int} {text : List Char} {c : Char}

theorem isspace_of_isDigit (h : c.isDigit = true) : isspace c = false := by
  have h48 : 48 ≤ c.toNat := by
    simp only [Char.isDigit, Bool.and_eq_true, decide_eq_true_eq] at h
    exact h.1
  have hne : c ≠ ' ' := by
    rintro rfl
    exact absurd h48 (by decide)
  have hle : ¬ c ≤ '\r' := fun hle => by
    have : c.toNat ≤ 13 := hle
    omega
  simp [isspace, hne, hle]

theorem isDigit_toDigits (n : Nat) : ∀ c ∈ Nat.toDigits 10 n, c.isDigit = true :=
  fun _ => Nat.isDigit_of_mem_toDigits (by decide) (by decide)

theorem line_cons (f : Field) (fields : List Field) : line (f :: fields) = ' ' :: (f.show ++ line fields) := by
  simp [line]

theorem line_head (fields : List Field) : ∃ c rest, line fields = c :: rest ∧ isspace c = true ∧ c.isDigit = false := by
  cases fields with
  | nil => exact ⟨'\n', [], rfl, rfl, rfl⟩
  | cons f fields => exact ⟨' ', _, line_cons f fields, rfl, rfl⟩

theorem takeWhile_digits (n : Nat) (hc : c.isDigit = false) (rest : List Char) :
    (Nat.toDigits 10 n ++ c :: rest).takeWhile Char.isDigit = Nat.toDigits 10 n ∧
      (Nat.toDigits 10 n ++ c :: rest).dropWhile Char.isDigit = c :: rest := by
  rw [List.takeWhile_append_of_pos (isDigit_toDigits n), List.dropWhile_append_of_pos (isDigit_toDigits n)]
  simp [hc]

theorem sign_of_isDigit (h : c.isDigit = true) (text : List Char) : sign (c :: text) = (false, c :: text) := by
  unfold sign
  split
  · rename_i heq
    cases heq
    cases h
  · rename_i heq
    cases heq
    cases h
  · rfl

theorem sign_showNum (v : Int) (text : List Char) :
    sign ((showNum v ++ text).dropWhile isspace) = (decide (v < 0), Nat.toDigits 10 v.natAbs ++ text) := by
  unfold showNum
  split
  · rename_i h
    simp [sign, h, isspace]
  · rename_i h
    obtain ⟨c, cs, hcs⟩ := List.exists_cons_of_ne_nil (Nat.toDigits_ne_nil (n := v.natAbs) (b := 10))
    have hc : c.isDigit = true := isDigit_toDigits v.natAbs c (by simp [hcs])
    rw [List.nil_append, hcs, List.cons_append, List.dropWhile_cons, if_neg (by simp [isspace_of_isDigit hc]),
      sign_of_isDigit hc, decide_eq_false h]

theorem isspace_showNum (v : Int) : ∀ c ∈ showNum v, isspace c = false := by
  intro c hc
  unfold showNum at hc
  rcases List.mem_append.1 hc with hc | hc
  · split at hc
    · rw [List.mem_singleton.1 hc]
      rfl
    · cases hc
  · exact isspace_of_isDigit (isDigit_toDigits _ c hc)

theorem showNum_ne_nil (v : Int) : showNum v ≠ [] := List.append_ne_nil_of_right_ne_nil _ Nat.toDigits_ne_nil

theorem Fits.skipWord_num (v : Int) : Fits .skipWord (.num v) := .skipWord _ (showNum_ne_nil v) (isspace_showNum v)

theorem number_showNum (v : Int) (hc : c.isDigit = false) (rest : List Char) :
    number (showNum v ++ c :: rest) = some (decide (v < 0), v.natAbs, c :: rest) := by
  obtain ⟨htake, hdrop⟩ := takeWhile_digits v.natAbs hc rest
  have hsign := sign_showNum v (c :: rest)
  simp only [number, hsign, htake, hdrop]
  rw [if_neg Nat.toDigits_ne_nil, Nat.ofDigitChars_ten_toDigits]

theorem word_append {w : List Char} (hne : w ≠ []) (hw : ∀ c ∈ w, isspace c = false) (hc : isspace c = true)
    (rest : List Char) : word (w ++ c :: rest) = some (c :: rest) := by
  obtain ⟨d, ds, rfl⟩ := List.exists_cons_of_ne_nil hne
  have hdrop : ((d :: ds) ++ c :: rest).dropWhile isspace = (d :: ds) ++ c :: rest := by
    rw [List.cons_append, List.dropWhile_cons, if_neg (by simp [hw d List.mem_cons_self])]
  rw [word, hdrop]
  show (if _ then _ else _) = _
  rw [if_neg (List.append_ne_nil_of_left_ne_nil hne _), List.dropWhile_append_of_pos fun c hc => by simp [hw c hc]]
  simp [hc]

/-- Nothing to read: the directive fails, or reads nothing. -/
theorem scan_end (d : Directive) (ds : List Directive) (hd : d ≠ .blank) : scan (d :: ds) [] = [] := by
  cases d with
  | blank => exact absurd rfl hd
  | char | num | skipNum | skipWord => rfl

theorem dropWhile_blank (text : List Char) :
    ((' ' :: text).dropWhile isspace).dropWhile isspace = text.dropWhile isspace := by
  rw [List.dropWhile_idempotent]
  rfl

theorem number_blank (text : List Char) : number ((' ' :: text).dropWhile isspace) = number text := by
  simp only [number, dropWhile_blank]

theorem word_blank (text : List Char) : word ((' ' :: text).dropWhile isspace) = word text := by
  simp only [word, dropWhile_blank]

/-- One field: what is stored, and the scan goes on at the next one. -/
theorem scan_field {d : Directive} {f : Field} (h : Fits d f) (ds : List Directive) (fields : List Field) :
    scan (.blank :: d :: ds) (line (f :: fields)) = (stored d f).toList ++ scan ds (line fields) := by
  obtain ⟨c, rest, hline, hspace, hdigit⟩ := line_head fields
  rw [line_cons, hline, scan]
  cases h with
  | num h =>
    rw [scan, number_blank, Field.show, number_showNum _ hdigit]
    show Value.num (Kind.store _ _ _) :: _ = _
    rw [Kind.store_eq h]
    rfl
  | skipNum v =>
    rw [scan, number_blank, Field.show, number_showNum _ hdigit]
    rfl
  | skipWord f hne hw =>
    rw [scan, word_blank, word_append hne hw hspace]
    rfl

/-- As many fields as both the format and the line have. -/
theorem scan_line {ds : List Directive} {fields : List Field} (hds : ∀ d ∈ ds, d ≠ .blank)
    (h : ∀ p ∈ ds.zip fields, Fits p.1 p.2) :
    scan (ds.flatMap ([.blank, ·])) (line fields) = (ds.zip fields).filterMap fun p => stored p.1 p.2 := by
  induction ds generalizing fields with
  | nil => rfl
  | cons d ds ih =>
    cases fields with
    | nil => exact scan_end d _ (hds d List.mem_cons_self)
    | cons f fields =>
      have hrest := ih (fun d hd => hds d (List.mem_cons_of_mem _ hd)) fun p hp => h p (List.mem_cons_of_mem _ hp)
      show scan (.blank :: d :: ds.flatMap ([.blank, ·])) _ = _
      rw [scan_field (h (d, f) List.mem_cons_self), hrest, List.zip_cons_cons, List.filterMap_cons]
      cases stored d f <;> rfl

end Scan
