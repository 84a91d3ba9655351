import Mathlib.Data.List.TakeWhile
import ChCppUtils.Lib.Bits

/-!
# `base64_encode` and `base64_decode` (base64.cpp)

The bytes are taken in groups of three, the characters in groups of four, each group in an array that is
filled at the index `i`. The arrays are not initialised: `mem` is what is in them.
-/

namespace ChCppUtils.Base64

open Bits

/-- A `std::string` of which the bytes matter. -/
abbrev Bytes := List UInt8

def base64Chars : Bytes :=
  "ABCDEFGHIJKLMNOPQRSTUVWXYZabcdefghijklmnopqrstuvwxyz0123456789+/".toList.map Char.toUInt8

/-- `isalnum`, in the C locale -/
def isalnum (c : UInt8) : Bool :=
  ('0'.toUInt8 ≤ c && c ≤ '9'.toUInt8) || ('A'.toUInt8 ≤ c && c ≤ 'Z'.toUInt8) ||
    ('a'.toUInt8 ≤ c && c ≤ 'z'.toUInt8)

def isBase64 (c : UInt8) : Bool := isalnum c || c == '+'.toUInt8 || c == '/'.toUInt8

/-- `base64_chars[k]` -/
def char (k : UInt8) : UInt8 := base64Chars.getD k.toNat 0

/-- `base64_chars.find(c)`, put in a byte; `npos` is 255 there. -/
def find (c : UInt8) : UInt8 :=
  match base64Chars.idxOf? c with
  | some k => UInt8.ofNat k
  | none => 255

/-! ### `base64_encode` -/

/-- `char_array_4`, from `char_array_3` -/
def sextets (a : Vector UInt8 3) : Bytes :=
  [(a[0] &&& 0xfc) >>> 2, ((a[0] &&& 0x03) <<< 4) + ((a[1] &&& 0xf0) >>> 4),
    ((a[1] &&& 0x0f) <<< 2) + ((a[2] &&& 0xc0) >>> 6), a[2] &&& 0x3f]

/-- `i`, `char_array_3` and `ret` -/
structure Encoder where
  i : Nat
  charArray3 : Vector UInt8 3
  ret : Bytes

namespace Encoder

/-- One turn of the loop. -/
def turn (s : Encoder) (c : UInt8) : Encoder :=
  let charArray3 := s.charArray3.setIfInBounds s.i c
  if s.i + 1 = 3 then ⟨0, charArray3, s.ret ++ (sextets charArray3).map char⟩ else ⟨s.i + 1, charArray3, s.ret⟩

/-- What the loop has left in `char_array_3`, with zeros behind it, and the `=`s. -/
def finish (s : Encoder) : Bytes :=
  if s.i ≠ 0 then
    let charArray3 := (List.range' s.i (3 - s.i)).foldl (fun a j => a.setIfInBounds j 0) s.charArray3
    s.ret ++ ((sextets charArray3).take (s.i + 1)).map char ++ List.replicate (3 - s.i) '='.toUInt8
  else s.ret

end Encoder

def base64Encode (mem : Vector UInt8 3) (bytesToEncode : Bytes) : Bytes :=
  (bytesToEncode.foldl Encoder.turn ⟨0, mem, []⟩).finish

/-! ### `base64_decode` -/

/-- `char_array_3`, from `char_array_4` -/
def octets (a : Vector UInt8 4) : Bytes :=
  [(a[0] <<< 2) + ((a[1] &&& 0x30) >>> 4), ((a[1] &&& 0xf) <<< 4) + ((a[2] &&& 0x3c) >>> 2),
    ((a[2] &&& 0x3) <<< 6) + a[3]]

/-- `i`, `char_array_4` and `ret` -/
structure Decoder where
  i : Nat
  charArray4 : Vector UInt8 4
  ret : Bytes

namespace Decoder

/-- One turn of the loop. -/
def turn (s : Decoder) (c : UInt8) : Decoder :=
  let charArray4 := s.charArray4.setIfInBounds s.i c
  if s.i + 1 = 4 then
    let charArray4 := charArray4.map find
    ⟨0, charArray4, s.ret ++ octets charArray4⟩
  else ⟨s.i + 1, charArray4, s.ret⟩

/-- The loop over the characters from `in_` on. Behind the last one a `'\0'` is read. -/
def loop (s : Decoder) : UInt32 → Bytes → Decoder
  | _, [] => s
  | inLen, c :: encoded =>
    if inLen ≠ 0 ∧ c ≠ '='.toUInt8 ∧ isBase64 c then (s.turn c).loop (inLen - 1) encoded else s

/-- What the loop has left in `char_array_4`; behind it the array is as it was. -/
def finish (s : Decoder) : Bytes :=
  if s.i ≠ 0 then
    let charArray4 := (List.range s.i).foldl (fun a j => a.setIfInBounds j (find (a[j]?.getD 0))) s.charArray4
    s.ret ++ (octets charArray4).take (s.i - 1)
  else s.ret

end Decoder

def base64Decode (mem : Vector UInt8 4) (encodedString : Bytes) : Bytes :=
  ((⟨0, mem, []⟩ : Decoder).loop (UInt32.ofNat encodedString.length) encodedString).finish

/-! ### Bits of a byte -/

theorem toNat_shiftRight (x m : UInt8) {i j : Nat} (hj : j < 8) (hm : m.toNat >>> j = 2 ^ i - 1) :
    ((x &&& m) >>> UInt8.ofNat j).toNat = x.toNat / 2 ^ j % 2 ^ i := by
  have hmod : (UInt8.ofNat j).toNat % 8 = j := by
    rw [UInt8.toNat_ofNat']
    omega
  rw [UInt8.toNat_shiftRight, hmod, UInt8.toNat_and, Nat.shiftRight_and_distrib, hm,
    Nat.and_two_pow_sub_one_eq_mod, Nat.shiftRight_eq_div_pow]

theorem toNat_shiftLeft (x m : UInt8) {i j : Nat} (hj : i + j ≤ 8) (hi : 0 < i) (hm : m.toNat = 2 ^ i - 1) :
    ((x &&& m) <<< UInt8.ofNat j).toNat = x.toNat % 2 ^ i * 2 ^ j := by
  have hmod : (UInt8.ofNat j).toNat % 8 = j := by
    rw [UInt8.toNat_ofNat']
    omega
  have hlt : x.toNat % 2 ^ i * 2 ^ j < 2 ^ 8 := by
    have := Nat.mod_lt x.toNat (Nat.two_pow_pos i)
    have := Nat.mul_lt_mul_of_pos_right this (Nat.two_pow_pos j)
    rw [← Nat.pow_add] at this
    exact Nat.lt_of_lt_of_le this (Nat.pow_le_pow_right (by decide) hj)
  rw [UInt8.toNat_shiftLeft, hmod, UInt8.toNat_and, hm, Nat.and_two_pow_sub_one_eq_mod, Nat.shiftLeft_eq,
    Nat.mod_eq_of_lt hlt]

theorem toNat_sextets (x y z : UInt8) : (sextets #v[x, y, z]).map UInt8.toNat =
    [x.toNat / 4, x.toNat % 4 * 16 + y.toNat / 16, y.toNat % 16 * 4 + z.toNat / 64, z.toNat % 64] := by
  have hx := x.toNat_lt
  have hy := y.toNat_lt
  have hz := z.toNat_lt
  have h0 : ((x &&& 0xfc) >>> 2).toNat = x.toNat / 4 % 64 :=
    toNat_shiftRight x 0xfc (i := 6) (j := 2) (by decide) rfl
  have h1 : ((x &&& 0x03) <<< 4).toNat = x.toNat % 4 * 16 :=
    toNat_shiftLeft x 0x03 (i := 2) (j := 4) (by decide) (by decide) rfl
  have h1' : ((y &&& 0xf0) >>> 4).toNat = y.toNat / 16 % 16 :=
    toNat_shiftRight y 0xf0 (i := 4) (j := 4) (by decide) rfl
  have h2 : ((y &&& 0x0f) <<< 2).toNat = y.toNat % 16 * 4 :=
    toNat_shiftLeft y 0x0f (i := 4) (j := 2) (by decide) (by decide) rfl
  have h2' : ((z &&& 0xc0) >>> 6).toNat = z.toNat / 64 % 4 :=
    toNat_shiftRight z 0xc0 (i := 2) (j := 6) (by decide) rfl
  have h3 : (z &&& 0x3f).toNat = z.toNat % 64 := by
    rw [UInt8.toNat_and]
    exact Nat.and_two_pow_sub_one_eq_mod z.toNat 6
  show [((x &&& 0xfc) >>> 2).toNat, (((x &&& 0x03) <<< 4) + ((y &&& 0xf0) >>> 4)).toNat,
    (((y &&& 0x0f) <<< 2) + ((z &&& 0xc0) >>> 6)).toNat, (z &&& 0x3f).toNat] = _
  rw [UInt8.toNat_add, UInt8.toNat_add, h0, h1, h1', h2, h2', h3]
  simp only [List.cons.injEq, and_true]
  omega

/-- Sextets have their two high bits zero. -/
theorem toNat_octets {a b c d : UInt8} (ha : a.toNat < 64) (hb : b.toNat < 64) (hc : c.toNat < 64)
    (hd : d.toNat < 64) : (octets #v[a, b, c, d]).map UInt8.toNat =
      [a.toNat * 4 + b.toNat / 16, b.toNat % 16 * 16 + c.toNat / 4, c.toNat % 4 * 64 + d.toNat] := by
  have h0 : (a <<< 2).toNat = a.toNat * 4 % 256 := by
    rw [UInt8.toNat_shiftLeft, Nat.shiftLeft_eq]; rfl
  have h0' : ((b &&& 0x30) >>> 4).toNat = b.toNat / 16 % 4 :=
    toNat_shiftRight b 0x30 (i := 2) (j := 4) (by decide) rfl
  have h1 : ((b &&& 0xf) <<< 4).toNat = b.toNat % 16 * 16 :=
    toNat_shiftLeft b 0xf (i := 4) (j := 4) (by decide) (by decide) rfl
  have h1' : ((c &&& 0x3c) >>> 2).toNat = c.toNat / 4 % 16 :=
    toNat_shiftRight c 0x3c (i := 4) (j := 2) (by decide) rfl
  have h2 : ((c &&& 0x3) <<< 6).toNat = c.toNat % 4 * 64 :=
    toNat_shiftLeft c 0x3 (i := 2) (j := 6) (by decide) (by decide) rfl
  show [((a <<< 2) + ((b &&& 0x30) >>> 4)).toNat, (((b &&& 0xf) <<< 4) + ((c &&& 0x3c) >>> 2)).toNat,
    (((c &&& 0x3) <<< 6) + d).toNat] = _
  rw [UInt8.toNat_add, UInt8.toNat_add, UInt8.toNat_add, h0, h0', h1, h1', h2]
  simp only [List.cons.injEq, and_true]
  omega

/-! ### The alphabet -/

theorem forall_byte {p : UInt8 → Prop} (h : ∀ k < 256, p (UInt8.ofNat k)) (x : UInt8) : p x := by
  rw [← UInt8.ofNat_toNat (x := x)]
  exact h _ x.toNat_lt

theorem find_of_isBase64 (c : UInt8) : isBase64 c = true → (find c).toNat < 64 ∧ char (find c) = c := by
  revert c
  exact forall_byte (by decide +kernel)

theorem char_of_lt (k : UInt8) : k.toNat < 64 → isBase64 (char k) = true ∧ find (char k) = k := by
  revert k
  exact forall_byte (by decide +kernel)

theorem not_isBase64_eq : isBase64 '='.toUInt8 = false := rfl

/-! ### Groups of bits -/

/-- The last `k` bits of each byte. -/
def bitsOf (k : Nat) (bytes : Bytes) : List Bool := bytes.flatMap fun x => bits k x.toNat

/-- A group of bits as a byte. -/
def byte (g : List Bool) : UInt8 := UInt8.ofNat (ofBits g)

/-- What base64 is: the bits in groups of six, a character for each, with `=`s up to a multiple of four. -/
def encoding (bytes : Bytes) : Bytes :=
  padTo 4 '='.toUInt8 ((groups 6 (padTo 6 false (bitsOf 8 bytes))).map fun g => char (byte g))

/-- The bits that the characters before the first other one stand for. -/
def payload (encoded : Bytes) : List Bool := bitsOf 6 ((encoded.takeWhile isBase64).map find)

/-- The bits in groups of eight; bits left at the end are dropped. -/
def decoding (encoded : Bytes) : Bytes := (groups 8 (payload encoded)).map byte

theorem bitsOf_cons (k : Nat) (x : UInt8) (bytes : Bytes) : bitsOf k (x :: bytes) = bits k x.toNat ++ bitsOf k bytes :=
  List.flatMap_cons

theorem length_bitsOf (k : Nat) (bytes : Bytes) : (bitsOf k bytes).length = k * bytes.length := by
  induction bytes with
  | nil => rfl
  | cons x bytes ih => rw [bitsOf_cons, List.length_append, length_bits, ih, List.length_cons, Nat.mul_succ, Nat.add_comm]

theorem bitsOf_eq (k : Nat) (bytes : Bytes) : bitsOf k bytes = (bytes.map UInt8.toNat).flatMap (bits k) := by
  rw [List.flatMap_map]; rfl

theorem byte_bits {k : Nat} {x : UInt8} (h : x.toNat < 2 ^ k) : byte (bits k x.toNat) = x := by
  rw [byte, ofBits_bits h, UInt8.ofNat_toNat]

theorem map_byte_groups {k : Nat} {bytes : Bytes} {r : List Bool} (hk : 0 < k) (h : ∀ x ∈ bytes, x.toNat < 2 ^ k)
    (hr : r.length < k) : (groups k (bitsOf k bytes ++ r)).map byte = bytes := by
  rw [bitsOf, groups_flatMap hk (fun x => length_bits k x.toNat) bytes hr, List.map_map]
  exact (List.map_congr_left fun x hx => byte_bits (h x hx)).trans (List.map_id bytes)

theorem bitsOf_sextets (x y z : UInt8) : bitsOf 6 (sextets #v[x, y, z]) = bitsOf 8 [x, y, z] := by
  have hy := y.toNat_lt
  have hz := z.toNat_lt
  rw [bitsOf_eq, bitsOf_eq, toNat_sextets]
  simp only [List.map_cons, List.map_nil, List.flatMap_cons, List.flatMap_nil, List.append_nil]
  have hx8 : bits 8 x.toNat = bits 6 (x.toNat / 4) ++ bits 2 (x.toNat % 4) := bits_split 6 2 _
  have hy8 : bits 8 y.toNat = bits 4 (y.toNat / 16) ++ bits 4 (y.toNat % 16) := bits_split 4 4 _
  have hz8 : bits 8 z.toNat = bits 2 (z.toNat / 64) ++ bits 6 (z.toNat % 64) := bits_split 2 6 _
  have h1 : bits 6 (x.toNat % 4 * 16 + y.toNat / 16) = bits 2 (x.toNat % 4) ++ bits 4 (y.toNat / 16) :=
    bits_add 2 4 _ (by omega)
  have h2 : bits 6 (y.toNat % 16 * 4 + z.toNat / 64) = bits 4 (y.toNat % 16) ++ bits 2 (z.toNat / 64) :=
    bits_add 4 2 _ (by omega)
  rw [hx8, hy8, hz8, h1, h2]
  simp only [List.append_assoc]

theorem lt_of_mem_sextets {x y z s : UInt8} (h : s ∈ sextets #v[x, y, z]) : s.toNat < 64 := by
  have hx := x.toNat_lt
  have hy := y.toNat_lt
  have hz := z.toNat_lt
  have hs := List.mem_map_of_mem (f := UInt8.toNat) h
  rw [toNat_sextets] at hs
  simp only [List.mem_cons, List.not_mem_nil, or_false] at hs
  omega

theorem bitsOf_octets {a b c d : UInt8} (ha : a.toNat < 64) (hb : b.toNat < 64) (hc : c.toNat < 64)
    (hd : d.toNat < 64) : bitsOf 8 (octets #v[a, b, c, d]) = bitsOf 6 [a, b, c, d] := by
  rw [bitsOf_eq, bitsOf_eq, toNat_octets ha hb hc hd]
  simp only [List.map_cons, List.map_nil, List.flatMap_cons, List.flatMap_nil, List.append_nil]
  have hb6 : bits 6 b.toNat = bits 2 (b.toNat / 16) ++ bits 4 (b.toNat % 16) := bits_split 2 4 _
  have hc6 : bits 6 c.toNat = bits 4 (c.toNat / 4) ++ bits 2 (c.toNat % 4) := bits_split 4 2 _
  have h0 : bits 8 (a.toNat * 4 + b.toNat / 16) = bits 6 a.toNat ++ bits 2 (b.toNat / 16) :=
    bits_add 6 2 _ (by omega)
  have h1 : bits 8 (b.toNat % 16 * 16 + c.toNat / 4) = bits 4 (b.toNat % 16) ++ bits 4 (c.toNat / 4) :=
    bits_add 4 4 _ (by omega)
  have h2 : bits 8 (c.toNat % 4 * 64 + d.toNat) = bits 2 (c.toNat % 4) ++ bits 6 d.toNat := bits_add 2 6 _ hd
  rw [hb6, hc6, h0, h1, h2]
  simp only [List.append_assoc]

theorem take_bitsOf (k m : Nat) (bytes : Bytes) : (bitsOf k bytes).take (k * m) = bitsOf k (bytes.take m) := by
  induction m generalizing bytes with
  | zero => rfl
  | succ m ih =>
    cases bytes with
    | nil => exact List.take_nil
    | cons x bytes =>
      rw [bitsOf_cons, List.take_succ_cons, bitsOf_cons, Nat.mul_succ, Nat.add_comm, ← ih bytes]
      have hk := length_bits k x.toNat
      rw [List.take_append, hk, Nat.add_sub_cancel_left, List.take_of_length_le (by omega)]

/-! ### The loop of `base64_encode` -/

theorem encoding_append {x y z : UInt8} (bytes : Bytes) :
    encoding (x :: y :: z :: bytes) = (sextets #v[x, y, z]).map char ++ encoding bytes := by
  have hbits : bitsOf 8 (x :: y :: z :: bytes) = bitsOf 6 (sextets #v[x, y, z]) ++ bitsOf 8 bytes := by
    rw [bitsOf_sextets]
    simp only [bitsOf_cons, List.append_assoc]
    rfl
  have hdvd : 6 ∣ (bitsOf 6 (sextets #v[x, y, z])).length := by
    rw [length_bitsOf]
    exact Nat.dvd_mul_right ..
  have hgroups := map_byte_groups (k := 6) (r := []) (by decide) (fun s => lt_of_mem_sextets (x := x) (y := y) (z := z))
    (by decide)
  rw [List.append_nil] at hgroups
  have hread : ∀ l : List Bool, (groups 6 l).map (fun g => char (byte g)) = ((groups 6 l).map byte).map char := by
    intro l
    rw [List.map_map]; rfl
  unfold encoding
  rw [hbits, padTo_append_of_dvd hdvd, groups_append_of_dvd (by decide) hdvd, List.map_append, hread, hgroups,
    padTo_append_of_dvd]
  rw [List.length_map]
  exact Nat.dvd_refl 4

theorem encoding_of_padTo {bytes s : Bytes} (hs : ∀ x ∈ s, x.toNat < 64)
    (h : padTo 6 false (bitsOf 8 bytes) = bitsOf 6 s) : encoding bytes = padTo 4 '='.toUInt8 (s.map char) := by
  have hgroups := map_byte_groups (k := 6) (r := []) (by decide) hs (by decide)
  rw [List.append_nil] at hgroups
  rw [encoding, h, ← hgroups, List.map_map, hgroups]
  rfl

/-- What is behind the input is zero. -/
theorem encoding_one (x : UInt8) :
    encoding [x] = ((sextets #v[x, 0, 0]).take 2).map char ++ List.replicate 2 '='.toUInt8 := by
  refine encoding_of_padTo (fun s hs => lt_of_mem_sextets (List.mem_of_mem_take hs)) ?_
  have hpad : padTo 6 false (bitsOf 8 [x]) = bits 8 x.toNat ++ List.replicate 4 false := by
    rw [padTo, length_bitsOf, bitsOf_cons]
    simp [bitsOf]
  rw [hpad, ← take_bitsOf, bitsOf_sextets, bitsOf_cons, List.take_append, length_bits,
    List.take_of_length_le (by rw [length_bits]; decide)]
  rfl

theorem encoding_two (x y : UInt8) :
    encoding [x, y] = ((sextets #v[x, y, 0]).take 3).map char ++ List.replicate 1 '='.toUInt8 := by
  refine encoding_of_padTo (fun s hs => lt_of_mem_sextets (List.mem_of_mem_take hs)) ?_
  have hpad : padTo 6 false (bitsOf 8 [x, y]) = bitsOf 8 [x, y] ++ List.replicate 2 false := by
    rw [padTo, length_bitsOf]
    simp
  have hlen : (bitsOf 8 [x, y]).length = 16 := length_bitsOf 8 [x, y]
  have hthree : bitsOf 8 [x, y, 0] = bitsOf 8 [x, y] ++ bits 8 0 := by
    simp [bitsOf]
  rw [hpad, ← take_bitsOf, bitsOf_sextets, hthree, List.take_append, hlen,
    List.take_of_length_le (by rw [hlen]; decide)]
  rfl

theorem setIfInBounds_three (a : Vector UInt8 3) (x y z : UInt8) :
    ((a.setIfInBounds 0 x).setIfInBounds 1 y).setIfInBounds 2 z = #v[x, y, z] := by
  apply Vector.ext
  intro i hi
  obtain rfl | rfl | rfl : i = 0 ∨ i = 1 ∨ i = 2 := by omega
  · simp
  · simp
  · simp

theorem foldl_turn_three (a : Vector UInt8 3) (ret : Bytes) (x y z : UInt8) :
    [x, y, z].foldl Encoder.turn ⟨0, a, ret⟩ = ⟨0, #v[x, y, z], ret ++ (sextets #v[x, y, z]).map char⟩ := by
  simp [Encoder.turn, setIfInBounds_three]

theorem finish_foldl_turn : ∀ (bytes : Bytes) (a : Vector UInt8 3) (ret : Bytes),
    (bytes.foldl Encoder.turn ⟨0, a, ret⟩).finish = ret ++ encoding bytes
  | [], a, ret => by
    have hnil : encoding [] = [] := by
      simp [encoding, bitsOf, padTo, groups_of_lt]
    rw [hnil, List.append_nil]
    rfl
  | [x], a, ret => by
    have ha := setIfInBounds_three a x 0 0
    rw [encoding_one, ← List.append_assoc, ← ha]
    rfl
  | [x, y], a, ret => by
    have ha := setIfInBounds_three a x y 0
    rw [encoding_two, ← List.append_assoc, ← ha]
    rfl
  | x :: y :: z :: bytes, a, ret => by
    show (bytes.foldl Encoder.turn ([x, y, z].foldl Encoder.turn ⟨0, a, ret⟩)).finish = _
    rw [foldl_turn_three, finish_foldl_turn bytes, encoding_append, List.append_assoc]

/-- The loop computes what base64 is, whatever was in the array. -/
theorem base64Encode_eq (mem : Vector UInt8 3) (bytes : Bytes) : base64Encode mem bytes = encoding bytes := by
  rw [base64Encode, finish_foldl_turn, List.nil_append]

/-! ### The loop of `base64_decode` -/

/-- The count is no less than the characters left: the loop ends at the first that is not base64. -/
theorem loop_eq_foldl {inLen : UInt32} {encoded : Bytes} (h : encoded.length ≤ inLen.toNat) (s : Decoder) :
    s.loop inLen encoded = (encoded.takeWhile isBase64).foldl Decoder.turn s := by
  induction encoded generalizing inLen s with
  | nil => rfl
  | cons c encoded ih =>
    rw [List.length_cons] at h
    have h0 : inLen ≠ 0 := by
      rintro rfl
      exact Nat.not_succ_le_zero _ h
    have hsub : (inLen - 1).toNat = inLen.toNat - 1 :=
      UInt32.toNat_sub_of_le _ _ (UInt32.le_iff_toNat_le.2 (by show 1 ≤ inLen.toNat; omega))
    rw [Decoder.loop]
    by_cases hc : isBase64 c = true
    · have hne : c ≠ '='.toUInt8 := by
        rintro rfl
        rw [not_isBase64_eq] at hc
        cases hc
      rw [if_pos ⟨h0, hne, hc⟩, ih (by omega), List.takeWhile_cons_of_pos hc, List.foldl_cons]
    · rw [if_neg (fun hall => hc hall.2.2), List.takeWhile_cons_of_neg hc, List.foldl_nil]

theorem setIfInBounds_four (a : Vector UInt8 4) (b c d e : UInt8) :
    (((a.setIfInBounds 0 b).setIfInBounds 1 c).setIfInBounds 2 d).setIfInBounds 3 e = #v[b, c, d, e] := by
  apply Vector.ext
  intro i hi
  obtain rfl | rfl | rfl | rfl : i = 0 ∨ i = 1 ∨ i = 2 ∨ i = 3 := by omega
  · simp
  · simp
  · simp
  · simp

theorem foldl_turn_four (a : Vector UInt8 4) (ret : Bytes) (b c d e : UInt8) :
    [b, c, d, e].foldl Decoder.turn ⟨0, a, ret⟩ =
      ⟨0, #v[find b, find c, find d, find e], ret ++ octets #v[find b, find c, find d, find e]⟩ := by
  simp [Decoder.turn, setIfInBounds_four]

theorem map_byte_octets {a b c d : UInt8} (ha : a.toNat < 64) (hb : b.toNat < 64) (hc : c.toNat < 64)
    (hd : d.toNat < 64) {n : Nat} (h0 : 0 < n) (h4 : n ≤ 4) :
    (groups 8 (bitsOf 6 ([a, b, c, d].take n))).map byte = (octets #v[a, b, c, d]).take (n - 1) := by
  have hbits := bitsOf_octets ha hb hc hd
  have hsplit : bitsOf 6 ([a, b, c, d].take n) =
      bitsOf 8 ((octets #v[a, b, c, d]).take (n - 1)) ++ (bitsOf 6 ([a, b, c, d].take n)).drop (8 * (n - 1)) := by
    rw [← take_bitsOf 8, hbits, ← take_bitsOf 6]
    conv_lhs => rw [← List.take_append_drop (8 * (n - 1)) ((bitsOf 6 [a, b, c, d]).take (6 * n)), List.take_take]
    rw [Nat.min_eq_left (by omega)]
  rw [hsplit]
  refine map_byte_groups (by decide) (fun x _ => x.toNat_lt) ?_
  rw [List.length_drop, length_bitsOf, List.length_take, List.length_cons, List.length_cons, List.length_cons,
    List.length_cons, List.length_nil]
  omega

theorem foldl_find_two (a : Vector UInt8 4) (b c : UInt8) :
    (List.range 2).foldl (fun a j => a.setIfInBounds j (find (a[j]?.getD 0))) ((a.setIfInBounds 0 b).setIfInBounds 1 c) =
      #v[find b, find c, a[2], a[3]] := by
  apply Vector.ext
  intro i hi
  rw [show List.range 2 = [0, 1] from rfl]
  obtain rfl | rfl | rfl | rfl : i = 0 ∨ i = 1 ∨ i = 2 ∨ i = 3 := by omega
  · simp
  · simp
  · simp
  · simp

theorem foldl_find_three (a : Vector UInt8 4) (b c d : UInt8) :
    (List.range 3).foldl (fun a j => a.setIfInBounds j (find (a[j]?.getD 0)))
      (((a.setIfInBounds 0 b).setIfInBounds 1 c).setIfInBounds 2 d) = #v[find b, find c, find d, a[3]] := by
  apply Vector.ext
  intro i hi
  rw [show List.range 3 = [0, 1, 2] from rfl]
  obtain rfl | rfl | rfl | rfl : i = 0 ∨ i = 1 ∨ i = 2 ∨ i = 3 := by omega
  · simp
  · simp
  · simp
  · simp

/-- What is in the array behind the last character does not count. -/
theorem finish_decoder : ∀ (body : Bytes) (_ : ∀ c ∈ body, isBase64 c = true) (a : Vector UInt8 4) (ret : Bytes),
    (body.foldl Decoder.turn ⟨0, a, ret⟩).finish = ret ++ (groups 8 (bitsOf 6 (body.map find))).map byte
  | [], _, a, ret => by
    rw [show bitsOf 6 (([] : Bytes).map find) = [] from rfl, groups_of_lt (by decide), List.map_nil, List.append_nil]
    rfl
  | [b], _, a, ret => by
    have hshort : (bitsOf 6 ([b].map find)).length < 8 := by
      rw [length_bitsOf]
      exact (by decide : 6 * 1 < 8)
    rw [groups_of_lt hshort]
    rfl
  | [b, c], h, a, ret => by
    have hb := (find_of_isBase64 b (h b (by simp))).1
    have hc := (find_of_isBase64 c (h c (by simp))).1
    have hread := map_byte_octets hb hc (c := 0) (d := 0) (n := 2) (by decide) (by decide) (by decide) (by decide)
    have hfinish : ([b, c].foldl Decoder.turn ⟨0, a, ret⟩).finish =
        ret ++ (octets #v[find b, find c, a[2], a[3]]).take 1 := by
      rw [← foldl_find_two a b c]
      rfl
    rw [hfinish]
    exact congrArg (ret ++ ·) hread.symm
  | [b, c, d], h, a, ret => by
    have hb := (find_of_isBase64 b (h b (by simp))).1
    have hc := (find_of_isBase64 c (h c (by simp))).1
    have hd := (find_of_isBase64 d (h d (by simp))).1
    have hread := map_byte_octets hb hc hd (d := 0) (n := 3) (by decide) (by decide) (by decide)
    have hfinish : ([b, c, d].foldl Decoder.turn ⟨0, a, ret⟩).finish =
        ret ++ (octets #v[find b, find c, find d, a[3]]).take 2 := by
      rw [← foldl_find_three a b c d]
      rfl
    rw [hfinish]
    exact congrArg (ret ++ ·) hread.symm
  | b :: c :: d :: e :: body, h, a, ret => by
    have hb := (find_of_isBase64 b (h b (by simp))).1
    have hc := (find_of_isBase64 c (h c (by simp))).1
    have hd := (find_of_isBase64 d (h d (by simp))).1
    have he := (find_of_isBase64 e (h e (by simp))).1
    have hbody : ∀ x ∈ body, isBase64 x = true := fun x hx => h x (by simp [hx])
    have hread := map_byte_octets hb hc hd he (n := 4) (by decide) (by decide)
    have hdvd : 8 ∣ (bitsOf 6 [find b, find c, find d, find e]).length := by
      rw [length_bitsOf]
      exact (by decide : 8 ∣ 6 * 4)
    have hbits : bitsOf 6 ((b :: c :: d :: e :: body).map find) =
        bitsOf 6 [find b, find c, find d, find e] ++ bitsOf 6 (body.map find) := by
      simp only [List.map_cons, bitsOf_cons, List.append_assoc]
      rfl
    show (body.foldl Decoder.turn ([b, c, d, e].foldl Decoder.turn ⟨0, a, ret⟩)).finish = _
    rw [foldl_turn_four, finish_decoder body hbody, hbits, groups_append_of_dvd (by decide) hdvd, List.map_append,
      List.append_assoc]
    exact congrArg (fun l => ret ++ (l ++ (groups 8 (bitsOf 6 (body.map find))).map byte)) hread.symm

/-- The characters up to the first that is not base64 are decoded, whatever was in the array. -/
theorem base64Decode_eq (mem : Vector UInt8 4) {encoded : Bytes} (h : encoded.length < 2 ^ 31) :
    base64Decode mem encoded = decoding encoded := by
  have hlen : (UInt32.ofNat encoded.length).toNat = encoded.length :=
    UInt32.toNat_ofNat_of_lt' (Nat.lt_trans h (by decide))
  have hbody : ∀ c ∈ encoded.takeWhile isBase64, isBase64 c = true := fun c hc => List.mem_takeWhile_imp hc
  rw [base64Decode, loop_eq_foldl (Nat.le_of_eq hlen.symm), finish_decoder _ hbody, List.nil_append]
  rfl

/-! ### Round trips -/

theorem toNat_byte {g : List Bool} (h : g.length ≤ 8) : (byte g).toNat = ofBits g :=
  UInt8.toNat_ofNat_of_lt' (Nat.lt_of_lt_of_le (ofBits_lt g) (Nat.pow_le_pow_right (by decide) h))

theorem bits_byte {k : Nat} {g : List Bool} (hk : k ≤ 8) (h : g.length = k) : bits k (byte g).toNat = g := by
  rw [toNat_byte (by omega), ← h, bits_ofBits]

theorem bitsOf_map_byte {k : Nat} {l : List Bool} (hk : k ≤ 8) (h0 : 0 < k) (h : k ∣ l.length) :
    bitsOf k ((groups k l).map byte) = l := by
  rw [bitsOf, List.flatMap_map]
  conv_rhs => rw [← flatten_groups h h0, ← List.flatMap_id]
  exact List.flatMap_congr fun g hg => bits_byte hk (length_of_mem_groups hg)

/-- The characters of an encoding, without the `=`s. -/
def characters (bytes : Bytes) : Bytes := (groups 6 (padTo 6 false (bitsOf 8 bytes))).map fun g => char (byte g)

theorem lt_of_mem_groups {l g : List Bool} (h : g ∈ groups 6 l) : (byte g).toNat < 64 := by
  have hg := length_of_mem_groups h
  have hlt := ofBits_lt g
  rw [hg] at hlt
  rw [toNat_byte (by omega)]
  exact hlt

theorem takeWhile_encoding (bytes : Bytes) : (encoding bytes).takeWhile isBase64 = characters bytes := by
  have hall : ∀ c ∈ characters bytes, isBase64 c = true := by
    intro c hc
    obtain ⟨g, hg, rfl⟩ := List.mem_map.1 hc
    exact (char_of_lt (byte g) (lt_of_mem_groups hg)).1
  have hpad : ∀ n, (List.replicate n '='.toUInt8).takeWhile isBase64 = [] := by
    intro n
    cases n with
    | zero => rfl
    | succ n => exact List.takeWhile_cons_of_neg (by rw [not_isBase64_eq]; decide)
  rw [encoding, padTo]
  show (characters bytes ++ _).takeWhile isBase64 = _
  rw [List.takeWhile_append_of_pos hall, hpad, List.append_nil]

theorem payload_encoding (bytes : Bytes) : payload (encoding bytes) = padTo 6 false (bitsOf 8 bytes) := by
  have hfind : (characters bytes).map find = (groups 6 (padTo 6 false (bitsOf 8 bytes))).map byte := by
    rw [characters, List.map_map]
    exact List.map_congr_left fun g hg => (char_of_lt (byte g) (lt_of_mem_groups hg)).2
  rw [payload, takeWhile_encoding, hfind, bitsOf_map_byte (by decide) (by decide) (dvd_length_padTo (by decide) ..)]

theorem decoding_encoding (bytes : Bytes) : decoding (encoding bytes) = bytes := by
  obtain ⟨n, hn, hpad⟩ := padTo_eq (by decide : 0 < 6) false (bitsOf 8 bytes)
  rw [decoding, payload_encoding, hpad]
  refine map_byte_groups (by decide) (fun x _ => x.toNat_lt) ?_
  rw [List.length_replicate]
  omega

theorem length_characters (bytes : Bytes) : 6 * (characters bytes).length = (padTo 6 false (bitsOf 8 bytes)).length := by
  have hlen := length_bitsOf 6 ((groups 6 (padTo 6 false (bitsOf 8 bytes))).map byte)
  rw [bitsOf_map_byte (by decide) (by decide) (dvd_length_padTo (by decide) ..), List.length_map] at hlen
  rw [characters, List.length_map, hlen]

theorem length_encoding (bytes : Bytes) : (encoding bytes).length = 4 * ((bytes.length + 2) / 3) := by
  have hchars := length_characters bytes
  rw [padTo, List.length_append, List.length_replicate, length_bitsOf] at hchars
  show (padTo 4 '='.toUInt8 (characters bytes)).length = _
  rw [padTo, List.length_append, List.length_replicate]
  omega

/-- What encoding makes: the last group has `=`s up to four, no single character, and zeros for the bits that
belong to no byte. -/
structure Canonical (encoded : Bytes) : Prop where
  pads : encoded = padTo 4 '='.toUInt8 (encoded.takeWhile isBase64)
  length : (encoded.takeWhile isBase64).length % 4 ≠ 1
  unused : ∀ b ∈ (payload encoded).drop (8 * ((payload encoded).length / 8)), b = false

theorem canonical_encoding (bytes : Bytes) : Canonical (encoding bytes) := by
  have hchars := length_characters bytes
  obtain ⟨n, hn, hpad⟩ := padTo_eq (by decide : 0 < 6) false (bitsOf 8 bytes)
  rw [hpad, List.length_append, List.length_replicate, length_bitsOf] at hchars
  refine ⟨?_, ?_, fun b hb => ?_⟩
  · rw [takeWhile_encoding]; rfl
  · rw [takeWhile_encoding]
    omega
  · have hdiv : (8 * bytes.length + n) / 8 = bytes.length := by omega
    rw [payload_encoding, hpad, List.length_append, length_bitsOf, List.length_replicate, hdiv,
      ← length_bitsOf 8 bytes, List.drop_left] at hb
    exact List.eq_of_mem_replicate hb

theorem bitsOf_decoding (encoded : Bytes) :
    bitsOf 8 (decoding encoded) = (payload encoded).take (8 * ((payload encoded).length / 8)) := by
  have hle : 8 * ((payload encoded).length / 8) ≤ (payload encoded).length := Nat.mul_div_le ..
  have htake : ((payload encoded).take (8 * ((payload encoded).length / 8))).length =
      8 * ((payload encoded).length / 8) := by
    rw [List.length_take, Nat.min_eq_left hle]
  have hdvd : 8 ∣ ((payload encoded).take (8 * ((payload encoded).length / 8))).length :=
    ⟨_, htake⟩
  have hshort : ((payload encoded).drop (8 * ((payload encoded).length / 8))).length < 8 := by
    rw [List.length_drop]
    omega
  have hgroups : groups 8 (payload encoded) = groups 8 ((payload encoded).take (8 * ((payload encoded).length / 8))) := by
    conv_lhs => rw [← List.take_append_drop (8 * ((payload encoded).length / 8)) (payload encoded)]
    rw [groups_append_of_dvd (by decide) hdvd, groups_of_lt hshort, List.append_nil]
  rw [decoding, hgroups, bitsOf_map_byte (by decide) (by decide) hdvd]

theorem Canonical.encoding_decoding {encoded : Bytes} (h : Canonical encoded) : encoding (decoding encoded) = encoded := by
  have hlen : (payload encoded).length = 6 * (encoded.takeWhile isBase64).length := by
    rw [payload, length_bitsOf, List.length_map]
  obtain ⟨m, hm⟩ : ∃ m, (encoded.takeWhile isBase64).length = 4 * m ∨
      (encoded.takeWhile isBase64).length = 4 * m + 2 ∨ (encoded.takeWhile isBase64).length = 4 * m + 3 := by
    have := h.length
    exact ⟨(encoded.takeWhile isBase64).length / 4, by omega⟩
  -- the zeros that pad the last sextet are the bits that decoding has dropped
  have hzeros : (payload encoded).drop (8 * ((payload encoded).length / 8)) =
      List.replicate ((6 - 8 * ((payload encoded).length / 8) % 6) % 6) false := by
    refine List.eq_replicate_iff.2 ⟨?_, h.unused⟩
    rw [List.length_drop]
    rcases hm with hm | hm | hm <;> omega
  have hpad : padTo 6 false (bitsOf 8 (decoding encoded)) = payload encoded := by
    have htake : ((payload encoded).take (8 * ((payload encoded).length / 8))).length =
        8 * ((payload encoded).length / 8) := by
      rw [List.length_take]
      omega
    rw [bitsOf_decoding, padTo, htake, ← hzeros, List.take_append_drop]
  have hbody : ∀ c ∈ encoded.takeWhile isBase64, isBase64 c = true := fun c hc => List.mem_takeWhile_imp hc
  have hread : (groups 6 (payload encoded)).map byte = (encoded.takeWhile isBase64).map find := by
    have hlt : ∀ x ∈ (encoded.takeWhile isBase64).map find, x.toNat < 2 ^ 6 := by
      intro x hx
      obtain ⟨c, hc, rfl⟩ := List.mem_map.1 hx
      exact (find_of_isBase64 c (hbody c hc)).1
    rw [payload, ← List.append_nil (bitsOf 6 _), map_byte_groups (by decide) hlt (by decide)]
  have hchars : characters (decoding encoded) = encoded.takeWhile isBase64 := by
    rw [characters, hpad, show (fun g => char (byte g)) = char ∘ byte from rfl, ← List.map_map, hread, List.map_map]
    exact (List.map_congr_left fun c hc => (find_of_isBase64 c (hbody c hc)).2).trans (List.map_id _)
  calc encoding (decoding encoded) = padTo 4 '='.toUInt8 (characters (decoding encoded)) := rfl
    _ = encoded := by rw [hchars]; exact h.pads.symm

theorem encoding_decoding_iff (encoded : Bytes) : encoding (decoding encoded) = encoded ↔ Canonical encoded :=
  ⟨fun h => h ▸ canonical_encoding (decoding encoded), fun h => h.encoding_decoding⟩

/-! ### The two functions -/

/-- Both loops compute what base64 is, whatever was in their arrays. -/
theorem base64_refines (mem₃ : Vector UInt8 3) (mem₄ : Vector UInt8 4) (bytes encoded : Bytes)
    (h : encoded.length < 2 ^ 31) :
    base64Encode mem₃ bytes = encoding bytes ∧ base64Decode mem₄ encoded = decoding encoded :=
  ⟨base64Encode_eq mem₃ bytes, base64Decode_eq mem₄ h⟩

/-- Two whole groups, and a rest. -/
theorem base64_refines_groups :
    base64Encode #v[7, 7, 7] [77, 97, 110, 105, 0, 255, 1] = encoding [77, 97, 110, 105, 0, 255, 1] ∧
      base64Decode #v[7, 7, 7, 7] [84, 87, 70, 117, 97, 81, 68, 47, 65, 81, 61, 61] =
        decoding [84, 87, 70, 117, 97, 81, 68, 47, 65, 81, 61, 61] :=
  base64_refines _ _ _ _ (by decide)

/-- `in_len` is an `int`: the encoding has to have less than `2 ^ 31` characters. -/
theorem base64Decode_base64Encode (mem₃ : Vector UInt8 3) (mem₄ : Vector UInt8 4) (bytes : Bytes)
    (h : 4 * ((bytes.length + 2) / 3) < 2 ^ 31) : base64Decode mem₄ (base64Encode mem₃ bytes) = bytes := by
  rw [base64Encode_eq, base64Decode_eq mem₄ (by rw [length_encoding]; exact h), decoding_encoding]

theorem base64Decode_base64Encode_four : base64Decode #v[1, 2, 3, 4] (base64Encode #v[5, 6, 7] [77, 0, 255, 61]) =
    [77, 0, 255, 61] :=
  base64Decode_base64Encode _ _ _ (by decide)

/-- Encoding gives back what was decoded exactly where that is canonical. -/
theorem base64Encode_base64Decode_iff (mem₃ : Vector UInt8 3) (mem₄ : Vector UInt8 4) (encoded : Bytes)
    (h : encoded.length < 2 ^ 31) : base64Encode mem₃ (base64Decode mem₄ encoded) = encoded ↔ Canonical encoded := by
  rw [base64Decode_eq mem₄ h, base64Encode_eq, encoding_decoding_iff]

/-- `TR==` has a bit set that belongs to no byte. -/
theorem base64Encode_base64Decode_iff_unused :
    base64Encode #v[0, 0, 0] (base64Decode #v[0, 0, 0, 0] [84, 82, 61, 61]) = [84, 82, 61, 61] ↔
      Canonical [84, 82, 61, 61] :=
  base64Encode_base64Decode_iff _ _ _ (by decide)

end ChCppUtils.Base64
