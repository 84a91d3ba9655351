import Mathlib.Algebra.Group.Nat.Defs
import ChCppUtils.Basic

/-!
# `generateUUID` (utils.cpp)

The loop takes its digits from `rnd`, four bits at a time, and fills `rnd` again where it is 2 or less. Of what
`rand` returns only the low byte is left after the multiplication by `0x1000000`, as the high byte of `rnd`, so
five digits 0 come before the first that the byte decides. Every result begins with them; at each place behind
them any digit can come up (`attained_iff`).
-/

namespace ChCppUtils.Uuid

def CHARS : Str := "0123456789ABCDEFGHIJKLMNOPQRSTUVWXYZabcdefghijklmnopqrstuvwxyz".toList

/-- What the calls of `rand` return, one after the other. -/
abbrev Rand := Nat → Fin 0x80000000

/-- The locals of `generateUUID`, and the number of its calls of `rand`. -/
structure Locals where
  uuid : Str
  rnd : Int32
  calls : Nat

/-- The places that the loop fills. -/
def Free (i : Nat) : Prop := i ≠ 8 ∧ i ≠ 13 ∧ i ≠ 18 ∧ i ≠ 14 ∧ i ≠ 23

instance (i : Nat) : Decidable (Free i) := inferInstanceAs (Decidable (_ ∧ _))

/-- `rnd`, from what `rand` has returned. -/
def word (r : Fin 0x80000000) : Int32 := (0x2000000 + Int32.ofNat r * 0x1000000) ||| 0

/-- The character for place `i`; no index is above 15. -/
def digit (i : Nat) (rnd : Int32) : Char :=
  CHARS.getD (if i = 19 then ((rnd &&& 0xf) &&& 0x3) ||| 0x8 else rnd &&& 0xf).toInt64.toUInt64.toNat ' '

namespace Locals

def init : Locals where
  uuid := (((((List.replicate 36 ' ').set 8 '-').set 13 '-').set 18 '-').set 23 '-').set 14 '4'
  rnd := 0
  calls := 0

def refill (s : Locals) (rand : Rand) : Locals :=
  if s.rnd ≤ 0x02 then { s with rnd := word (rand s.calls), calls := s.calls + 1 } else s

/-- One turn of the loop. -/
def turn (s : Locals) (rand : Rand) (i : Nat) : Locals :=
  if Free i then
    let s := s.refill rand
    let rnd := s.rnd >>> 4
    { s with rnd := rnd, uuid := s.uuid.set i (digit i rnd) }
  else s

end Locals

/-- The locals after the first turns of the loop. -/
def turns (rand : Rand) : Nat → Locals
  | 0 => .init
  | i + 1 => (turns rand i).turn rand i

def generateUUID (rand : Rand) : Str := (turns rand 36).uuid

/-! ### The shape -/

/-- The digits that a version 4 identifier may have at place `i`. -/
def hexDigits (i : Nat) : Str := if i = 19 then "89AB".toList else "0123456789ABCDEF".toList

/-- 8-4-4-4-12 digits. -/
structure Version4 (uuid : Str) : Prop where
  length : uuid.length = 36
  dash : ∀ i ∈ [8, 13, 18, 23], uuid[i]? = some '-'
  version : uuid[14]? = some '4'
  digit : ∀ i < 36, Free i → ∃ d ∈ hexDigits i, uuid[i]? = some d

/-- Some results of `rand` lead to this character at place `i`. -/
def Attained (i : Nat) (d : Char) : Prop := ∃ rand, (generateUUID rand)[i]? = some d

/-! ### Words -/

theorem toInt_shift (rnd : Int32) : (rnd >>> 4).toInt = rnd.toInt / 16 := by
  rw [← Int32.toInt_toBitVec, Int32.toBitVec_shiftRight]
  show (rnd.toBitVec.sshiftRight 4).toInt = _
  rw [BitVec.toInt_sshiftRight, Int.shiftRight_eq_div_pow]
  rfl

theorem and_fifteen (rnd : Int32) : rnd &&& 0xf = Int32.ofNat (rnd.toInt % 16).toNat := by
  rw [← Int32.toBitVec_inj, Int32.toBitVec_and, ← BitVec.toNat_inj, BitVec.toNat_and]
  show rnd.toBitVec.toNat &&& 2 ^ 4 - 1 = _
  rw [Nat.and_two_pow_sub_one_eq_mod, Int32.toBitVec_ofNat', BitVec.toNat_ofNat, ← Int32.toInt_toBitVec,
    BitVec.toInt_eq_toNat_cond]
  omega

theorem toInt_word (r : Fin 0x80000000) : (word r).toInt = (0x2000000 + (r : Int) * 0x1000000).bmod 0x100000000 := by
  have hone : (0x1000000 : Int32).toInt = 0x1000000 := rfl
  have htwo : (0x2000000 : Int32).toInt = 0x2000000 := rfl
  rw [word, Int32.or_zero, Int32.toInt_add, Int32.toInt_mul, Int32.toInt_ofNat_of_lt r.isLt, hone, htwo,
    Int.add_bmod_bmod]

theorem dvd_word (r : Fin 0x80000000) : ((16 ^ 6 : Nat) : Int) ∣ (word r).toInt := by
  rw [toInt_word, Int.bmod_def]
  split <;> omega

/-! ### Digits -/

/-- The character for the four bits `k` at place `i`. -/
def hexDigit (i k : Nat) : Char := CHARS.getD (if i = 19 then k % 4 + 8 else k) ' '

theorem digit_eq (i : Nat) (rnd : Int32) : digit i rnd = hexDigit i (rnd.toInt % 16).toNat := by
  have hk : (rnd.toInt % 16).toNat < 16 := by omega
  rw [digit, and_fifteen, hexDigit]
  generalize (rnd.toInt % 16).toNat = k at hk
  split <;> revert k <;> decide

theorem hexDigit_mem {i k : Nat} (hk : k < 16) : hexDigit i k ∈ hexDigits i := by
  unfold hexDigit hexDigits
  split <;> revert k <;> decide

theorem hexDigits_eq (i : Nat) : hexDigits i = (List.range (if i = 19 then 4 else 16)).map (hexDigit i) := by
  unfold hexDigits hexDigit
  by_cases h : i = 19
  · simp only [if_pos h]
    rfl
  · simp only [if_neg h]
    rfl

theorem exists_hexDigit {i : Nat} {d : Char} (hd : d ∈ hexDigits i) : ∃ k < 16, hexDigit i k = d := by
  rw [hexDigits_eq] at hd
  obtain ⟨k, hk, rfl⟩ := List.mem_map.1 hd
  refine ⟨k, ?_, rfl⟩
  rw [List.mem_range] at hk
  split at hk <;> omega

/-! ### The loop -/

section
variable {rand : Rand} {s : Locals} {i j n : Nat}

theorem turn_of_free (h : Free i) : s.turn rand i =
    { s.refill rand with
      rnd := (s.refill rand).rnd >>> 4
      uuid := s.uuid.set i (digit i ((s.refill rand).rnd >>> 4)) } := by
  rw [Locals.turn, if_pos h]
  unfold Locals.refill
  split <;> rfl

theorem rnd_turn (h : Free i) : (s.turn rand i).rnd = (s.refill rand).rnd >>> 4 := by rw [turn_of_free h]

theorem calls_turn (h : Free i) : (s.turn rand i).calls = (s.refill rand).calls := by rw [turn_of_free h]

theorem turn_of_not_free (h : ¬ Free i) : s.turn rand i = s := if_neg h

theorem length_turn : (s.turn rand i).uuid.length = s.uuid.length := by
  by_cases h : Free i
  · rw [turn_of_free h, List.length_set]
  · rw [turn_of_not_free h]

theorem getElem?_turn_ne (h : j ≠ i) : (s.turn rand i).uuid[j]? = s.uuid[j]? := by
  by_cases hi : Free i
  · rw [turn_of_free hi, List.getElem?_set_ne (Ne.symm h)]
  · rw [turn_of_not_free hi]

theorem length_turns : (turns rand n).uuid.length = 36 := by
  induction n with
  | zero => rfl
  | succ n ih => rw [turns, length_turn, ih]

theorem getElem?_turns_of_le (h : n ≤ j) : (turns rand n).uuid[j]? = Locals.init.uuid[j]? := by
  induction n with
  | zero => rfl
  | succ n ih => rw [turns, getElem?_turn_ne (by omega), ih (by omega)]

theorem getElem?_turns_of_lt (h : j < n) : (turns rand n).uuid[j]? = (turns rand (j + 1)).uuid[j]? := by
  induction n with
  | zero => omega
  | succ n ih =>
    by_cases hj : j = n
    · rw [hj]
    · rw [turns, getElem?_turn_ne hj, ih (by omega)]

theorem getElem?_generateUUID (hi : i < 36) (hfree : Free i) :
    (generateUUID rand)[i]? = some (hexDigit i ((turns rand (i + 1)).rnd.toInt % 16).toNat) := by
  rw [generateUUID, getElem?_turns_of_lt hi, ← digit_eq, turns, turn_of_free hfree]
  exact List.getElem?_set_self (by rw [length_turns]; exact hi)

theorem getElem?_generateUUID_of_not_free (hi : i < 36) (hfree : ¬ Free i) :
    (generateUUID rand)[i]? = Locals.init.uuid[i]? := by
  rw [generateUUID, getElem?_turns_of_lt hi, turns, turn_of_not_free hfree, getElem?_turns_of_le (Nat.le_refl i)]

theorem version4_generateUUID (rand : Rand) : Version4 (generateUUID rand) where
  length := length_turns
  dash i hi := by
    have h : i < 36 ∧ ¬ Free i ∧ Locals.init.uuid[i]? = some '-' := by
      revert i
      decide
    rw [getElem?_generateUUID_of_not_free h.1 h.2.1, h.2.2]
  version := getElem?_generateUUID_of_not_free (by decide) (by decide)
  digit i hi hfree := ⟨_, hexDigit_mem (by omega), getElem?_generateUUID hi hfree⟩

/-! ### The first digits -/

/-- A byte at the top of the word comes down by four bits a turn; what is below it is 0. -/
theorem dvd_turns (rand : Rand) (hn : n ≤ 6) : ((16 ^ (6 - n) : Nat) : Int) ∣ (turns rand n).rnd.toInt := by
  induction n with
  | zero => exact ⟨0, rfl⟩
  | succ n ih =>
    have hfree : Free n := by unfold Free; omega
    have hpow : 16 ^ (6 - n) = 16 ^ (6 - (n + 1)) * 16 := by
      rw [← Nat.pow_succ]
      congr 1
      omega
    have hdvd : ((16 ^ (6 - n) : Nat) : Int) ∣ ((turns rand n).refill rand).rnd.toInt := by
      unfold Locals.refill
      split
      · exact Int.dvd_trans (Int.natCast_dvd_natCast.2 (Nat.pow_dvd_pow 16 (Nat.sub_le 6 n))) (dvd_word _)
      · exact ih (by omega)
    obtain ⟨c, hc⟩ := hdvd
    rw [turns, rnd_turn hfree, toInt_shift, hc, hpow, Int.natCast_mul, Int.mul_assoc,
      Int.mul_comm ((16 : Nat) : Int), ← Int.mul_assoc]
    exact ⟨c, Int.mul_ediv_cancel _ (by decide)⟩

theorem zero_of_lt (rand : Rand) (hi : i < 5) : (generateUUID rand)[i]? = some '0' := by
  have hpow : ((16 ^ 1 : Nat) : Int) ∣ ((16 ^ (6 - (i + 1)) : Nat) : Int) :=
    Int.natCast_dvd_natCast.2 (Nat.pow_dvd_pow 16 (by omega))
  have hdvd : (16 : Int) ∣ (turns rand (i + 1)).rnd.toInt := Int.dvd_trans hpow (dvd_turns rand (by omega))
  rw [getElem?_generateUUID (by omega) (by unfold Free; omega), Int.emod_eq_zero_of_dvd hdvd, hexDigit,
    if_neg (by omega)]
  rfl

/-! ### The others -/

/-- The number of places that the first turns fill. -/
def filled : Nat → Nat
  | 0 => 0
  | i + 1 => if Free i then filled i + 1 else filled i

theorem five_le_filled (hi : 5 ≤ i) : 5 ≤ filled i := by
  induction i with
  | zero => omega
  | succ i ih =>
    by_cases h : i = 4
    · rw [h]
      decide
    · have := ih (by omega)
      rw [filled]
      split <;> omega

/-- 254 makes the word 0; the value behind `m` of them makes a word with the high byte `0x1k`. -/
def steer (m : Nat) (k : Fin 16) : Rand := fun calls => if calls < m then 254 else ⟨14 + k, by omega⟩

/-- After `c` places: up to `m` each of them has taken a word 0, and then the word with `k` moves down. -/
def Steered (m : Nat) (k : Fin 16) (s : Locals) (c : Nat) : Prop :=
  if c ≤ m then s.rnd = 0 ∧ s.calls = c else s.rnd.toInt = ((16 + k) * 16 ^ (m + 6 - c) : Nat)

theorem toInt_steer (m : Nat) (k : Fin 16) : (word (steer m k m)).toInt = ((16 + k) * 16 ^ 6 : Nat) := by
  rw [toInt_word, steer, if_neg (Nat.lt_irrefl m)]
  show (0x2000000 + ((14 + k : Nat) : Int) * 0x1000000).bmod 0x100000000 = _
  rw [Int.bmod_def]
  split <;> omega

/-- A place that takes a word. -/
theorem Steered.take {m c : Nat} {k : Fin 16} (hrnd : s.rnd = 0) (hcalls : s.calls = c) (hc : c ≤ m) (hi : Free i) :
    Steered m k (s.turn (steer m k) i) (c + 1) := by
  have hrefill : s.refill (steer m k) = { s with rnd := word (steer m k c), calls := c + 1 } := by
    rw [Locals.refill, if_pos (by rw [hrnd]; decide), hcalls]
  rw [Steered, rnd_turn hi, calls_turn hi, hrefill]
  by_cases hlt : c < m
  · rw [if_pos (by omega : c + 1 ≤ m), steer, if_pos hlt]
    exact ⟨(by decide : word 254 >>> 4 = 0), rfl⟩
  · obtain rfl : c = m := by omega
    rw [if_neg (by omega), toInt_shift, toInt_steer, show c + 6 - (c + 1) = 5 by omega]
    omega

/-- A place that moves the word down, which is not filled again before `k` has come up. -/
theorem Steered.move {m c : Nat} {k : Fin 16} (h : s.rnd.toInt = ((16 + k) * 16 ^ (m + 6 - c) : Nat)) (hc : m < c)
    (hlt : c < m + 6) (hi : Free i) : Steered m k (s.turn (steer m k) i) (c + 1) := by
  have hpow : (16 + (k : Nat)) * 16 ^ (m + 6 - c) = (16 + k) * 16 ^ (m + 6 - (c + 1)) * 16 := by
    rw [Nat.mul_assoc, ← Nat.pow_succ]
    congr 2
    omega
  have hpos : 0 < 16 ^ (m + 6 - (c + 1)) := Nat.pow_pos (by decide)
  have hlarge : ¬ s.rnd ≤ 0x02 := by
    rw [Int32.le_iff_toInt_le, h, hpow, show (0x02 : Int32).toInt = 2 from rfl]
    have := Nat.mul_le_mul (Nat.le_add_right 16 k) hpos
    omega
  rw [Steered, rnd_turn hi, Locals.refill, if_neg hlarge, if_neg (by omega), toInt_shift, h, hpow]
  omega

theorem Steered.turn {m c : Nat} {k : Fin 16} (h : Steered m k s c) (hc : c < m + 6) (hi : Free i) :
    Steered m k (s.turn (steer m k) i) (c + 1) := by
  unfold Steered at h
  split at h
  · rename_i hcm
    exact .take h.1 h.2 hcm hi
  · rename_i hcm
    exact .move h (Nat.not_le.1 hcm) hc hi

theorem steered_turns {m n : Nat} {k : Fin 16} (hn : filled n ≤ m + 6) :
    Steered m k (turns (steer m k) n) (filled n) := by
  induction n with
  | zero =>
    unfold Steered
    rw [filled, if_pos (Nat.zero_le m)]
    exact ⟨rfl, rfl⟩
  | succ n ih =>
    rw [filled] at hn ⊢
    by_cases hfree : Free n
    · rw [if_pos hfree] at hn ⊢
      exact (ih (by omega)).turn (by omega) hfree
    · rw [if_neg hfree] at hn ⊢
      rw [turns, turn_of_not_free hfree]
      exact ih hn

theorem attained_of_le {d : Char} (hlt : i < 36) (hfree : Free i) (hd : d ∈ hexDigits i) (hi : 5 ≤ i) :
    Attained i d := by
  obtain ⟨k, hk, rfl⟩ := exists_hexDigit hd
  obtain ⟨m, hm⟩ := Nat.exists_eq_add_of_le' (five_le_filled hi)
  have hfilled : filled (i + 1) = m + 6 := by rw [filled, if_pos hfree, hm]
  have hrun : Steered m ⟨k, hk⟩ (turns (steer m ⟨k, hk⟩) (i + 1)) (m + 6) := by
    rw [← hfilled]
    exact steered_turns (Nat.le_of_eq hfilled)
  have hrnd : (turns (steer m ⟨k, hk⟩) (i + 1)).rnd.toInt = ((16 + k) * 16 ^ (m + 6 - (m + 6)) : Nat) := by
    rwa [Steered, if_neg (by omega)] at hrun
  refine ⟨steer m ⟨k, hk⟩, ?_⟩
  rw [getElem?_generateUUID hlt hfree, hrnd, Nat.sub_self, Nat.pow_zero, Nat.mul_one]
  congr 2
  omega

/-- At the places from 5 on every digit can come up, at the first five only 0; and every result has the shape
of a version 4 identifier. -/
theorem attained_iff {d : Char} (hlt : i < 36) (hfree : Free i) (hd : d ∈ hexDigits i) :
    (Attained i d ↔ 5 ≤ i ∨ d = '0') ∧ ∀ rand, Version4 (generateUUID rand) := by
  refine ⟨⟨?_, ?_⟩, version4_generateUUID⟩
  · rintro ⟨rand, h⟩
    by_cases hi : 5 ≤ i
    · exact .inl hi
    · rw [zero_of_lt rand (Nat.not_le.1 hi)] at h
      exact .inr (Option.some.inj h).symm
  · rintro (hi | rfl)
    · exact attained_of_le hlt hfree hd hi
    · by_cases hi : 5 ≤ i
      · exact attained_of_le hlt hfree hd hi
      · exact ⟨fun _ => 0, zero_of_lt _ (Nat.not_le.1 hi)⟩

/-- The variant and the last digit. -/
theorem attained_variant : Attained 19 'B' ∧ Attained 35 'F' :=
  ⟨(attained_iff (by decide) (by decide) (by decide)).1.2 (.inl (by decide)),
    (attained_iff (by decide) (by decide) (by decide)).1.2 (.inl (by decide))⟩

/-- No identifier begins with 1. -/
theorem not_attained_first : 0 < 36 ∧ Free 0 ∧ '1' ∈ hexDigits 0 ∧ ¬ Attained 0 '1' := by
  refine ⟨by decide, by decide, by decide, ?_⟩
  rintro ⟨rand, h⟩
  rw [zero_of_lt rand (by decide)] at h
  exact absurd h (by decide)

end

end ChCppUtils.Uuid
