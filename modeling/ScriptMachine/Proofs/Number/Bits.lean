import Mathlib
import ScriptMachine.Number.Dyadic

/-!
# The bits of numbers

A number is made from a bit pattern, or by operations that round. A number keeps the pattern that it
was made from, unless it is a NaN: all patterns of NaNs make one number.

Main definitions:
- `magnitudeBits`: a pattern without its sign.

Results:
1. `toNat_unpackExponent`, `toNat_unpackMantissa`, `toNat_unpackSign`: the fields of a pattern.
2. `toBits_ofBits`: which patterns a number keeps.
3. `Double.toFloat_ofFloat`, `Double.toFloat_inj`: a number is kept by its pattern, and doubles that
   are no NaNs are told apart by their numbers.
4. `Double.isNaN_iff`, `Double.beq_zero_iff`, `Double.beq_iff`: comparisons, from the bits.
-/

namespace ScriptMachine

open Float.Model UnpackedFloat

/-! ## 1. Patterns -/

/-- The bits without the sign. -/
def magnitudeBits (pattern : UInt64) : UInt64 :=
  pattern &&& 0x7FFFFFFFFFFFFFFF

theorem toNat_magnitudeBits (pattern : UInt64) :
    (magnitudeBits pattern).toNat = pattern.toNat % 2 ^ 63 := by
  unfold magnitudeBits
  rw [UInt64.toNat_and]
  exact Nat.and_two_pow_sub_one_eq_mod pattern.toNat 63

theorem toNat_unpackExponent (pattern : UInt64) :
    (@unpackExponent Format.binary64 pattern.toBitVec).toNat =
      pattern.toNat / 2 ^ 52 % 2 ^ 11 := by
  simp [unpackExponent, BitVec.extractLsb, Nat.shiftRight_eq_div_pow]

theorem toNat_unpackMantissa (pattern : UInt64) :
    (@unpackMantissa Format.binary64 pattern.toBitVec).toNat = pattern.toNat % 2 ^ 52 := by
  simp [unpackMantissa, BitVec.extractLsb]

theorem toNat_unpackSign (pattern : UInt64) :
    (@unpackSign Format.binary64 pattern.toBitVec).toNat = pattern.toNat / 2 ^ 63 := by
  have hlt := pattern.toNat_lt
  simp [unpackSign, BitVec.extractLsb, Nat.shiftRight_eq_div_pow]
  omega

/-- A pattern is one of a NaN if its exponent is all ones and its mantissa is not zero. -/
theorem isNaNBits_iff (pattern : UInt64) :
    @isNaNBits Format.binary64 pattern.toBitVec = true ↔
      0x7FF0000000000000 < magnitudeBits pattern := by
  have hones : (-BitVec.ofNat Format.binary64.exponentBits 1).toNat = 2 ^ 11 - 1 := rfl
  rw [isNaNBits, decide_eq_true_eq, ne_eq, ← BitVec.toNat_inj, ← BitVec.toNat_inj,
    toNat_unpackExponent, toNat_unpackMantissa, hones, UInt64.lt_iff_toNat_lt,
    toNat_magnitudeBits]
  show pattern.toNat / 2 ^ 52 % 2 ^ 11 = 2 ^ 11 - 1 ∧ ¬ pattern.toNat % 2 ^ 52 = 0 ↔
    0x7FF0000000000000 < pattern.toNat % 2 ^ 63
  omega

/-- A number keeps the bits that it comes from, unless it is a NaN. -/
theorem toBits_ofBits (pattern : UInt64) : (Float.ofBits pattern).toBits =
    if 0x7FF0000000000000 < magnitudeBits pattern then 0x7FF8000000000000 else pattern := by
  have hpack : (Float.ofBits pattern).toBits.toBitVec =
      if @isNaNBits Format.binary64 pattern.toBitVec = true
        then packedNaN Format.binary64 else pattern.toBitVec :=
    @pack_unpack Format.binary64 pattern.toBitVec (by decide)
  rw [← UInt64.toBitVec_inj, hpack, if_congr (isNaNBits_iff pattern) rfl rfl]
  split
  · rfl
  · rfl

/-! ## 2. Comparisons of numbers -/

/-- A number is zero if it is one of the two zeros. -/
theorem beq_zero_iff (x : Float) : (x == 0) = true ↔ magnitudeBits x.toBits = 0 := by
  have hzero : (0 : Float) ≠ Float.nan := by decide
  have hnegative : (-0 : Float) ≠ Float.nan := by decide
  have hbits : (0 : Float).toBits = 0 := by decide
  have hbits' : (-0 : Float).toBits = 0x8000000000000000 := by decide
  have hlt := x.toBits.toNat_lt
  have htwo : (x == 0) = true ↔ x = 0 ∨ x = -0 := by
    rw [Float.beq_iff_ne_nan_and_eq]
    constructor
    · rintro ⟨-, -, h | ⟨h, -⟩ | ⟨h, -⟩⟩
      · exact .inl h
      · exact .inl h
      · exact .inr h
    · rintro (rfl | rfl)
      · exact ⟨hzero, hzero, .inl rfl⟩
      · exact ⟨hnegative, hzero, .inr (.inr ⟨rfl, rfl⟩)⟩
  rw [htwo, ← Float.toBits_inj, ← Float.toBits_inj, hbits, hbits']
  rw [← UInt64.toNat_inj, ← UInt64.toNat_inj, ← UInt64.toNat_inj, toNat_magnitudeBits]
  show x.toBits.toNat = 0 ∨ x.toBits.toNat = 2 ^ 63 ↔ x.toBits.toNat % 2 ^ 63 = 0
  omega

/-- Two numbers are equal if both are zero, or if they are the same and no NaN. -/
theorem beq_iff (x y : Float) :
    (x == y) = true ↔ ((x == 0) = true ∧ (y == 0) = true) ∨ (x = y ∧ x.isNaN = false) := by
  constructor
  · intro h
    obtain ⟨hx, -, rfl | ⟨rfl, rfl⟩ | ⟨rfl, rfl⟩⟩ := Float.beq_iff_ne_nan_and_eq.mp h
    · exact .inr ⟨rfl, by rw [Float.isNaN_eq_decide_eq_nan, decide_eq_false hx]⟩
    · exact .inl ⟨rfl, rfl⟩
    · exact .inl ⟨rfl, rfl⟩
  · rintro (⟨hx, hy⟩ | ⟨rfl, hx⟩)
    · exact PartialEquivBEq.trans hx (PartialEquivBEq.symm hy)
    · rw [Float.isNaN_eq_decide_eq_nan] at hx
      exact Float.beq_self_iff.mpr (of_decide_eq_false hx)

/-! ## 3. Doubles -/

namespace Double

/-- A number is kept by its pattern. -/
theorem toFloat_ofFloat (x : Float) : (ofFloat x).toFloat = x :=
  Float.ofBits_toBits x

/-- The patterns of NaNs are above those of the infinities. -/
theorem isNaN_iff (x : Double) : x.isNaN = true ↔ 0x7FF0000000000000 < magnitudeBits x.bits := by
  have hnan : Float.nan.toBits = 0x7FF8000000000000 := by decide
  show x.toFloat.isNaN = true ↔ _
  rw [Float.isNaN_eq_decide_eq_nan, decide_eq_true_iff, ← Float.toBits_inj, hnan, toFloat,
    toBits_ofBits]
  split
  · next hlarge => exact iff_of_true rfl hlarge
  · next hsmall =>
    refine iff_of_false (fun hbits => ?_) hsmall
    rw [hbits] at hsmall
    exact hsmall (by decide)

/-- Of a double that is no NaN, the number has the bits. -/
theorem toBits_toFloat {x : Double} (hx : x.isNaN = false) : x.toFloat.toBits = x.bits := by
  rw [toFloat, toBits_ofBits, if_neg]
  rw [← isNaN_iff, hx]
  exact Bool.false_ne_true

/-- Doubles that are no NaNs are told apart by their numbers. -/
theorem toFloat_inj {x y : Double} (hx : x.isNaN = false) (hy : y.isNaN = false) :
    x.toFloat = y.toFloat ↔ x = y := by
  rw [← Float.toBits_inj, toBits_toFloat hx, toBits_toFloat hy, Double.ext_iff]

theorem beq_zero (x : Double) : (x == 0) = (x.toFloat == 0) := by
  show (x.toFloat == (ofFloat 0).toFloat) = _
  rw [toFloat_ofFloat]

/-- The zeros have no bits but the sign. -/
theorem beq_zero_iff (x : Double) : (x == 0) = true ↔ magnitudeBits x.bits = 0 := by
  rw [beq_zero, ScriptMachine.beq_zero_iff, toFloat, toBits_ofBits]
  split
  · next hlarge =>
    refine iff_of_false (by decide) fun hzero => ?_
    rw [hzero] at hlarge
    exact absurd hlarge (by decide)
  · exact Iff.rfl

/-- Two doubles are equal if both are zero, or if they have the same bits and are no NaN. -/
theorem beq_iff (x y : Double) :
    (x == y) = true ↔ ((x == 0) = true ∧ (y == 0) = true) ∨ (x = y ∧ x.isNaN = false) := by
  have hsame : x.toFloat = y.toFloat ∧ x.isNaN = false ↔ x = y ∧ x.isNaN = false := by
    constructor
    · rintro ⟨hnumber, hx⟩
      have hy : y.isNaN = false := by
        rw [isNaN, ← hnumber]
        exact hx
      exact ⟨(toFloat_inj hx hy).mp hnumber, hx⟩
    · rintro ⟨rfl, hx⟩
      exact ⟨rfl, hx⟩
  rw [beq_zero, beq_zero, ← hsame]
  exact ScriptMachine.beq_iff x.toFloat y.toFloat

theorem isNaN_of_beq_zero {x : Double} (h : (x == 0) = true) : x.isNaN = false := by
  rw [beq_zero_iff] at h
  rw [← Bool.not_eq_true, isNaN_iff, h]
  decide

end Double

end ScriptMachine
