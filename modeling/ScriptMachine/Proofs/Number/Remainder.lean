import Mathlib
import ScriptMachine.Proofs.Number.Exact

/-!
# Remainders

A remainder of doubles is exact. Over the smaller of their last places both operands are whole
numbers, and what is left of one by the other is another. It has no more digits than the operand
that has this last place, so nothing is lost when it is stored.

Main definitions:
- `Double.isNegative`: the sign of a double, zeros and NaNs included.
- `IsRemainder`: what a remainder has to be.

Results:
1. `Dyadic.magnitude_rem`: what is left of a dyadic number.
2. `Dyadic.ofBits_toBits`: a dyadic number that has few enough digits is stored as it is.
3. `remainder_isRemainder`: the remainder is one.
-/

namespace ScriptMachine

/-! ## 1. Whole numbers over one last place -/

namespace Dyadic

variable {x y d : Dyadic}

/-- A number is a whole number of units of a place that is not behind its last one. -/
theorem magnitude_eq_units {place : Int} (hplace : place ≤ d.exponent) :
    d.magnitude = (d.significand * 2 ^ (d.exponent - place).toNat : Nat) * 2 ^ place := by
  obtain ⟨k, hk⟩ := Int.eq_ofNat_of_zero_le (sub_nonneg.mpr hplace)
  rw [magnitude, hk, Int.toNat_natCast, show d.exponent = k + place by omega,
    zpow_add₀ two_ne_zero, zpow_natCast]
  push_cast
  ring

/-- Of the size of `x`, what is left by the size of `y` is the size of the remainder. -/
theorem magnitude_rem (hy : y.significand ≠ 0) :
    ∃ n : Nat, x.magnitude = n * y.magnitude + (x.rem y).magnitude ∧
      (x.rem y).magnitude < y.magnitude := by
  have hplace : (0 : ℚ) < 2 ^ min x.exponent y.exponent := by positivity
  have hunits := magnitude_eq_units (Int.min_le_left x.exponent y.exponent)
  have hunits' := magnitude_eq_units (Int.min_le_right x.exponent y.exponent)
  have hrem : (x.rem y).magnitude =
      ((x.significand * 2 ^ (x.exponent - min x.exponent y.exponent).toNat %
        (y.significand * 2 ^ (y.exponent - min x.exponent y.exponent).toNat) : Nat) : ℚ) *
        2 ^ min x.exponent y.exponent := rfl
  rw [hunits, hunits', hrem]
  generalize x.significand * 2 ^ (x.exponent - min x.exponent y.exponent).toNat = u
  have hpos : 0 < y.significand * 2 ^ (y.exponent - min x.exponent y.exponent).toNat :=
    Nat.mul_pos (Nat.pos_of_ne_zero hy) (Nat.two_pow_pos _)
  generalize y.significand * 2 ^ (y.exponent - min x.exponent y.exponent).toNat = v at hpos ⊢
  have hdivision : (u : ℚ) = (u / v : Nat) * v + (u % v : Nat) := by
    exact_mod_cast (Nat.div_add_mod' u v).symm
  have hless : ((u % v : Nat) : ℚ) < v := by exact_mod_cast Nat.mod_lt u hpos
  refine ⟨u / v, ?_, mul_lt_mul_of_pos_right hless hplace⟩
  rw [← mul_assoc, ← add_mul, ← hdivision]

/-- The same with signs: the remainder has that of `x`. -/
theorem toRat_rem (hy : y.significand ≠ 0) :
    ∃ n : Int, x.toRat = n * y.toRat + (x.rem y).toRat ∧ |(x.rem y).toRat| < |y.toRat| := by
  obtain ⟨n, hsum, hless⟩ := magnitude_rem (x := x) hy
  have habs (d : Dyadic) : |d.toRat| = d.magnitude := by
    unfold toRat
    split
    · rw [abs_neg, abs_of_nonneg d.magnitude_nonneg]
    · rw [abs_of_nonneg d.magnitude_nonneg]
  rw [habs, habs]
  refine ⟨if x.negative = y.negative then n else -n, ?_, hless⟩
  have hsign : (x.rem y).negative = x.negative := rfl
  unfold toRat
  rw [hsign, hsum]
  cases x.negative <;> cases y.negative <;> simp <;> ring

end Dyadic

/-! ## 2. Storing -/

/-- A pattern that is put together from fields has these fields. -/
theorem Binary64.ofBits_fields (negative : Bool) (field fraction : Nat) (hfield : field < 2047)
    (hfraction : fraction < 2 ^ 52) :
    ofBits (UInt64.ofNat ((if negative then signBit else 0) + field * hiddenBit + fraction)) =
      finite (if field = 0 then ⟨negative, fraction, -1074⟩
        else ⟨negative, 2 ^ 52 + fraction, -1074 + (field - 1 : Nat)⟩) := by
  have hhiddenBit : hiddenBit = 2 ^ 52 := by decide
  have hsignBit : signBit = 2 ^ 63 := by decide
  have hleast : leastExponent = -1074 := rfl
  generalize hword : (if negative then signBit else 0) + field * hiddenBit + fraction = word
  have hlt : word < 2 ^ 64 := by
    rw [← hword, hsignBit, hhiddenBit]
    split <;> omega
  have hsign : decide (2 ^ 63 ≤ word) = negative := by
    rw [← hword, hsignBit, hhiddenBit]
    cases negative with
    | true => exact decide_eq_true (by simp; omega)
    | false => exact decide_eq_false (by simp; omega)
  have hfield' : word / 2 ^ 52 % 2048 = field := by
    rw [← hword, hsignBit, hhiddenBit]
    split <;> omega
  have hfraction' : word % 2 ^ 52 = fraction := by
    rw [← hword, hsignBit, hhiddenBit]
    split <;> omega
  have htoNat : (UInt64.ofNat word).toNat = word := by
    rw [UInt64.toNat_ofNat', Nat.mod_eq_of_lt hlt]
  unfold ofBits
  simp only [htoNat, hhiddenBit, hsignBit, hleast, hsign, hfield', hfraction']
  rw [if_neg (by omega)]
  split <;> rfl

/-- A number with at most 53 digits, the last of which is in a place that there is, is stored as it
is. -/
theorem Dyadic.ofBits_toBits {d : Dyadic} (hdigits : d.significand < 2 ^ 53)
    (hleast : -1074 ≤ d.exponent) (hgreatest : d.exponent ≤ 971) :
    ∃ e, Binary64.ofBits d.toBits = .finite e ∧ e.negative = d.negative ∧
      e.magnitude = d.magnitude := by
  obtain ⟨negative, m, e⟩ := d
  have hhiddenBit : Binary64.hiddenBit = 2 ^ 52 := by decide
  dsimp only at hdigits hleast hgreatest
  unfold toBits
  dsimp only
  split
  · next hzero =>
    subst hzero
    have h := Binary64.ofBits_fields negative 0 0 (by decide) (by decide)
    rw [Nat.zero_mul, Nat.add_zero, Nat.add_zero] at h
    exact ⟨_, h, rfl, by simp [magnitude]⟩
  · next hne =>
    obtain ⟨room, hroom⟩ := Int.eq_ofNat_of_zero_le (show 0 ≤ e - -1074 by omega)
    have hroom' : e - Binary64.leastExponent = room := hroom
    have hfractionBits : Binary64.fractionBits = 52 := rfl
    simp only [hroom', hfractionBits, Int.toNat_natCast, Nat.pow_eq]
    generalize hshift : min (52 - m.log2) room = shift
    have hlog : m.log2 ≤ 52 := Nat.lt_succ_iff.mp ((Nat.log2_lt hne).mpr hdigits)
    have hless : m * 2 ^ shift < 2 ^ 53 := by
      calc m * 2 ^ shift < 2 ^ (m.log2 + 1) * 2 ^ shift := by
            gcongr
            exact Nat.lt_log2_self
        _ ≤ 2 ^ 53 := by
            rw [← Nat.pow_add]
            exact Nat.pow_le_pow_right (by decide) (by omega)
    -- Zeros at the end make up for the smaller exponent.
    have hvalue : ((m * 2 ^ shift : Nat) : ℚ) * 2 ^ (e - shift) = m * 2 ^ e := by
      rw [zpow_sub₀ two_ne_zero, zpow_natCast]
      push_cast
      field_simp
    rw [hhiddenBit]
    split
    · next hsub =>
      have hall : shift = room := by
        by_contra hfewer
        have hfull : shift = 52 - m.log2 := by omega
        have hlarge : 2 ^ 52 ≤ m * 2 ^ shift := by
          calc 2 ^ 52 = 2 ^ m.log2 * 2 ^ shift := by
                rw [← Nat.pow_add]
                congr 1
                omega
            _ ≤ m * 2 ^ shift := by
                gcongr
                exact Nat.log2_self_le hne
        omega
      have h := Binary64.ofBits_fields negative 0 (m * 2 ^ shift) (by decide) hsub
      rw [Nat.zero_mul, Nat.add_zero] at h
      refine ⟨_, h, rfl, ?_⟩
      rw [if_pos rfl, magnitude, magnitude, ← hvalue, show e - (shift : Int) = -1074 by omega]
    · next hfull =>
      have h := Binary64.ofBits_fields negative (room - shift + 1) (m * 2 ^ shift - 2 ^ 52)
        (by omega) (by omega)
      have hparts : (room - shift) * 2 ^ 52 + m * 2 ^ shift =
          (room - shift + 1) * 2 ^ 52 + (m * 2 ^ shift - 2 ^ 52) := by omega
      rw [hhiddenBit, Nat.add_assoc, ← hparts, ← Nat.add_assoc] at h
      refine ⟨_, h, rfl, ?_⟩
      rw [if_neg (by omega), magnitude, magnitude, ← hvalue]
      dsimp only
      rw [show 2 ^ 52 + (m * 2 ^ shift - 2 ^ 52) = m * 2 ^ shift by omega,
        show -1074 + ((room - shift + 1 - 1 : Nat) : Int) = e - shift by omega]

/-! ## 3. Remainders -/

/-- The sign of a double, also of a zero and of a NaN. -/
def Double.isNegative (x : Double) : Bool :=
  decide (Binary64.signBit ≤ x.bits.toNat)

/-- `IsRemainder x y r`: `r` is what is left of `x` after as many whole `y` as go into it. -/
inductive IsRemainder (x y : Double) : Double → Prop
  /-- There is none of what is not finite, by a NaN, or by zero. -/
  | none {r : Double} : x.isFinite = false ∨ y.isNaN = true ∨ y.isFinite = true ∧ ratOf y = 0 →
      r.isNaN = true → IsRemainder x y r
  /-- No infinity goes into a number. -/
  | infinite : x.isFinite = true → y.isInf = true → IsRemainder x y x
  /-- Otherwise it is exact, and has the sign of `x`. -/
  | finite {r : Double} {n : Int} : x.isFinite = true → y.isFinite = true → ratOf y ≠ 0 →
      r.isFinite = true → ratOf x = n * ratOf y + ratOf r → |ratOf r| < |ratOf y| →
      r.isNegative = x.isNegative → IsRemainder x y r

section Classes

open Float.Model UnpackedFloat

variable {x : Double}

theorem isNaN_of_ofBits (h : Binary64.ofBits x.bits = .nan) :
    x.isNaN = true ∧ x.isFinite = false := by
  rw [Binary64.ofBits_bits] at h
  show x.unpack.isNaN = true ∧ x.unpack.isFinite = false
  cases hunpack : x.unpack with
  | notANumber => exact ⟨rfl, rfl⟩
  | _ =>
    rw [hunpack] at h
    cases h

theorem isInf_of_ofBits {negative : Bool} (h : Binary64.ofBits x.bits = .infinite negative) :
    x.isInf = true ∧ x.isFinite = false := by
  rw [Binary64.ofBits_bits] at h
  show x.unpack.isInf = true ∧ x.unpack.isFinite = false
  cases hunpack : x.unpack with
  | infinity s => exact ⟨rfl, rfl⟩
  | _ =>
    rw [hunpack] at h
    cases h

theorem isFinite_of_ofBits {d : Dyadic} (h : Binary64.ofBits x.bits = .finite d) :
    x.isFinite = true ∧ ratOf x = d.toRat := by
  rw [Binary64.ofBits_bits] at h
  show x.unpack.isFinite = true ∧ valueOf x.unpack = d.toRat
  cases hunpack : x.unpack with
  | zero s =>
    rw [hunpack] at h
    cases h
    exact ⟨rfl, by simp [Dyadic.toRat, Dyadic.magnitude, valueOf]⟩
  | finite s m e hm =>
    rw [hunpack] at h
    cases h
    exact ⟨rfl, by cases s <;> simp [Dyadic.toRat, Dyadic.magnitude, valueOf, Sign.apply]⟩
  | _ =>
    rw [hunpack] at h
    cases h

theorem isNegative_of_ofBits {d : Dyadic} (h : Binary64.ofBits x.bits = .finite d) :
    x.isNegative = d.negative := by
  unfold Binary64.ofBits at h
  dsimp only at h
  split at h
  · split at h <;> cases h
  · split at h <;> cases h <;> rfl

end Classes

/-- A remainder has no more digits than a double has. -/
theorem Dyadic.significand_rem_lt {x y : Dyadic} (hx : x.significand < 2 ^ 53)
    (hy : y.significand < 2 ^ 53) (hne : y.significand ≠ 0) : (x.rem y).significand < 2 ^ 53 := by
  show x.significand * 2 ^ (x.exponent - min x.exponent y.exponent).toNat %
    (y.significand * 2 ^ (y.exponent - min x.exponent y.exponent).toNat) < 2 ^ 53
  rcases Int.le_total x.exponent y.exponent with hle | hle
  · rw [Int.min_eq_left hle, Int.sub_self, Int.toNat_zero, pow_zero, Nat.mul_one]
    exact (Nat.mod_le _ _).trans_lt hx
  · rw [Int.min_eq_right hle, Int.sub_self, Int.toNat_zero, pow_zero, Nat.mul_one]
    exact (Nat.mod_lt _ (Nat.pos_of_ne_zero hne)).trans hy

/-- The remainder is what it has to be. -/
theorem remainder_isRemainder (x y : Double) : IsRemainder x y (remainder x y) := by
  have hnan : Double.nan.isNaN = true := by decide +kernel
  unfold remainder
  cases hx : Binary64.ofBits x.bits with
  | nan => exact .none (.inl (isNaN_of_ofBits hx).2) hnan
  | infinite negative =>
    cases Binary64.ofBits y.bits <;> exact .none (.inl (isInf_of_ofBits hx).2) hnan
  | finite a =>
    obtain ⟨hfinite, hvalue⟩ := isFinite_of_ofBits hx
    cases hy : Binary64.ofBits y.bits with
    | nan => exact .none (.inr (.inl (isNaN_of_ofBits hy).1)) hnan
    | infinite negative => exact .infinite hfinite (isInf_of_ofBits hy).1
    | finite b =>
      obtain ⟨hfinite', hvalue'⟩ := isFinite_of_ofBits hy
      dsimp only
      split
      · next hzero =>
        have hnone : ratOf y = 0 := by
          rw [hvalue', Dyadic.toRat, Dyadic.magnitude, hzero]
          simp
        exact .none (.inr (.inr ⟨hfinite', hnone⟩)) hnan
      · next hne =>
        obtain ⟨hleast, hgreatest, hdigits, -⟩ := Binary64.ofBits_eq_finite hx
        obtain ⟨hleast', hgreatest', hdigits', -⟩ := Binary64.ofBits_eq_finite hy
        obtain ⟨n, hsum, hless⟩ := Dyadic.toRat_rem (x := a) hne
        have hplace : (a.rem b).exponent = min a.exponent b.exponent := rfl
        obtain ⟨r, hbits, hsign, hmagnitude⟩ :=
          Dyadic.ofBits_toBits (Dyadic.significand_rem_lt hdigits hdigits' hne)
            (by omega) (by omega)
        have hstored : r.toRat = (a.rem b).toRat := by
          rw [Dyadic.toRat, hsign, hmagnitude, Dyadic.toRat]
        obtain ⟨hfinite'', hvalue''⟩ := isFinite_of_ofBits (x := (a.rem b).toDouble) hbits
        have hsame := isNegative_of_ofBits (x := (a.rem b).toDouble) hbits
        rw [hstored] at hvalue''
        refine .finite (n := n) hfinite hfinite' ?_ hfinite'' ?_ ?_ ?_
        · rw [hvalue', ← abs_pos]
          exact (abs_nonneg _).trans_lt hless
        · rw [hvalue, hvalue', hvalue'', hsum]
        · rw [hvalue', hvalue'']
          exact hless
        · rw [hsame, hsign, isNegative_of_ofBits hx]
          rfl

end ScriptMachine
