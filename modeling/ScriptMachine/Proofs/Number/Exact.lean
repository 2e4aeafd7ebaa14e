import Mathlib
import ScriptMachine.Proofs.Number.Bits

/-!
# Doubles are rational numbers

A finite double is a rational number. It is read as that number wherever a number has to be exact,
it is stored with as many digits as there are, and two of them are ordered as the numbers are. A
number that is too large for a double is stored as an infinity, which lies beyond all doubles as
the number does. So whoever compares what is stored with a double need not ask whether it was too
large.

Main definitions:
- `Dyadic.toRat`, `ratOf`: the number that a dyadic number is, and that a double is.
- `Canonical`: a number with as many digits as a double has.
- `Stores`: how a number is stored.

Results:
1. `Dyadic.toInt?_eq_some_iff`, `integerOf?_eq_some_iff`: the integer that is read from a double is
   the number that it is.
2. `unpack_pack_finite`: a number is read as it was stored, unless it is too large.
3. `le_iff_ratOf_le`: finite doubles are ordered as the numbers that they are.
4. `stores_pack`: what is stored compares with all doubles as the number does.
-/

namespace ScriptMachine

open Float.Model UnpackedFloat

/-! ## 1. Dyadic numbers -/

namespace Dyadic

/-- The size of a dyadic number. -/
def magnitude (d : Dyadic) : ℚ :=
  d.significand * 2 ^ d.exponent

/-- The number that a dyadic number is. -/
def toRat (d : Dyadic) : ℚ :=
  if d.negative then -d.magnitude else d.magnitude

theorem magnitude_nonneg (d : Dyadic) : 0 ≤ d.magnitude := by
  unfold magnitude
  positivity

theorem integralMagnitude?_eq_some_iff {d : Dyadic} {n : Nat} :
    d.integralMagnitude? = some n ↔ d.magnitude = n := by
  obtain ⟨negative, m, e⟩ := d
  unfold integralMagnitude? magnitude
  dsimp only
  split
  · next he =>
    obtain ⟨k, rfl⟩ := Int.eq_ofNat_of_zero_le he
    rw [Option.some.injEq, Int.toNat_natCast, zpow_natCast]
    exact_mod_cast Iff.rfl
  · next he =>
    obtain ⟨k, hk⟩ := Int.eq_ofNat_of_zero_le (show 0 ≤ -e by omega)
    obtain rfl : e = -(k : Int) := by omega
    have hpos : 0 < 2 ^ k := Nat.two_pow_pos k
    have hscale : (m : ℚ) * 2 ^ (-(k : Int)) = n ↔ m = n * 2 ^ k := by
      rw [zpow_neg, zpow_natCast, ← div_eq_mul_inv, div_eq_iff (by positivity)]
      exact_mod_cast Iff.rfl
    rw [hscale, neg_neg, Int.toNat_natCast, Nat.pow_eq]
    split
    · next hmod =>
      rw [Option.some.injEq, Nat.div_eq_iff_eq_mul_left hpos (Nat.dvd_of_mod_eq_zero hmod)]
    · next hmod =>
      constructor
      · intro h
        cases h
      · intro h
        rw [h, Nat.mul_mod_left] at hmod
        exact absurd rfl hmod

/-- The integer that is read from a dyadic number is the number that it is. -/
theorem toInt?_eq_some_iff {d : Dyadic} {n : Int} : d.toInt? = some n ↔ d.toRat = n := by
  have hsign : d.toRat = n ↔ d.magnitude = ((if d.negative then -n else n : Int) : ℚ) := by
    unfold toRat
    split
    · rw [neg_eq_iff_eq_neg, Int.cast_neg]
    · exact Iff.rfl
  have hread : d.toInt? = d.integralMagnitude?.map fun (k : Nat) =>
      if d.negative then -(k : Int) else (k : Int) := by
    unfold toInt?
    cases d.integralMagnitude? <;> rfl
  rw [hsign, hread, Option.map_eq_some_iff]
  constructor
  · rintro ⟨k, hk, rfl⟩
    rw [integralMagnitude?_eq_some_iff.mp hk]
    split <;> simp
  · intro h
    have hnonneg := d.magnitude_nonneg
    rw [h, Int.cast_nonneg_iff] at hnonneg
    obtain ⟨k, hk⟩ := Int.eq_ofNat_of_zero_le hnonneg
    rw [hk, Int.cast_natCast] at h
    refine ⟨k, integralMagnitude?_eq_some_iff.mpr h, ?_⟩
    rw [← hk]
    split <;> simp

end Dyadic

/-! ## 2. Numbers taken apart -/

/-- The class of a double, from how its bits are taken apart. -/
def Binary64.ofUnpacked : UnpackedFloat → Binary64
  | .notANumber => nan
  | .infinity sign => infinite (sign == .negative)
  | .zero sign => finite ⟨sign == .negative, 0, leastExponent⟩
  | .finite sign mantissa exponent _ => finite ⟨sign == .negative, mantissa, exponent⟩

theorem ofBitVec_beq_negative (b : BitVec 1) :
    (Sign.ofBitVec b == .negative) = decide (b.toNat = 1) := by
  decide +revert

/-- The leading digit, which is not stored, stands before the others. -/
theorem toNat_one_append (digits : BitVec 52) :
    (1#1 ++ digits).toNat = 2 ^ 52 + digits.toNat := by
  rw [BitVec.toNat_append, Nat.shiftLeft_eq, Nat.mul_comm,
    ← Nat.two_pow_add_eq_or_of_lt digits.isLt]
  rfl

/-- Both ways to take a pattern apart agree. -/
theorem Binary64.ofBits_eq_ofUnpacked (pattern : UInt64) :
    ofBits pattern = ofUnpacked (UnpackedFloat.unpack Format.binary64 pattern.toBitVec) := by
  have hlt := pattern.toNat_lt
  have hexponent := toNat_unpackExponent pattern
  have hmantissa := toNat_unpackMantissa pattern
  have hsign : (Sign.ofBitVec (@unpackSign Format.binary64 pattern.toBitVec) == .negative) =
      decide (signBit ≤ pattern.toNat) := by
    rw [ofBitVec_beq_negative, toNat_unpackSign, decide_eq_decide]
    show _ ↔ 2 ^ 63 ≤ _
    omega
  have hones : @unpackExponent Format.binary64 pattern.toBitVec = -1#_ ↔
      pattern.toNat / hiddenBit % 2048 = 2047 := by
    rw [← BitVec.toNat_inj, hexponent]
    rfl
  have hzeros : @unpackExponent Format.binary64 pattern.toBitVec = 0#_ ↔
      pattern.toNat / hiddenBit % 2048 = 0 := by
    rw [← BitVec.toNat_inj, hexponent]
    rfl
  have hnone : @unpackMantissa Format.binary64 pattern.toBitVec = 0#_ ↔
      pattern.toNat % hiddenBit = 0 := by
    rw [← BitVec.toNat_inj, hmantissa]
    rfl
  have hhiddenBit : hiddenBit = 2 ^ 52 := by decide
  have hleast : leastExponent = -1074 := rfl
  have hbias : (Format.binary64.exponentBias : Int) = 1023 := by decide
  unfold ofBits UnpackedFloat.unpack
  simp only [hones, hzeros, hnone]
  split
  · split
    · simp only [ofUnpacked, hsign]
    · rfl
  · next hfinite =>
    split
    · next hsub =>
      split
      · next hzero => simp only [ofUnpacked, hsign, hzero]
      · next hne =>
        simp only [ofUnpacked, hsign, hmantissa, hexponent, hbias, hhiddenBit, hleast,
          finite.injEq, Dyadic.mk.injEq, true_and] at hsub ⊢
        omega
    · next hnorm =>
      have hfull : (1#1 ++ @unpackMantissa Format.binary64 pattern.toBitVec).toNat =
          2 ^ 52 + pattern.toNat % 2 ^ 52 := by
        rw [toNat_one_append, hmantissa]
      simp only [ofUnpacked, hsign, hfull, hexponent, hbias, hhiddenBit, hleast, finite.injEq,
        Dyadic.mk.injEq, true_and] at hnorm ⊢
      omega

theorem Binary64.ofBits_eq_finite {pattern : UInt64} {d : Dyadic}
    (h : ofBits pattern = .finite d) : -1074 ≤ d.exponent ∧ d.exponent ≤ 971 ∧
      d.significand < 2 ^ 53 ∧ (2 ^ 52 ≤ d.significand ∨ d.exponent = -1074) := by
  have hhiddenBit : hiddenBit = 2 ^ 52 := by decide
  have hleast : leastExponent = -1074 := rfl
  unfold ofBits at h
  simp only [hhiddenBit, hleast] at h
  split at h
  · split at h <;> cases h
  · split at h
    · cases h
      dsimp only
      omega
    · cases h
      dsimp only
      omega

/-- There are as many digits as a double has, unless the number is so small that the last of them
would stand behind the last place of all. Nothing is said of how large the number is. -/
def Canonical : UnpackedFloat → Prop
  | .finite _ m e _ => -1074 ≤ e ∧ m < 2 ^ 53 ∧ (2 ^ 52 ≤ m ∨ e = -1074)
  | .zero _ | .infinity _ | .notANumber => True

theorem unpack_canonical {f : Float.Model} {s : Sign} {m : Nat} {e : Int} {hm : 0 < m}
    (hf : f.unpack = .finite s m e hm) : Canonical (.finite s m e hm) ∧ e ≤ 971 := by
  have hclass : Binary64.ofBits f.toBits = .finite ⟨s == .negative, m, e⟩ := by
    have h := Binary64.ofBits_eq_ofUnpacked f.toBits
    rw [show UnpackedFloat.unpack Format.binary64 f.toBits.toBitVec = .finite s m e hm from hf] at h
    exact h
  obtain ⟨hleast, hgreatest, hdigits, hnormal⟩ := Binary64.ofBits_eq_finite hclass
  exact ⟨⟨hleast, hdigits, hnormal⟩, hgreatest⟩

theorem canonical_unpack (f : Float.Model) : Canonical f.unpack := by
  cases hf : f.unpack with
  | finite s m e hm => exact (unpack_canonical hf).1
  | _ => trivial

/-! ## 3. Storing -/

section Store

variable (s : Sign) {m : Nat} {e : Int} (hm : 0 < m)

/-- The exponent is stored 1075 too large, so that it is not negative. -/
theorem biased_eq (e : Int) : e + Format.binary64.exponentBias +
    Format.binary64.mantissaBitsWithoutImplicit = e + 1075 := by
  show e + 1023 + 52 = e + 1075
  omega

include hm in
theorem digits_full_iff (hdigits : m < 2 ^ 53) :
    m.log2 + 1 = Format.binary64.mantissaBits ↔ 2 ^ 52 ≤ m := by
  have h : m.log2 = 52 ↔ 2 ^ 52 ≤ m ∧ m < 2 ^ 53 := Nat.log2_eq_iff (Nat.ne_of_gt hm)
  show m.log2 + 1 = 53 ↔ _
  rw [show m.log2 + 1 = 53 ↔ m.log2 = 52 by omega, h]
  exact and_iff_left hdigits

theorem unpack_pack_of_overflow (hover : 971 < e) :
    (Float.Model.pack (.finite s m e hm)).unpack = .infinity s := by
  show UnpackedFloat.unpack Format.binary64 (UnpackedFloat.pack Format.binary64 _) = _
  have hlarge : 2 ^ 11 ≤ (e + 1075).toNat + 1 := by omega
  unfold UnpackedFloat.pack
  dsimp only
  rw [biased_eq, if_pos hlarge]
  simp [UnpackedFloat.unpack, packedInfinity]

theorem unpack_pack_of_normal (hfull : 2 ^ 52 ≤ m) (hdigits : m < 2 ^ 53) (hleast : -1074 ≤ e)
    (hgreatest : e ≤ 971) :
    (Float.Model.pack (.finite s m e hm)).unpack = .finite s m e hm := by
  have hfits : ¬ 2 ^ 11 ≤ (e + 1075).toNat + 1 := by omega
  have hexponent : (BitVec.ofNat 11 (e + 1075).toNat).toNat = (e + 1075).toNat := by
    rw [BitVec.toNat_ofNat]
    omega
  have hones : BitVec.ofNat 11 (e + 1075).toNat ≠ -1#11 := by
    rw [ne_eq, ← BitVec.toNat_inj, hexponent]
    show (e + 1075).toNat ≠ 2047
    omega
  have hzeros : BitVec.ofNat 11 (e + 1075).toNat ≠ 0#11 := by
    rw [ne_eq, ← BitVec.toNat_inj, hexponent]
    show (e + 1075).toNat ≠ 0
    omega
  have hmantissa : (1#1 ++ BitVec.ofNat 52 m).toNat = m := by
    rw [toNat_one_append, BitVec.toNat_ofNat]
    omega
  show UnpackedFloat.unpack Format.binary64 (UnpackedFloat.pack Format.binary64 _) = _
  unfold UnpackedFloat.pack
  dsimp only
  rw [biased_eq, if_neg hfits, if_pos ((digits_full_iff hm hdigits).mpr hfull)]
  unfold UnpackedFloat.unpack
  simp only [unpackExponent_packComponents, unpackMantissa_packComponents,
    unpackSign_packComponents, Sign.ofBitVec_toBitVec, if_neg hones, if_neg hzeros, hexponent,
    hmantissa, finite.injEq, true_and]
  show ((e + 1075).toNat : Int) - (1023 + 52) = e
  omega

theorem unpack_pack_of_subnormal (hsub : m < 2 ^ 52) :
    (Float.Model.pack (.finite s m (-1074) hm)).unpack = .finite s m (-1074) hm := by
  have hdigits : m < 2 ^ 53 := Nat.lt_trans hsub (by decide)
  have hshort : ¬ m.log2 + 1 = Format.binary64.mantissaBits := by
    rw [digits_full_iff hm hdigits]
    exact Nat.not_le_of_lt hsub
  have hmantissa : (BitVec.ofNat 52 m).toNat = m := by
    rw [BitVec.toNat_ofNat, Nat.mod_eq_of_lt hsub]
  have hsome : BitVec.ofNat 52 m ≠ 0#52 := by
    rw [ne_eq, ← BitVec.toNat_inj, hmantissa]
    exact Nat.ne_of_gt hm
  have hones : (0#11) ≠ -1#11 := by decide
  show UnpackedFloat.unpack Format.binary64 (UnpackedFloat.pack Format.binary64 _) = _
  unfold UnpackedFloat.pack
  dsimp only
  rw [biased_eq, if_neg (by decide), if_neg hshort]
  unfold UnpackedFloat.unpack
  simp only [unpackExponent_packComponents, unpackMantissa_packComponents,
    unpackSign_packComponents, Sign.ofBitVec_toBitVec, if_neg hones, if_pos, dif_neg hsome,
    hmantissa, finite.injEq, true_and]
  rfl

/-- A number is read as it was stored, unless it is too large. -/
theorem unpack_pack_finite (hc : Canonical (.finite s m e hm)) :
    (Float.Model.pack (.finite s m e hm)).unpack =
      if e ≤ 971 then .finite s m e hm else .infinity s := by
  obtain ⟨hleast, hdigits, hnormal⟩ := hc
  split
  · next hgreatest =>
    rcases Nat.lt_or_ge m (2 ^ 52) with hsub | hfull
    · obtain rfl : e = -1074 := hnormal.resolve_left (Nat.not_le_of_lt hsub)
      exact unpack_pack_of_subnormal s hm hsub
    · exact unpack_pack_of_normal s hm hfull hdigits hleast hgreatest
  · next hover => exact unpack_pack_of_overflow s hm (by omega)

end Store

/-! ## 4. Order -/

/-- The number that a finite number is; 0 for what is none. -/
def valueOf : UnpackedFloat → ℚ
  | .finite s m e _ => (s.apply m : Int) * 2 ^ e
  | .zero _ | .infinity _ | .notANumber => 0

theorem compare_mul_pos {a b c : ℚ} (hc : 0 < c) : compare (a * c) (b * c) = compare a b := by
  rcases lt_trichotomy a b with h | rfl | h
  · rw [compare_lt_iff_lt.mpr h, compare_lt_iff_lt]
    exact mul_lt_mul_of_pos_right h hc
  · rw [compare_eq_iff_eq.mpr rfl, compare_eq_iff_eq.mpr rfl]
  · rw [compare_gt_iff_gt.mpr h, compare_gt_iff_gt]
    exact mul_lt_mul_of_pos_right h hc

theorem compare_natCast (m n : Nat) : compare (m : ℚ) n = compare m n := by
  rcases lt_trichotomy m n with h | rfl | h
  · rw [compare_lt_iff_lt.mpr h, compare_lt_iff_lt]
    exact_mod_cast h
  · rw [compare_eq_iff_eq.mpr rfl, compare_eq_iff_eq.mpr rfl]
  · rw [compare_gt_iff_gt.mpr h, compare_gt_iff_gt]
    exact_mod_cast h

theorem compare_neg (a b : ℚ) : compare (-a) (-b) = (compare a b).swap := by
  rw [← Std.OrientedOrd.eq_swap]
  rcases lt_trichotomy a b with h | rfl | h
  · rw [compare_gt_iff_gt.mpr h, compare_gt_iff_gt]
    exact neg_lt_neg h
  · rw [compare_eq_iff_eq.mpr rfl, compare_eq_iff_eq.mpr rfl]
  · rw [compare_lt_iff_lt.mpr h, compare_lt_iff_lt]
    exact neg_lt_neg h

theorem isLE_compare {a b : ℚ} : (compare a b).isLE = true ↔ a ≤ b :=
  Ordering.isLE_iff_ne_gt.trans compare_le_iff_le

/-- Of two numbers, the one with the larger exponent is larger, if it has all its digits. -/
theorem magnitude_lt {m n : Nat} {e f : Int} (hm : m < 2 ^ 53) (hn : 2 ^ 52 ≤ n) (hef : e < f) :
    (m : ℚ) * 2 ^ e < n * 2 ^ f := by
  have hm : (m : ℚ) < 2 ^ 53 := by exact_mod_cast hm
  have hn : (2 : ℚ) ^ 52 ≤ n := by exact_mod_cast hn
  calc (m : ℚ) * 2 ^ e < 2 ^ 53 * 2 ^ e := by gcongr
    _ = 2 ^ 52 * 2 ^ (e + 1) := by
      rw [zpow_add₀ two_ne_zero]
      ring
    _ ≤ n * 2 ^ f := by
      gcongr
      · norm_num
      · omega

theorem magnitude_pos {m : Nat} (hm : 0 < m) (e : Int) : (0 : ℚ) < m * 2 ^ e := by
  have hm : (0 : ℚ) < m := by exact_mod_cast hm
  positivity

theorem compare_magnitudes {s t : Sign} {m n : Nat} {e f : Int} {hm : 0 < m} {hn : 0 < n}
    (hu : Canonical (.finite s m e hm)) (hv : Canonical (.finite t n f hn)) :
    (compare e f).then (compare m n) = compare ((m : ℚ) * 2 ^ e) (n * 2 ^ f) := by
  obtain ⟨hleast, hdigits, hnormal⟩ := hu
  obtain ⟨hleast', hdigits', hnormal'⟩ := hv
  rcases lt_trichotomy e f with hlt | rfl | hgt
  · rw [compare_lt_iff_lt.mpr hlt, compare_lt_iff_lt.mpr (magnitude_lt hdigits (by omega) hlt)]
    rfl
  · rw [compare_eq_iff_eq.mpr rfl, compare_mul_pos (by positivity), compare_natCast]
    rfl
  · rw [compare_gt_iff_gt.mpr hgt, compare_gt_iff_gt.mpr (magnitude_lt hdigits' (by omega) hgt)]
    rfl

/-- Numbers are ordered as the rationals that they are. -/
theorem compare_eq_compare_valueOf {u v : UnpackedFloat} (hu : u.isFinite = true)
    (hv : v.isFinite = true) (hcu : Canonical u) (hcv : Canonical v) :
    u.compare v = some (compare (valueOf u) (valueOf v)) := by
  have hlt {a b : ℚ} (h : a < b) : some Ordering.lt = some (compare a b) := by
    rw [compare_lt_iff_lt.mpr h]
  have hgt {a b : ℚ} (h : b < a) : some Ordering.gt = some (compare a b) := by
    rw [compare_gt_iff_gt.mpr h]
  have hpositive {m : Nat} {e : Int} {hm : 0 < m} :
      valueOf (.finite .positive m e hm) = m * 2 ^ e := by
    simp [valueOf, Sign.apply]
  have hnegative {m : Nat} {e : Int} {hm : 0 < m} :
      valueOf (.finite .negative m e hm) = -(m * 2 ^ e) := by
    simp [valueOf, Sign.apply]
  have hzero {s : Sign} : valueOf (.zero s) = 0 := rfl
  rcases u with _ | _ | _ | ⟨_ | _, m, e, hm⟩
  · cases hu
  · cases hu
  · rcases v with _ | _ | _ | ⟨_ | _, n, f, hn⟩
    · cases hv
    · cases hv
    · rw [hzero, hzero, compare_eq_iff_eq.mpr rfl]
      rfl
    · exact hgt (by rw [hnegative]; exact neg_lt_zero.mpr (magnitude_pos hn f))
    · exact hlt (by rw [hpositive]; exact magnitude_pos hn f)
  · rcases v with _ | _ | _ | ⟨_ | _, n, f, hn⟩
    · cases hv
    · cases hv
    · exact hlt (by rw [hnegative]; exact neg_lt_zero.mpr (magnitude_pos hm e))
    · rw [hnegative, hnegative, compare_neg, ← compare_magnitudes hcu hcv]
      rfl
    · refine hlt ?_
      rw [hnegative, hpositive]
      exact (neg_lt_zero.mpr (magnitude_pos hm e)).trans (magnitude_pos hn f)
  · rcases v with _ | _ | _ | ⟨_ | _, n, f, hn⟩
    · cases hv
    · cases hv
    · exact hgt (by rw [hpositive]; exact magnitude_pos hm e)
    · refine hgt ?_
      rw [hnegative, hpositive]
      exact (neg_lt_zero.mpr (magnitude_pos hn f)).trans (magnitude_pos hm e)
    · rw [hpositive, hpositive, ← compare_magnitudes hcu hcv]
      rfl

theorem compare_swap (u v : UnpackedFloat) : v.compare u = (u.compare v).map Ordering.swap := by
  have hswap {e f : Int} {m n : Nat} : (compare f e).then (compare n m) =
      ((compare e f).then (compare m n)).swap := by
    rw [Ordering.swap_then, ← Std.OrientedOrd.eq_swap, ← Std.OrientedOrd.eq_swap]
  rcases u with (_ | _) | _ | _ | ⟨_ | _, m, e, hm⟩ <;>
    rcases v with (_ | _) | _ | _ | ⟨_ | _, n, f, hn⟩ <;> try rfl
  · exact congrArg (fun o => some (Ordering.swap o)) hswap
  · exact congrArg some hswap

theorem exists_compare {u v : UnpackedFloat} (hu : u.isNaN = false) (hv : v.isNaN = false) :
    ∃ o, u.compare v = some o := by
  rcases u with (_ | _) | _ | _ | ⟨_ | _, m, e, hm⟩ <;>
    rcases v with (_ | _) | _ | _ | ⟨_ | _, n, f, hn⟩ <;>
    first | exact ⟨_, rfl⟩ | exact absurd hu (by decide) | exact absurd hv (by decide)

/-! ## 5. Doubles -/

/-- The number of a double, taken apart. -/
def Double.unpack (x : Double) : UnpackedFloat :=
  x.toFloat.toModel.unpack

/-- The class of a double is that of its number. For a NaN, both forget which NaN it is. -/
theorem Binary64.ofBits_bits (x : Double) : ofBits x.bits = ofUnpacked x.unpack := by
  cases hnan : x.isNaN with
  | true =>
    have hlarge := Double.isNaN_iff x |>.mp hnan
    have hhiddenBit : hiddenBit = 2 ^ 52 := by decide
    rw [UInt64.lt_iff_toNat_lt, toNat_magnitudeBits] at hlarge
    replace hlarge : 2047 * 2 ^ 52 < x.bits.toNat % 2 ^ 63 := hlarge
    rw [show x.unpack = .notANumber from isNaN_iff.mp hnan]
    unfold ofBits ofUnpacked
    dsimp only
    rw [hhiddenBit, if_pos (by omega), if_neg (by omega)]
  | false =>
    have hbits : x.unpack = UnpackedFloat.unpack Format.binary64 x.bits.toBitVec := by
      rw [← Double.toBits_toFloat hnan]
      rfl
    rw [ofBits_eq_ofUnpacked, hbits]

/-- The number that a double is; 0 for one that is none. -/
def ratOf (x : Double) : ℚ :=
  valueOf x.unpack

theorem integerOf?_eq_some_iff {x : Double} {n : Int} :
    integerOf? x = some n ↔ x.isFinite = true ∧ ratOf x = n := by
  unfold integerOf?
  rw [Binary64.ofBits_bits]
  show _ ↔ x.unpack.isFinite = true ∧ valueOf x.unpack = n
  cases x.unpack with
  | notANumber => simp [Binary64.ofUnpacked, UnpackedFloat.isFinite]
  | infinity s => simp [Binary64.ofUnpacked, UnpackedFloat.isFinite]
  | zero s =>
    show Dyadic.toInt? _ = _ ↔ _
    rw [Dyadic.toInt?_eq_some_iff]
    simp [Dyadic.toRat, Dyadic.magnitude, UnpackedFloat.isFinite, valueOf]
  | finite s m e hm =>
    show Dyadic.toInt? _ = _ ↔ _
    rw [Dyadic.toInt?_eq_some_iff]
    cases s <;> simp [Dyadic.toRat, Dyadic.magnitude, UnpackedFloat.isFinite, valueOf, Sign.apply]

theorem isNaN_of_isFinite {x : Double} (hx : x.isFinite = true) : x.isNaN = false := by
  replace hx : x.unpack.isFinite = true := hx
  show x.unpack.isNaN = false
  cases hunpack : x.unpack with
  | notANumber =>
    rw [hunpack] at hx
    cases hx
  | _ => rfl

theorem isInf_of_isFinite {x : Double} (hx : x.isFinite = true) : x.isInf = false := by
  replace hx : x.unpack.isFinite = true := hx
  show x.unpack.isInf = false
  cases hunpack : x.unpack with
  | infinity s =>
    rw [hunpack] at hx
    cases hx
  | _ => rfl

theorem isFinite_of_isInf_of_isNaN {x : Double} (hinf : x.isInf = false) (hnan : x.isNaN = false) :
    x.isFinite = true := by
  replace hinf : x.unpack.isInf = false := hinf
  replace hnan : x.unpack.isNaN = false := hnan
  show x.unpack.isFinite = true
  cases hunpack : x.unpack with
  | infinity s =>
    rw [hunpack] at hinf
    cases hinf
  | notANumber =>
    rw [hunpack] at hnan
    cases hnan
  | _ => rfl

theorem le_iff_isLE {x y : Double} {o : Ordering}
    (h : x.unpack.compare y.unpack = some o) : x ≤ y ↔ o.isLE = true := by
  show decide (x.unpack.le y.unpack = true) = true ↔ _
  rw [decide_eq_true_iff, UnpackedFloat.le, h]
  rfl

theorem le_iff_ratOf_le {x y : Double} (hx : x.isFinite = true) (hy : y.isFinite = true) :
    x ≤ y ↔ ratOf x ≤ ratOf y :=
  (le_iff_isLE (compare_eq_compare_valueOf hx hy (canonical_unpack _) (canonical_unpack _))).trans
    isLE_compare

/-- Of two doubles that are no NaNs, one is before the other or not after it. -/
theorem lt_iff_not_le {x y : Double} (hx : x.isNaN = false) (hy : y.isNaN = false) :
    x < y ↔ ¬ y ≤ x := by
  obtain ⟨o, ho⟩ : ∃ o, x.unpack.compare y.unpack = some o := exists_compare hx hy
  have hswap : y.unpack.compare x.unpack = some o.swap := by
    rw [compare_swap, ho]
    rfl
  rw [le_iff_isLE hswap]
  show decide (x.unpack.lt y.unpack = true) = true ↔ _
  rw [decide_eq_true_iff, UnpackedFloat.lt, ho]
  cases o <;> decide

theorem not_le_of_isNaN {x y : Double} (hy : y.isNaN = true) : ¬ x ≤ y := by
  have hnone : x.unpack.compare y.unpack = none := by
    rw [isNaN_iff.mp (show y.unpack.isNaN = true from hy)]
    cases x.unpack <;> rfl
  show ¬ decide (x.unpack.le y.unpack = true) = true
  rw [decide_eq_true_iff, UnpackedFloat.le, hnone]
  decide

/-- What lies between finite doubles is finite. -/
theorem isFinite_of_between {a w b : Double} (ha : a.isFinite = true) (hb : b.isFinite = true)
    (haw : a ≤ w) (hwb : w ≤ b) (hw : w.isNaN = false) : w.isFinite = true := by
  have hbelow {u : UnpackedFloat} (hu : u.isFinite = true) :
      u.compare (.infinity .negative) = some .gt := by
    rcases u with _ | _ | _ | ⟨_ | _, m, e, hm⟩ <;> first | rfl | cases hu
  have habove {u : UnpackedFloat} (hu : u.isFinite = true) :
      UnpackedFloat.compare (.infinity .positive) u = some .gt := by
    rw [compare_swap]
    rcases u with _ | _ | _ | ⟨_ | _, m, e, hm⟩ <;> first | rfl | cases hu
  replace hw : w.unpack.isNaN = false := hw
  show w.unpack.isFinite = true
  cases hunpack : w.unpack with
  | finite s m e hm => rfl
  | zero s => rfl
  | notANumber =>
    rw [hunpack] at hw
    cases hw
  | infinity s =>
    cases s with
    | negative =>
      have hgt := hbelow (u := a.unpack) ha
      rw [← hunpack] at hgt
      cases (le_iff_isLE hgt).mp haw
    | positive =>
      have hgt := habove (u := b.unpack) hb
      rw [← hunpack] at hgt
      cases (le_iff_isLE hgt).mp hwb

/-! ## 6. What is stored -/

/-- `Stores w v`: the double `w` is how `v` is stored. It lies to all finite doubles as `v` does,
also where it is an infinity. -/
structure Stores (w : Double) (v : ℚ) : Prop where
  notNaN : w.isNaN = false
  le_iff : ∀ {z : Double}, z.isFinite = true → (z ≤ w ↔ ratOf z ≤ v)
  ge_iff : ∀ {z : Double}, z.isFinite = true → (w ≤ z ↔ v ≤ ratOf z)

section Pack

variable {u : UnpackedFloat} (hc : Canonical u) (hu : u.isFinite = true)
include hc hu

/-- What is too large is stored as what is larger than all that is stored. -/
theorem compare_unpack_pack {z : Double} (hz : z.isFinite = true) :
    z.unpack.compare (Float.Model.pack u).unpack = z.unpack.compare u := by
  cases u with
  | infinity _ => cases hu
  | notANumber => cases hu
  | zero s => rw [show (Float.Model.pack (.zero s)).unpack = .zero s from unpack_packedZero]
  | finite s m e hm =>
    rw [unpack_pack_finite s hm hc]
    split
    · rfl
    · next hover =>
      replace hz : z.unpack.isFinite = true := hz
      cases hunpack : z.unpack with
      | infinity _ =>
        rw [hunpack] at hz
        cases hz
      | notANumber =>
        rw [hunpack] at hz
        cases hz
      | zero t => cases s <;> rfl
      | finite t n f hn =>
        have hgreatest : f ≤ 971 := (unpack_canonical hunpack).2
        have hlt : compare f e = .lt := compare_lt_iff_lt.mpr (by omega)
        cases s <;> cases t <;> simp [UnpackedFloat.compare, hlt]

theorem isNaN_unpack_pack : (Float.Model.pack u).unpack.isNaN = false := by
  cases u with
  | infinity _ => cases hu
  | notANumber => cases hu
  | zero s =>
    rw [show (Float.Model.pack (.zero s)).unpack = .zero s from unpack_packedZero]
    rfl
  | finite s m e hm =>
    rw [unpack_pack_finite s hm hc]
    split <;> rfl

theorem stores_pack : Stores (.ofFloat (.ofModel (Float.Model.pack u))) (valueOf u) := by
  have hw : (Double.ofFloat (.ofModel (Float.Model.pack u))).unpack =
      (Float.Model.pack u).unpack := by
    rw [Double.unpack, Double.toFloat_ofFloat]
  generalize Double.ofFloat (.ofModel (Float.Model.pack u)) = w at hw ⊢
  have hcompare {z : Double} (hz : z.isFinite = true) :
      z.unpack.compare w.unpack = some (compare (ratOf z) (valueOf u)) := by
    rw [hw, compare_unpack_pack hc hu hz]
    exact compare_eq_compare_valueOf hz hu (canonical_unpack _) hc
  refine ⟨?_, fun {z} hz => ?_, fun {z} hz => ?_⟩
  · show w.unpack.isNaN = false
    rw [hw]
    exact isNaN_unpack_pack hc hu
  · exact (le_iff_isLE (hcompare hz)).trans isLE_compare
  · have hswap : w.unpack.compare z.unpack = some (compare (valueOf u) (ratOf z)) := by
      rw [compare_swap, hcompare hz, Option.map_some, ← Std.OrientedOrd.eq_swap]
    exact (le_iff_isLE hswap).trans isLE_compare

end Pack

/-- A number that lies between finite doubles is not too large. -/
theorem Stores.ratOf_eq {w a b : Double} {v : ℚ} (hw : Stores w v) (ha : a.isFinite = true)
    (hb : b.isFinite = true) (hav : ratOf a ≤ v) (hvb : v ≤ ratOf b) :
    w.isFinite = true ∧ ratOf w = v := by
  have hfinite : w.isFinite = true :=
    isFinite_of_between ha hb ((hw.le_iff ha).mpr hav) ((hw.ge_iff hb).mpr hvb) hw.notNaN
  have hself : w ≤ w := (le_iff_ratOf_le hfinite hfinite).mpr le_rfl
  exact ⟨hfinite, le_antisymm ((hw.le_iff hfinite).mp hself) ((hw.ge_iff hfinite).mp hself)⟩

end ScriptMachine
