import Mathlib
import ScriptMachine.Proofs.Number.Exact

/-!
# Rounding

Sums, differences and products of doubles are made exactly and rounded once, to a number that is
nearest among those that have few enough digits. That is all that has to be known of rounding here.
A number with few enough digits is not changed, so integers up to 2^53 are added and counted
exactly. And rounding keeps the order, so what has been passed by a smaller sum is passed by a
larger one, however large the numbers are and however much is lost.

Main definitions:
- `Representable`, `Nearest`: a number with few enough digits, and one that is nearest to another.
- `ExtendedMantissa.Means`: what the bits that were shifted out still say.
- `RoundsTo`: the outcome of rounding.

Results:
1. `Nearest.mono`, `Nearest.eq_of_representable`: rounding keeps the order, and what need not be
   rounded.
2. `roundWithAccuracy_roundsTo`: digits are dropped so that the nearest number is left.
3. `add_stores`, `sub_stores`, `mul_stores`: sums, differences and products are rounded once.
4. `integerOf?_ofNat`: the number of a count up to 2^53 is the integer that it counts.
-/

namespace ScriptMachine

open Float.Model UnpackedFloat

/-! ## 1. Nearest numbers -/

/-- A number of at most 53 digits, the last of which is not behind the last place of all. The
power 2^53 has one digit more, a zero. -/
def Representable (v : ℚ) : Prop :=
  ∃ r p : ℤ, |r| ≤ 2 ^ 53 ∧ -1074 ≤ p ∧ v = r * 2 ^ p

/-- `Nearest x v`: of the representable numbers, none is nearer to `x` than `v`. -/
structure Nearest (x v : ℚ) : Prop where
  representable : Representable v
  le : ∀ w, Representable w → |x - v| ≤ |x - w|

theorem Representable.neg {v : ℚ} (hv : Representable v) : Representable (-v) := by
  obtain ⟨r, p, hr, hp, rfl⟩ := hv
  refine ⟨-r, p, by rwa [abs_neg], hp, ?_⟩
  rw [Int.cast_neg, neg_mul]

theorem representable_intCast {n : ℤ} (hn : |n| ≤ 2 ^ 53) : Representable n :=
  ⟨n, 0, hn, by decide, by simp⟩

theorem representable_zero : Representable 0 := by
  exact_mod_cast representable_intCast (n := 0) (by decide)

theorem representable_valueOf {u : UnpackedFloat} (hc : Canonical u) :
    Representable (valueOf u) := by
  cases u with
  | finite s m e hm =>
    obtain ⟨hleast, hdigits, -⟩ := hc
    have hsize : |s.apply m| = (m : Int) := by cases s <;> simp [Sign.apply]
    exact ⟨s.apply m, e, by omega, hleast, rfl⟩
  | _ => exact representable_zero

namespace Nearest

variable {x y v w : ℚ}

theorem self (hx : Representable x) : Nearest x x where
  representable := hx
  le := by
    intro w _
    rw [sub_self, abs_zero]
    exact abs_nonneg _

/-- What is representable is not rounded. -/
theorem eq_of_representable (h : Nearest x v) (hx : Representable x) : v = x := by
  have hle := h.le x hx
  rw [sub_self, abs_zero] at hle
  exact (sub_eq_zero.mp (abs_eq_zero.mp (le_antisymm hle (abs_nonneg _)))).symm

theorem neg (h : Nearest x v) : Nearest (-x) (-v) where
  representable := h.representable.neg
  le := by
    intro w hw
    have hle := h.le (-w) hw.neg
    rwa [← abs_neg, neg_sub', ← abs_neg (x - -w), neg_sub', neg_neg w] at hle

/-- Rounding keeps the order. Of equal numbers nothing is said: two values may be nearest. -/
theorem mono (hv : Nearest x v) (hw : Nearest y w) (hxy : x < y) : v ≤ w := by
  have hx : (x - v) ^ 2 ≤ (x - w) ^ 2 := sq_le_sq.mpr (hv.le w hw.representable)
  have hy : (y - w) ^ 2 ≤ (y - v) ^ 2 := sq_le_sq.mpr (hw.le v hv.representable)
  by_contra hlt
  have hpos : 0 < (y - x) * (v - w) := mul_pos (sub_pos.mpr hxy) (sub_pos.mpr (not_le.mp hlt))
  linarith [hx, hy, hpos]

end Nearest

section Place

variable {x : ℚ} {p r : ℤ} (hr : |x - r * 2 ^ p| ≤ 2 ^ p / 2)
include hr

/-- The nearest multiple of a place is no farther than another. -/
theorem abs_sub_le_of_multiple (k : ℤ) : |x - r * 2 ^ p| ≤ |x - k * 2 ^ p| := by
  rcases eq_or_ne k r with rfl | hne
  · exact le_rfl
  · have hplace : (0 : ℚ) < 2 ^ p := by positivity
    have hone : (1 : ℚ) ≤ |(k : ℚ) - r| := by
      exact_mod_cast Int.one_le_abs (sub_ne_zero.mpr hne)
    have hapart : (2 : ℚ) ^ p ≤ |(k : ℚ) * 2 ^ p - r * 2 ^ p| := by
      rw [← sub_mul, abs_mul, abs_of_pos hplace]
      exact le_mul_of_one_le_left hplace.le hone
    have htriangle := abs_sub_le (k * 2 ^ p : ℚ) x (r * 2 ^ p)
    rw [abs_sub_comm (k * 2 ^ p : ℚ) x] at htriangle
    linarith

/-- Rounded to the last place that there is a digit for, a number is rounded to a nearest one. -/
theorem nearest_of_place (hx : 0 ≤ x) (hleast : -1074 ≤ p)
    (hfull : 2 ^ 52 * 2 ^ p ≤ x ∨ p = -1074) (hdigits : x < 2 ^ 53 * 2 ^ p) :
    Nearest x (r * 2 ^ p) where
  representable := by
    have hplace : (0 : ℚ) < 2 ^ p := by positivity
    obtain ⟨hlo, hhi⟩ := abs_le.mp hr
    have hnonneg : -1 < r := by
      have h : (-1 : ℚ) * 2 ^ p < r * 2 ^ p := by linarith
      exact_mod_cast lt_of_mul_lt_mul_right h hplace.le
    have hle : r < 2 ^ 53 + 1 := by
      have h : (r : ℚ) * 2 ^ p < (2 ^ 53 + 1) * 2 ^ p := by linarith
      exact_mod_cast lt_of_mul_lt_mul_right h hplace.le
    exact ⟨r, p, abs_le.mpr ⟨by omega, by omega⟩, hleast, rfl⟩
  le := by
    rintro w ⟨k, q, hk, hq, rfl⟩
    rcases le_or_gt p q with hpq | hqp
    · -- In a higher place, the other number is a multiple of this one.
      obtain ⟨j, hj⟩ := Int.eq_ofNat_of_zero_le (sub_nonneg.mpr hpq)
      have hmultiple : (k : ℚ) * 2 ^ q = (k * 2 ^ j : ℤ) * 2 ^ p := by
        rw [show q = j + p by omega, zpow_add₀ two_ne_zero, zpow_natCast]
        push_cast
        ring
      rw [hmultiple]
      exact abs_sub_le_of_multiple hr _
    · -- In a lower place, it does not come as far as the least number with all its digits in this
      -- one, which does not come as far as `x`.
      have hbelow : (k : ℚ) * 2 ^ q ≤ 2 ^ 52 * 2 ^ p := by
        have hk : (k : ℚ) ≤ 2 ^ 53 := by exact_mod_cast (abs_le.mp hk).2
        calc (k : ℚ) * 2 ^ q ≤ 2 ^ 53 * 2 ^ q := by gcongr
          _ = 2 ^ 52 * 2 ^ (q + 1) := by
            rw [zpow_add₀ two_ne_zero]
            ring
          _ ≤ 2 ^ 52 * 2 ^ p := by
            gcongr
            · norm_num
            · omega
      have hx := hfull.resolve_right (by omega)
      have hmultiple := abs_sub_le_of_multiple hr (2 ^ 52)
      rw [Int.cast_pow, Int.cast_ofNat, abs_of_nonneg (sub_nonneg.mpr hx)] at hmultiple
      rw [abs_of_nonneg (sub_nonneg.mpr (hbelow.trans hx))]
      linarith

end Place

/-! ## 2. Shifting -/

/-- `em.Means x`: the mantissa is what is left of `x` before the point, and the two bits tell where
behind the point the rest is. -/
def ExtendedMantissa.Means (em : ExtendedMantissa) (x : ℚ) : Prop :=
  match em.roundBit, em.stickyBit with
  | false, false => x = em.mantissa
  | false, true => em.mantissa < x ∧ x < em.mantissa + 1 / 2
  | true, false => x = em.mantissa + 1 / 2
  | true, true => em.mantissa + 1 / 2 < x ∧ x < em.mantissa + 1

section Means

variable {em : ExtendedMantissa} {x : ℚ} (hmeans : ExtendedMantissa.Means em x)
include hmeans

theorem means_shiftRightOne : ExtendedMantissa.Means em.shiftRightOne (x / 2) := by
  obtain ⟨m, roundBit, stickyBit⟩ := em
  have hm : (m : ℚ) = 2 * (m / 2 : Nat) + (m % 2 : Nat) := by
    exact_mod_cast (Nat.div_add_mod m 2).symm
  unfold ExtendedMantissa.Means at hmeans ⊢
  dsimp only [ExtendedMantissa.shiftRightOne] at hmeans ⊢
  rcases Nat.mod_two_eq_zero_or_one m with hmod | hmod <;> rw [hmod] at hm ⊢ <;>
    push_cast at hm <;> cases roundBit <;> cases stickyBit <;>
    simp only [Bool.or_false, Bool.or_true, bne_self_eq_false, Nat.reduceBneDiff] at hmeans ⊢ <;>
    first | linarith | exact ⟨by linarith, by linarith⟩

theorem means_shiftRight (k : Nat) : ExtendedMantissa.Means (em >>> k) (x / 2 ^ k) := by
  induction k with
  | zero =>
    rw [pow_zero, div_one]
    exact hmeans
  | succ k ih =>
    rw [pow_succ, ← div_div]
    exact means_shiftRightOne ih

theorem abs_sub_roundedMantissa_le : |x - em.roundedMantissa| ≤ 1 / 2 := by
  obtain ⟨m, roundBit, stickyBit⟩ := em
  have hmod : ((m % 2 : Nat) : ℚ) = 0 ∨ ((m % 2 : Nat) : ℚ) = 1 := by
    exact_mod_cast Nat.mod_two_eq_zero_or_one m
  unfold ExtendedMantissa.Means at hmeans
  unfold ExtendedMantissa.roundedMantissa
  rw [abs_le]
  cases roundBit <;> cases stickyBit <;>
    simp only [ExtendedMantissa.accuracy, Accuracy.roundToNearestEven, Nat.cast_add,
      Nat.cast_one] at hmeans ⊢
  · constructor <;> linarith
  · constructor <;> linarith
  · rcases hmod with hmod | hmod <;> rw [hmod] <;> constructor <;> linarith
  · constructor <;> linarith

end Means

/-! ## 3. Rounding -/

/-- The last place that there is a digit for. -/
def lastPlace (m : Nat) (e : Int) : Int :=
  Format.binary64.targetExponent (totalExponent m e)

theorem lastPlace_eq (m : Nat) (e : Int) : lastPlace m e = max (m.log2 + 1 + e - 53) (-1074) :=
  rfl

theorem log2_shiftLeft {m : Nat} (hm : 0 < m) (k : Nat) : (m <<< k).log2 = m.log2 + k := by
  have hne : m ≠ 0 := Nat.ne_of_gt hm
  have hpos : 0 < 2 ^ k := Nat.two_pow_pos k
  rw [Nat.shiftLeft_eq, Nat.log2_eq_iff (Nat.mul_ne_zero hne (Nat.ne_of_gt hpos)), Nat.pow_add,
    Nat.add_right_comm, Nat.pow_add]
  exact ⟨Nat.mul_le_mul_right _ (Nat.log2_self_le hne),
    Nat.mul_lt_mul_of_pos_right Nat.lt_log2_self hpos⟩

theorem lastPlace_shiftLeft {m : Nat} (hm : 0 < m) (e : Int) (k : Nat) :
    lastPlace (m <<< k) (e - k) = lastPlace m e := by
  rw [lastPlace_eq, lastPlace_eq, log2_shiftLeft hm]
  push_cast
  congr 1
  omega

theorem lt_lastPlace (m : Nat) (e : Int) : (m : ℚ) * 2 ^ e < 2 ^ 53 * 2 ^ lastPlace m e := by
  have hm : (m : ℚ) < 2 ^ (m.log2 + 1) := by exact_mod_cast Nat.lt_log2_self
  calc (m : ℚ) * 2 ^ e < 2 ^ (m.log2 + 1) * 2 ^ e := by gcongr
    _ = 2 ^ ((m.log2 : Int) + 1 + e) := by
      rw [zpow_add₀ two_ne_zero]
      norm_cast
    _ ≤ 2 ^ (53 + lastPlace m e) := by
      refine zpow_le_zpow_right₀ (by norm_num) ?_
      rw [lastPlace_eq]
      omega
    _ = 2 ^ 53 * 2 ^ lastPlace m e := by
      rw [zpow_add₀ two_ne_zero]
      norm_cast

theorem lastPlace_le {m : Nat} (hm : 0 < m) {e : Int} (hplace : lastPlace m e ≠ -1074) :
    2 ^ 52 * 2 ^ lastPlace m e ≤ (m : ℚ) * 2 ^ e := by
  have hm : (2 : ℚ) ^ m.log2 ≤ m := by exact_mod_cast Nat.log2_self_le (Nat.ne_of_gt hm)
  have hlast : lastPlace m e = m.log2 + e - 52 := by
    rw [lastPlace_eq] at hplace ⊢
    omega
  calc 2 ^ 52 * 2 ^ lastPlace m e = (2 : ℚ) ^ m.log2 * 2 ^ e := by
        rw [hlast, ← zpow_natCast, ← zpow_natCast, ← zpow_add₀ two_ne_zero,
          ← zpow_add₀ two_ne_zero]
        congr 1
        push_cast
        omega
    _ ≤ m * 2 ^ e := by gcongr

/-- What has few enough digits stays where it is. -/
theorem shiftToTargetExponent_of_lt {r : Nat} (hr : r < 2 ^ 53) {p : Int} (hp : -1074 ≤ p) :
    shiftToTargetExponent Format.binary64 r p .exact = (⟨r, false, false⟩, p) := by
  have hlog : r.log2 ≤ 52 := by
    rcases Nat.eq_zero_or_pos r with rfl | hpos
    · decide
    · exact Nat.lt_succ_iff.mp ((Nat.log2_lt (Nat.ne_of_gt hpos)).mpr hr)
  have hshift : (lastPlace r p - p).toNat = 0 := by
    rw [lastPlace_eq]
    omega
  unfold shiftToTargetExponent shiftToExponent
  dsimp only
  rw [← lastPlace, hshift, Nat.cast_zero, Int.add_zero]
  rfl

/-- Rounding up may bring one digit more, a zero, which is dropped. -/
theorem exists_settled {r : Nat} {p : Int} (hleast : -1074 ≤ p) (hr : r ≤ 2 ^ 53)
    (hfull : 2 ^ 52 ≤ r ∨ p = -1074) : ∃ (n : Nat) (q : Int),
      shiftToTargetExponent Format.binary64 r p .exact = (⟨n, false, false⟩, q) ∧
      (n : ℚ) * 2 ^ q = r * 2 ^ p ∧ -1074 ≤ q ∧ n < 2 ^ 53 ∧ (2 ^ 52 ≤ n ∨ q = -1074) := by
  rcases Nat.lt_or_eq_of_le hr with hlt | rfl
  · exact ⟨r, p, shiftToTargetExponent_of_lt hlt hleast, rfl, hleast, hlt, hfull⟩
  · have hshift : (lastPlace (2 ^ 53) p - p).toNat = 1 := by
      rw [lastPlace_eq, Nat.log2_two_pow]
      omega
    refine ⟨2 ^ 52, p + 1, ?_, ?_, by omega, by decide, .inl le_rfl⟩
    · unfold shiftToTargetExponent shiftToExponent
      dsimp only
      rw [← lastPlace, hshift]
      rfl
    · rw [zpow_add₀ two_ne_zero]
      push_cast
      ring

/-- `RoundsTo x u`: `u` is a nearest number to `x`, with as many digits as there are. -/
structure RoundsTo (x : ℚ) (u : UnpackedFloat) : Prop where
  finite : u.isFinite = true
  canonical : Canonical u
  nearest : Nearest x (valueOf u)

theorem RoundsTo.self {u : UnpackedFloat} (hu : u.isFinite = true) (hc : Canonical u) :
    RoundsTo (valueOf u) u :=
  ⟨hu, hc, .self (representable_valueOf hc)⟩

theorem roundsTo_zero (s : Sign) : RoundsTo 0 (.zero s) :=
  ⟨rfl, trivial, .self representable_zero⟩

theorem nearest_apply (s : Sign) {m r : Nat} {e p : Int}
    (h : Nearest ((m : ℚ) * 2 ^ e) (r * 2 ^ p)) :
    Nearest ((s.apply m : Int) * 2 ^ e) ((s.apply r : Int) * 2 ^ p) := by
  cases s with
  | positive => exact_mod_cast h
  | negative =>
    simp only [Sign.apply, Int.cast_neg, Int.cast_natCast, neg_mul]
    exact h.neg

/-- Zeros at the end make up for a smaller exponent. -/
theorem apply_shiftLeft_mul (s : Sign) (m : Nat) (e : Int) (k : Nat) :
    (s.apply (m <<< k : Nat) : ℚ) * 2 ^ (e - k) = (s.apply m : Int) * 2 ^ e := by
  have hm : ((m <<< k : Nat) : ℚ) * 2 ^ (e - k) = m * 2 ^ e := by
    rw [Nat.shiftLeft_eq, zpow_sub₀ two_ne_zero, zpow_natCast]
    push_cast
    field_simp
  cases s with
  | positive => exact_mod_cast hm
  | negative => simp only [Sign.apply, Int.cast_neg, Int.cast_natCast, neg_mul, hm]

section Round

variable (s : Sign) {m : Nat} {e : Int} (hm : 0 < m)
include hm

/-- The first shift leads to the last place, and what it drops is at most half of it. -/
theorem exists_rounded (he : e ≤ lastPlace m e) : ∃ em : ExtendedMantissa,
    shiftToTargetExponent Format.binary64 m e .exact = (em, lastPlace m e) ∧
      |(m : ℚ) * 2 ^ e - em.roundedMantissa * 2 ^ lastPlace m e| ≤ 2 ^ lastPlace m e / 2 := by
  obtain ⟨k, hk⟩ := Int.eq_ofNat_of_zero_le (sub_nonneg.mpr he)
  have hshift : (lastPlace m e - e).toNat = k := by omega
  have hmeans : ExtendedMantissa.Means (.ofMantissaAndAccuracy m .exact) m := rfl
  refine ⟨ExtendedMantissa.ofMantissaAndAccuracy m .exact >>> k, ?_, ?_⟩
  · unfold shiftToTargetExponent shiftToExponent
    dsimp only
    rw [← lastPlace, hshift, show e + (k : Int) = lastPlace m e by omega]
  · have hplace : (0 : ℚ) < 2 ^ lastPlace m e := by positivity
    have hscaled : (m : ℚ) * 2 ^ e = m / 2 ^ k * 2 ^ lastPlace m e := by
      rw [show lastPlace m e = k + e by omega, zpow_add₀ two_ne_zero, zpow_natCast]
      field_simp
    have hhalf := abs_sub_roundedMantissa_le (means_shiftRight hmeans k)
    rw [hscaled, ← sub_mul, abs_mul, abs_of_pos hplace]
    linarith [mul_le_mul_of_nonneg_right hhalf hplace.le]

theorem roundWithAccuracy_roundsTo (he : e ≤ lastPlace m e) :
    RoundsTo ((s.apply m : Int) * 2 ^ e) (roundWithAccuracy Format.binary64 s m e .exact) := by
  have hleast : -1074 ≤ lastPlace m e := le_max_right _ _
  have hplace : (0 : ℚ) < 2 ^ lastPlace m e := by positivity
  have hdigits := lt_lastPlace m e
  have hfull : 2 ^ 52 * 2 ^ lastPlace m e ≤ (m : ℚ) * 2 ^ e ∨ lastPlace m e = -1074 :=
    or_iff_not_imp_right.mpr (lastPlace_le hm)
  obtain ⟨em, hfirst, hnear⟩ := exists_rounded hm he
  obtain ⟨hlo, hhi⟩ := abs_le.mp hnear
  have hr : em.roundedMantissa < 2 ^ 53 + 1 := by
    have h : (em.roundedMantissa : ℚ) * 2 ^ lastPlace m e < (2 ^ 53 + 1) * 2 ^ lastPlace m e := by
      linarith
    exact_mod_cast lt_of_mul_lt_mul_right h hplace.le
  have hr' : 2 ^ 52 < em.roundedMantissa + 1 ∨ lastPlace m e = -1074 := by
    refine hfull.imp_left fun hfull => ?_
    have h : (2 ^ 52 : ℚ) * 2 ^ lastPlace m e < (em.roundedMantissa + 1) * 2 ^ lastPlace m e := by
      linarith
    exact_mod_cast lt_of_mul_lt_mul_right h hplace.le
  obtain ⟨n, q, hsecond, hvalue, hq, hn, hn'⟩ :=
    exists_settled hleast (Nat.lt_succ_iff.mp hr) (hr'.imp_left Nat.lt_succ_iff.mp)
  have hnearest : Nearest ((s.apply m : Int) * 2 ^ e) ((s.apply n : Int) * 2 ^ q) := by
    refine nearest_apply s ?_
    rw [hvalue]
    exact nearest_of_place hnear (by positivity) hleast hfull hdigits
  unfold roundWithAccuracy
  rw [hfirst]
  dsimp only
  rw [hsecond]
  dsimp only
  split
  · next hzero =>
    subst hzero
    refine ⟨rfl, trivial, ?_⟩
    cases s <;> simpa [Sign.apply, valueOf] using hnearest
  · exact ⟨rfl, ⟨hq, hn, hn'⟩, hnearest⟩

theorem round_roundsTo :
    RoundsTo ((s.apply m : Int) * 2 ^ e) (UnpackedFloat.round Format.binary64 s m e) := by
  have hplace := lastPlace_shiftLeft hm e (e - lastPlace m e).toNat
  have h := roundWithAccuracy_roundsTo s (m := m <<< (e - lastPlace m e).toNat)
    (e := e - (e - lastPlace m e).toNat) (by rw [Nat.shiftLeft_eq]; positivity)
    (by rw [hplace]; omega)
  rw [apply_shiftLeft_mul] at h
  exact h

end Round

theorem normalize_roundsTo (mantissa e : Int) (zeroSign : Sign) :
    RoundsTo (mantissa * 2 ^ e) (normalize Format.binary64 mantissa e zeroSign) := by
  unfold UnpackedFloat.normalize
  split
  · next hneg =>
    rw [compare_lt_iff_lt] at hneg
    have h := round_roundsTo .negative (m := (-mantissa).toNat) (e := e) (by omega)
    have hvalue : Sign.negative.apply (-mantissa).toNat = mantissa := by
      show -((-mantissa).toNat : Int) = mantissa
      omega
    rwa [hvalue] at h
  · next hzero =>
    rw [compare_eq_iff_eq] at hzero
    subst hzero
    rw [Int.cast_zero, zero_mul]
    exact roundsTo_zero zeroSign
  · next hpos =>
    rw [compare_gt_iff_gt] at hpos
    have h := round_roundsTo .positive (m := mantissa.toNat) (e := e) (by omega)
    have hvalue : Sign.positive.apply mantissa.toNat = mantissa := by
      show (mantissa.toNat : Int) = mantissa
      omega
    rwa [hvalue] at h

/-! ## 4. Operations -/

section Operations

variable {u v : UnpackedFloat} (hu : u.isFinite = true) (hv : v.isFinite = true)
  (hcu : Canonical u) (hcv : Canonical v)
include hu hv hcu hcv

theorem add_roundsTo :
    RoundsTo (valueOf u + valueOf v) (UnpackedFloat.add Format.binary64 u v) := by
  cases u with
  | infinity _ => cases hu
  | notANumber => cases hu
  | zero s =>
    rw [show valueOf (.zero s) + valueOf v = valueOf v from zero_add _]
    cases v with
    | infinity _ => cases hv
    | notANumber => cases hv
    | zero t => cases s <;> cases t <;> exact roundsTo_zero _
    | finite t n f hn => exact .self hv hcv
  | finite s m e hm =>
    cases v with
    | infinity _ => cases hv
    | notANumber => cases hv
    | zero t =>
      rw [show valueOf (.finite s m e hm) + valueOf (.zero t) = valueOf (.finite s m e hm) from
        add_zero _]
      exact .self hu hcu
    | finite t n f hn =>
      -- Both are written over the smaller of the two exponents.
      have h := normalize_roundsTo (s.apply (m <<< (e - min e f).toNat : Nat) +
        t.apply (n <<< (f - min e f).toNat : Nat)) (min e f) .positive
      have hm := apply_shiftLeft_mul s m e (e - min e f).toNat
      have hn := apply_shiftLeft_mul t n f (f - min e f).toNat
      rw [show e - ((e - min e f).toNat : Int) = min e f by omega] at hm
      rw [show f - ((f - min e f).toNat : Int) = min e f by omega] at hn
      rw [Int.cast_add, add_mul, hm, hn] at h
      exact h

omit hu hv hcu hcv in
theorem sub_eq_add : UnpackedFloat.sub Format.binary64 u v =
    UnpackedFloat.add Format.binary64 u v.neg := by
  have happly (t : Sign) (n : Int) : (-t).apply n = -t.apply n := by
    cases t <;> simp [Sign.apply]
  cases u <;> cases v <;> try rfl
  simp only [UnpackedFloat.sub, UnpackedFloat.add, UnpackedFloat.neg, happly, Int.sub_eq_add_neg]

theorem sub_roundsTo :
    RoundsTo (valueOf u - valueOf v) (UnpackedFloat.sub Format.binary64 u v) := by
  have hneg : valueOf v.neg = -valueOf v := by
    cases v with
    | finite t n f hn => cases t <;> simp [UnpackedFloat.neg, valueOf, Sign.apply]
    | _ => exact neg_zero.symm
  rw [sub_eq_add, sub_eq_add_neg, ← hneg]
  refine add_roundsTo hu ?_ hcu ?_
  · cases v <;> exact hv
  · cases v <;> exact hcv

theorem mul_roundsTo :
    RoundsTo (valueOf u * valueOf v) (UnpackedFloat.mul Format.binary64 u v) := by
  cases u with
  | infinity _ => cases hu
  | notANumber => cases hu
  | zero s =>
    rw [show valueOf (.zero s) * valueOf v = 0 from zero_mul _]
    cases v with
    | infinity _ => cases hv
    | notANumber => cases hv
    | _ => exact roundsTo_zero _
  | finite s m e hm =>
    cases v with
    | infinity _ => cases hv
    | notANumber => cases hv
    | zero t =>
      rw [show valueOf (.finite s m e hm) * valueOf (.zero t) = 0 from mul_zero _]
      exact roundsTo_zero _
    | finite t n f hn =>
      obtain ⟨-, -, hfull⟩ := hcu
      obtain ⟨-, -, hfull'⟩ := hcv
      have hpos : 0 < m * n := Nat.mul_pos hm hn
      -- With all the digits of one factor, the product has enough to drop some.
      have hplace : e + f ≤ lastPlace (m * n) (e + f) := by
        have hlog (hlarge : 2 ^ 52 ≤ m * n) : 52 ≤ (m * n).log2 :=
          (Nat.le_log2 (Nat.ne_of_gt hpos)).mpr hlarge
        rw [lastPlace_eq]
        rcases hfull with hfull | hsub
        · have := hlog (hfull.trans (Nat.le_mul_of_pos_right m hn))
          omega
        · rcases hfull' with hfull' | hsub'
          · have := hlog (hfull'.trans (Nat.le_mul_of_pos_left n hm))
            omega
          · omega
      have hvalue : valueOf (.finite s m e hm) * valueOf (.finite t n f hn) =
          ((s * t).apply (m * n : Nat) : Int) * 2 ^ (e + f) := by
        have hsign : (s * t).apply (m * n : Nat) = s.apply m * t.apply n := by
          rcases s with _ | _ <;> rcases t with _ | _
          · exact (by push_cast; ring : ((m * n : Nat) : Int) = -(m : Int) * -n)
          · exact (by push_cast; ring : -((m * n : Nat) : Int) = -(m : Int) * n)
          · exact (by push_cast; ring : -((m * n : Nat) : Int) = (m : Int) * -n)
          · exact Int.natCast_mul m n
        rw [hsign, zpow_add₀ two_ne_zero]
        simp only [valueOf]
        push_cast
        ring
      rw [hvalue]
      exact roundWithAccuracy_roundsTo (s * t) hpos hplace

end Operations

section Doubles

variable {x y : Double} (hx : x.isFinite = true) (hy : y.isFinite = true)
include hx hy

theorem add_stores : ∃ v, Nearest (ratOf x + ratOf y) v ∧ Stores (x + y) v := by
  have h := add_roundsTo hx hy (canonical_unpack _) (canonical_unpack _)
  exact ⟨_, h.nearest, stores_pack h.canonical h.finite⟩

theorem sub_stores : ∃ v, Nearest (ratOf x - ratOf y) v ∧ Stores (x - y) v := by
  have h := sub_roundsTo hx hy (canonical_unpack _) (canonical_unpack _)
  exact ⟨_, h.nearest, stores_pack h.canonical h.finite⟩

theorem mul_stores : ∃ v, Nearest (ratOf x * ratOf y) v ∧ Stores (x * y) v := by
  have h := mul_roundsTo hx hy (canonical_unpack _) (canonical_unpack _)
  exact ⟨_, h.nearest, stores_pack h.canonical h.finite⟩

end Doubles

/-! ## 5. Counts -/

/-- A count that has few enough digits is stored as it is. -/
theorem Stores.integerOf?_eq {w : Double} {n : Nat} (hw : Stores w n) (hn : n ≤ 2 ^ 53) :
    integerOf? w = some (n : Int) := by
  obtain ⟨hzero, hzero'⟩ : Double.isFinite 0 = true ∧ ratOf 0 = (0 : Int) :=
    integerOf?_eq_some_iff.mp (by decide +kernel)
  obtain ⟨hmost, hmost'⟩ : Double.isFinite 9007199254740992 = true ∧
      ratOf 9007199254740992 = (2 ^ 53 : Int) :=
    integerOf?_eq_some_iff.mp (by decide +kernel)
  rw [integerOf?_eq_some_iff, Int.cast_natCast]
  refine hw.ratOf_eq hzero hmost ?_ ?_
  · rw [hzero']
    positivity
  · rw [hmost']
    exact_mod_cast hn

/-- A count becomes a number by way of a multiplication by one. -/
theorem ofNat_eq_mul_one {n : Nat} (hn : n < 2 ^ 53) : Double.ofNat n =
    .ofFloat (.ofModel (.pack (UnpackedFloat.ofNat Format.binary64 n))) * 1 := by
  have hword : n.toUInt64.toNat = n := by
    show n % 2 ^ 64 = n
    omega
  have hproduct : Float.ofNat n =
      .ofModel (.pack (UnpackedFloat.ofNat Format.binary64 n.toUInt64.toNat)) * 1 := by
    show Float.ofScientific n false 0 = _
    unfold Float.ofScientific
    rw [dif_pos ⟨hn, by decide⟩]
    rfl
  show Double.ofFloat _ = .ofFloat ((Double.ofFloat _).toFloat * (Double.ofFloat 1).toFloat)
  rw [Double.toFloat_ofFloat, Double.toFloat_ofFloat, hproduct, hword]

/-- The number of a count up to 2^53 is the integer that was counted. -/
theorem integerOf?_ofNat {n : Nat} (hn : n ≤ 2 ^ 53) :
    integerOf? (.ofNat n) = some (n : Int) := by
  rcases Nat.lt_or_eq_of_le hn with hlt | rfl
  · have hrepresentable : Representable n := by
      exact_mod_cast representable_intCast (n := n) (by rw [abs_of_nonneg] <;> omega)
    have hround : RoundsTo n (UnpackedFloat.ofNat Format.binary64 n) := by
      have h := normalize_roundsTo n 0 .positive
      rw [zpow_zero, mul_one, Int.cast_natCast] at h
      exact h
    have hstores := stores_pack hround.canonical hround.finite
    rw [hround.nearest.eq_of_representable hrepresentable] at hstores
    obtain ⟨hfinite, hvalue⟩ := integerOf?_eq_some_iff.mp (hstores.integerOf?_eq hn)
    obtain ⟨hone, hone'⟩ : Double.isFinite 1 = true ∧ ratOf 1 = (1 : Int) :=
      integerOf?_eq_some_iff.mp (by decide +kernel)
    obtain ⟨v, hnearest, hproduct⟩ := mul_stores hfinite hone
    rw [hvalue, hone', Int.cast_one, mul_one, Int.cast_natCast] at hnearest
    rw [hnearest.eq_of_representable hrepresentable, ← ofNat_eq_mul_one hlt] at hproduct
    exact hproduct.integerOf?_eq hn
  · decide +kernel

end ScriptMachine
