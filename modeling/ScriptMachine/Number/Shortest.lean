import ScriptMachine.Number.Dyadic

/-!
# The shortest decimal of a double

Among the decimals that read back as a given positive double, the shortest one is its name. The
search walks the decimal grids from the coarsest that can hold the leading digit to finer ones,
and on each looks only at the two neighbours of the value: if any point of a grid reads back, one
of these two does. All comparisons are between natural numbers.

Main definitions:
- `Decimal`: digits and a power of ten.
- `Dyadic.ReadsBack`: the reals that round to a double, to nearest, ties to even.
- `Dyadic.shortest`: the decimal chosen; of two the nearer one, and the upper one when neither is.
-/

namespace ScriptMachine

/-- The number `digits * 10 ^ exponent`. -/
structure Decimal where
  digits : Nat
  exponent : Int
deriving DecidableEq, Repr

namespace Decimal

/-- Moves the zeros at the end of the digits into the exponent. -/
def trim (d : Decimal) : Decimal :=
  if d.digits ≠ 0 ∧ d.digits % 10 = 0 then
    trim ⟨d.digits / 10, d.exponent + 1⟩
  else
    d
termination_by d.digits
decreasing_by omega

/-- Order of `d` and `n * 2 ^ power`, with every negative power moved to the other side. -/
def compareTo (d : Decimal) (n : Nat) (power : Int) : Ordering :=
  compare
    (d.digits * Nat.pow 10 d.exponent.toNat * Nat.pow 2 (-power).toNat)
    (n * Nat.pow 2 power.toNat * Nat.pow 10 (-d.exponent).toNat)

end Decimal

namespace Dyadic

/-- The neighbour below a power of two is half as far away as the one above, unless both are as
close as doubles get. -/
def narrowBelow (d : Dyadic) : Bool :=
  d.significand == Binary64.hiddenBit && decide (Binary64.leastExponent < d.exponent)

/-- Whether `c` lies between the midpoints to the two neighbouring doubles. The midpoints belong
to the even significand. -/
def readsBack (d : Dyadic) (c : Decimal) : Bool :=
  let low := 4 * d.significand - (if d.narrowBelow then 1 else 2)
  let high := 4 * d.significand + 2
  let even := d.significand % 2 == 0
  let above := c.compareTo low (d.exponent - 2)
  let below := c.compareTo high (d.exponent - 2)
  (above == .gt || even && above == .eq) && (below == .lt || even && below == .eq)

/-- The decimal with every digit of the number. -/
def exactDecimal (d : Dyadic) : Decimal :=
  if 0 ≤ d.exponent then
    ⟨d.significand * Nat.pow 2 d.exponent.toNat, 0⟩
  else
    ⟨d.significand * Nat.pow 5 (-d.exponent).toNat, d.exponent⟩

/-- The best point of the grid of multiples of `10 ^ place` that reads back. A grid too coarse
for the leading digit offers none. -/
def onGrid? (d : Dyadic) (place : Int) : Option Decimal :=
  let numerator := d.significand * Nat.pow 2 d.exponent.toNat * Nat.pow 10 (-place).toNat
  let denominator := Nat.pow 2 (-d.exponent).toNat * Nat.pow 10 place.toNat
  let lower := numerator / denominator
  let rest := numerator % denominator
  if lower = 0 then
    none
  else
    match d.readsBack ⟨lower, place⟩, d.readsBack ⟨lower + 1, place⟩ with
    | true, true => some ⟨if 2 * rest < denominator then lower else lower + 1, place⟩
    | true, false => some ⟨lower, place⟩
    | false, true => some ⟨lower + 1, place⟩
    | false, false => none

/-- An exponent of ten not below that of the leading digit, and at most two above it. -/
def leadingPlace (d : Dyadic) : Int :=
  (d.significand.log2 + 1 + d.exponent) * 30103 / 100000 + 1

/-- The shortest decimal that reads back as `d`. Seventeen digits always do; the three grids more
make up for the estimate of the leading place. -/
def shortest (d : Dyadic) : Decimal :=
  let places := (List.range 20).map fun (step : Nat) => d.leadingPlace - step
  ((places.findSome? d.onGrid?).getD d.exactDecimal).trim

example : shortest ⟨false, 1, -1074⟩ = ⟨5, -324⟩ := by decide +kernel
-- Two decimals of seventeen digits are equally near to `2 ^ -25`.
example : shortest ⟨false, 4503599627370496, -77⟩ = ⟨29802322387695313, -24⟩ := by
  decide +kernel
-- The even significand owns its midpoints.
example : shortest ⟨false, 5960464477539062, 24⟩ = ⟨1, 23⟩ := by decide +kernel

end Dyadic

end ScriptMachine
