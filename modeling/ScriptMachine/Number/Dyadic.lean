import ScriptMachine.Number.Double

/-!
# Doubles as exact numbers

A finite double is an integer times a power of two. Everything that has to be exact about a
number (is it an integer, what remains after a division, which decimal is its text) is decided on
this form in `Nat` and `Int`, never by rounding operations.

Main definitions:
- `Dyadic`: sign, significand and exponent.
- `Binary64.ofBits`: the three classes of doubles.
- `Dyadic.toInt?`: the integer a dyadic number is, if it is one.
- `remainder`: the floating remainder, whose sign follows the dividend.
-/

namespace ScriptMachine

/-- The number `significand * 2 ^ exponent`, negated when `negative`. -/
structure Dyadic where
  negative : Bool
  significand : Nat
  exponent : Int
deriving DecidableEq, Repr

/-- A double by its class. All NaNs are one. -/
inductive Binary64 where
  | nan
  | infinite (negative : Bool)
  | finite (value : Dyadic)
deriving DecidableEq, Repr

namespace Binary64

/-- Number of stored significand bits. -/
def fractionBits : Nat := 52

/-- The leading significand bit of a normal number, which is not stored: two to the fraction
bits. -/
def hiddenBit : Nat := 4503599627370496

/-- The bit that marks a negative number. -/
def signBit : Nat := 9223372036854775808

/-- The exponent of the last place of every subnormal number, and of the least normal ones. -/
def leastExponent : Int := -1074

/-- Splits a bit pattern into its fields. A zero exponent field marks the subnormals, which have
no hidden leading bit. -/
def ofBits (bits : UInt64) : Binary64 :=
  let word := bits.toNat
  let negative := decide (signBit ≤ word)
  let field := word / hiddenBit % 2048
  let fraction := word % hiddenBit
  if field = 2047 then
    if fraction = 0 then infinite negative else nan
  else if field = 0 then
    finite ⟨negative, fraction, leastExponent⟩
  else
    finite ⟨negative, hiddenBit + fraction, leastExponent + (field - 1 : Nat)⟩

example : ofBits 0x3FF0000000000000 = finite ⟨false, 4503599627370496, -52⟩ := by decide
example : ofBits 0x8000000000000001 = finite ⟨true, 1, -1074⟩ := by decide
example : ofBits 0xFFF0000000000000 = infinite true := by decide

end Binary64

namespace Dyadic

/-- The size of an integral dyadic number. A negative exponent leaves an integer exactly when the
significand is a multiple of the matching power of two. -/
def integralMagnitude? (d : Dyadic) : Option Nat :=
  if 0 ≤ d.exponent then
    some (d.significand * Nat.pow 2 d.exponent.toNat)
  else if d.significand % Nat.pow 2 (-d.exponent).toNat = 0 then
    some (d.significand / Nat.pow 2 (-d.exponent).toNat)
  else
    none

/-- The integer that the number is, if it is one. Both zeros are the integer zero. -/
def toInt? (d : Dyadic) : Option Int :=
  d.integralMagnitude?.map fun n => if d.negative then -(n : Int) else (n : Int)

example : toInt? ⟨true, 3, 1⟩ = some (-6) := by decide
example : toInt? ⟨false, 12, -2⟩ = some 3 := by decide
example : toInt? ⟨false, 3, -1⟩ = none := by decide

/-- The bit pattern of a number that a double can hold exactly: the significand is moved up as far
as the hidden bit, or as far as the least exponent allows. -/
def toBits (d : Dyadic) : UInt64 :=
  let sign := if d.negative then Binary64.signBit else 0
  if d.significand = 0 then
    UInt64.ofNat sign
  else
    let room := (d.exponent - Binary64.leastExponent).toNat
    let shift := min (Binary64.fractionBits - d.significand.log2) room
    let significand := d.significand * Nat.pow 2 shift
    if significand < Binary64.hiddenBit then
      UInt64.ofNat (sign + significand)
    else
      UInt64.ofNat (sign + (room - shift) * Binary64.hiddenBit + significand)

/-- The double of a number that a double can hold exactly. -/
def toDouble (d : Dyadic) : Double :=
  ⟨d.toBits⟩

example : toBits ⟨false, 1, 0⟩ = 0x3FF0000000000000 := by decide
example : toBits ⟨true, 1, -1074⟩ = 0x8000000000000001 := by decide
example : toBits ⟨false, 3, -1⟩ = 0x3FF8000000000000 := by decide

/-- What is left of `x` after taking away the largest integral multiple of `y` no larger than it,
both written over the smaller of the two last places. The result needs no more digits than the
operand that has that last place, so a double holds it. -/
def rem (x y : Dyadic) : Dyadic :=
  let place := min x.exponent y.exponent
  let units (d : Dyadic) : Nat := d.significand * Nat.pow 2 (d.exponent - place).toNat
  ⟨x.negative, units x % units y, place⟩

end Dyadic

/-- The integer that a double is, if it is finite and integral. -/
def integerOf? (x : Double) : Option Int :=
  match Binary64.ofBits x.bits with
  | .finite d => d.toInt?
  | .nan | .infinite _ => none

/-- The floating remainder of `x` by `y`. It is exact, and its sign is the sign of `x`; there is
none of an infinity or by zero. -/
def remainder (x y : Double) : Double :=
  match Binary64.ofBits x.bits, Binary64.ofBits y.bits with
  | .nan, _ | _, .nan | .infinite _, _ => .nan
  | .finite _, .infinite _ => x
  | .finite a, .finite b => if b.significand = 0 then .nan else (a.rem b).toDouble

example : remainder (0 - 7.5) 2 = 0 - 1.5 := by decide +kernel
example : remainder 5 (0 - 3) = 2 := by decide +kernel

end ScriptMachine
