import ScriptMachine.Number.Shortest

/-!
# The text of a number

Numbers are written with the fewest digits that read back, always positionally: no exponent, no
point after an integer. The sign of zero is not shown, and the three values that are no real
numbers have names.

Main definitions:
- `Decimal.positional`: digits with the point where the power of ten puts it.
- `numberText`: the text of a double.
-/

namespace ScriptMachine

/-- Writes `digits * 10 ^ exponent` without an exponent. The point comes after the digits and
their zeros (and is left out), between the digits, or before them. -/
def Decimal.positional (d : Decimal) : List Char :=
  let digits := Nat.toDigits 10 d.digits
  if 0 ≤ d.exponent then
    digits ++ List.replicate d.exponent.toNat '0'
  else
    let places := (-d.exponent).toNat
    if places < digits.length then
      digits.take (digits.length - places) ++ '.' :: digits.drop (digits.length - places)
    else
      '0' :: '.' :: (List.replicate (places - digits.length) '0' ++ digits)

example : Decimal.positional ⟨12, 3⟩ = "12000".toList := by decide
example : Decimal.positional ⟨12345, -2⟩ = "123.45".toList := by decide
example : Decimal.positional ⟨12, -4⟩ = "0.0012".toList := by decide

/-- The text of a finite number. -/
def Dyadic.text (d : Dyadic) : List Char :=
  if d.significand = 0 then ['0']
  else if d.negative then '-' :: d.shortest.positional
  else d.shortest.positional

/-- The text of a double, as scripts see it. -/
def numberText (x : Double) : List Char :=
  match Binary64.ofBits x.bits with
  | .nan => "nan".toList
  | .infinite false => "inf".toList
  | .infinite true => "-inf".toList
  | .finite d => d.text

end ScriptMachine
