/-!
# Doubles

A double is kept as its 64 bits, because a NaN can have many patterns and a key goes by its bits.
Arithmetic and comparisons look at the number that the bits stand for, so they do not see which NaN
an operand is. Which NaN an operation makes is left open by IEEE-754, and here it is always the same
one.

Main definitions:
- `Double`: a bit pattern. Equality is that of bits, and `==` that of IEEE-754.
- `Double.toFloat`, `Double.ofFloat`: the number of a pattern, and the pattern of a number.
-/

namespace ScriptMachine

/-- A double by its bits: the sign, then the exponent, then the fraction. -/
@[ext]
structure Double where
  bits : UInt64
deriving DecidableEq, Repr

namespace Double

/-- The number that the bits stand for. Here all NaNs are one. -/
def toFloat (x : Double) : Float :=
  .ofBits x.bits

/-- The bits of a number. -/
def ofFloat (x : Float) : Double :=
  ⟨x.toBits⟩

instance : Coe Double Float :=
  ⟨toFloat⟩

instance : Coe Float Double :=
  ⟨ofFloat⟩

/-- What may be missing is read as a number where it is there. -/
instance : Coe (Option Double) (Option Float) :=
  ⟨Option.map toFloat⟩

/-- The NaN that operations make, which is also the one that all NaNs hash as. -/
def nan : Double :=
  ⟨0x7FF8000000000000⟩

/-- The double of a count, rounded if the count is too long for one. -/
def ofNat (n : Nat) : Double :=
  ofFloat (.ofNat n)

instance (n : Nat) : OfNat Double n :=
  ⟨ofNat n⟩

instance : OfScientific Double :=
  ⟨fun digits negative exponent => ofFloat (.ofScientific digits negative exponent)⟩

/-! Operations, on the numbers of both operands. -/

instance : Add Double :=
  ⟨fun x y => ofFloat (x.toFloat + y.toFloat)⟩

instance : Sub Double :=
  ⟨fun x y => ofFloat (x.toFloat - y.toFloat)⟩

instance : Mul Double :=
  ⟨fun x y => ofFloat (x.toFloat * y.toFloat)⟩

instance : Div Double :=
  ⟨fun x y => ofFloat (x.toFloat / y.toFloat)⟩

/-! Comparisons as IEEE-754 has them: a NaN is unequal to all doubles and before none, and the two
zeros are equal. -/

instance : BEq Double :=
  ⟨fun x y => x.toFloat == y.toFloat⟩

instance : LT Double :=
  ⟨fun x y => x.toFloat < y.toFloat⟩

instance : LE Double :=
  ⟨fun x y => x.toFloat ≤ y.toFloat⟩

instance (x y : Double) : Decidable (x < y) :=
  inferInstanceAs (Decidable (x.toFloat < y.toFloat))

instance (x y : Double) : Decidable (x ≤ y) :=
  inferInstanceAs (Decidable (x.toFloat ≤ y.toFloat))

def isNaN (x : Double) : Bool :=
  x.toFloat.isNaN

def isInf (x : Double) : Bool :=
  x.toFloat.isInf

def isFinite (x : Double) : Bool :=
  x.toFloat.isFinite

example : (⟨0x3FF0000000000000⟩ : Double) + 0.5 = 1.5 := by decide +kernel
example : (⟨0x8000000000000000⟩ : Double) == 0 := by decide +kernel
example : (⟨0xFFF0000000000001⟩ : Double).isNaN := by decide +kernel

end Double

end ScriptMachine
