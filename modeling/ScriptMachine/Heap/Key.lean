import ScriptMachine.Heap.Basic

/-!
# Values as keys

Keys hash and compare by content as far as they have any: primitives by value, strings by bytes,
all other objects by identity and without a hash. Both zeros are one key, and so are all NaNs.

Main definitions:
- `canonicalBits`: one bit pattern for each number that is a key of its own.
- `Heap.hashOf`: the hash of a value, if it can be a key.
- `Heap.equal`: whether two values are the same key.
- `hashNumber`: a hash as scripts see it.
-/

namespace ScriptMachine

/-- The bit pattern that a number hashes by. Numbers that are the same key share it. -/
def canonicalBits (x : Double) : UInt64 :=
  if x == 0 then 0
  else if x.isNaN then Double.nan.bits
  else x.bits

/-- Whether two numbers are the same key: a NaN can be found again. -/
def sameNumber (x y : Double) : Bool :=
  x == y || (x.isNaN && y.isNaN)

/-- The hash of a value as a number, or null for what has none. -/
def hashNumber : Option UInt32 → Value
  | some hash => .number (.ofNat hash.toNat)
  | none => .null

namespace Heap

/-- The hash of a value by content. Objects other than strings have none. -/
def hashOf (heap : Heap) : Value → Except Fault (Option UInt32)
  | .null => .ok (some (hashWord 1))
  | .bool false => .ok (some (hashWord 2))
  | .bool true => .ok (some (hashWord 3))
  | .number x => .ok (some (hashWord (canonicalBits x)))
  | .object h => do return (← heap.asString (.object h)).map (·.hash)

/-- Whether two values are the same key. -/
def equal (heap : Heap) (a b : Value) : Except Fault Bool :=
  match a, b with
  | .number x, .number y => .ok (sameNumber x y)
  | .object h, .object k =>
    if h = k then .ok true
    else do
      let left ← heap.asString a
      let right ← heap.asString b
      match left, right with
      | some s, some t => return s.sameContent t
      | _, _ => return false
  | _, _ => .ok (a.identical b)

end Heap

end ScriptMachine
