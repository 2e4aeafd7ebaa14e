import ScriptMachine.Number.Double

/-!
# Values

A value is small and copied freely: the primitives are inline, everything else is a handle of an
object on the heap. A handle carries the generation of its cell, so that one that outlives its
object is noticed instead of meeting whatever took the cell over.

Main definitions:
- `Handle`, `Value`, `Kind`, `Arity`.
- `Value.identical`: sameness of values, without looking behind handles.
-/

namespace ScriptMachine

/-- The address of an object: a cell, and which of its tenants is meant. Generations are counted
with 32 bits and wrap around. Indices have 32 bits too, but that an arena runs out of them is left
out, so an index is any number here. -/
structure Handle where
  index : Nat
  generation : UInt32
deriving DecidableEq, Repr

/-- A script value. -/
inductive Value where
  | null
  | bool (b : Bool)
  | number (x : Double)
  | object (h : Handle)
deriving DecidableEq, Inhabited

namespace Value

/-- The value as a number. Booleans count as zero and one. -/
def asNumber? : Value → Option Double
  | number x => some x
  | bool b => some (if b then 1 else 0)
  | null | object _ => none

/-- Only `null` and `false` are false where a condition is wanted. -/
def isTruthy : Value → Bool
  | null | bool false => false
  | _ => true

/-- The handle inside an object value. -/
def handle? : Value → Option Handle
  | object h => some h
  | null | bool _ | number _ => none

/-- Whether the value is null. -/
def isNull : Value → Bool
  | null => true
  | _ => false

/-- Whether the value is a handle. -/
def isObject (v : Value) : Bool :=
  v.handle?.isSome

/-- Sameness: numbers as IEEE-754 compares them, so a NaN is not itself, and objects by handle. -/
def identical : Value → Value → Bool
  | null, null => true
  | bool a, bool b => a == b
  | number x, number y => x == y
  | object h, object k => h == k
  | _, _ => false

end Value

/-- The kinds of values, as scripts tell them apart. -/
inductive Kind where
  | null
  | bool
  | number
  | string
  | list
  | map
  | range
  | function
  | script
  | fiber
  | foreign
deriving DecidableEq, Repr

namespace Kind

/-- Every kind, primitives first. -/
def all : List Kind :=
  [null, bool, number, string, list, map, range, function, script, fiber, foreign]

/-- The name of a kind in messages. -/
def name : Kind → String
  | null => "Null"
  | bool => "Bool"
  | number => "Number"
  | string => "String"
  | list => "List"
  | map => "Map"
  | range => "Range"
  | function => "Function"
  | script => "Script"
  | fiber => "Fiber"
  | foreign => "UserObj"

/-- Whether values of the kind hash by content, and so can be keys of a map. -/
def isHashable : Kind → Bool
  | null | bool | number | string => true
  | _ => false

end Kind

/-- How many arguments a function takes. -/
inductive Arity where
  | fixed (count : Nat)
  | variadic
deriving DecidableEq, Repr

namespace Arity

/-- Reads the code that hosts write an arity as: a count, or any negative number for "any". -/
def ofCode (code : Int) : Arity :=
  if code < 0 then variadic else fixed code.toNat

/-- The code of an arity. Codes have 32 bits, and a larger count is written as the largest. -/
def code : Arity → Int
  | fixed count => min (count : Int) 2147483647
  | variadic => -1

/-- Whether a call with this many arguments is admitted. -/
def accepts : Arity → Nat → Bool
  | fixed count, given => count == given
  | variadic, _ => true

example : (ofCode (-7)).code = -1 := by decide
example : (fixed 1099511627776).code = 2147483647 := by decide

end Arity

end ScriptMachine
