import ScriptMachine.Heap.Alloc
import ScriptMachine.Operand

/-!
# Binary operators

A number or boolean on the left makes an operator arithmetic, and then the right operand has to be
one too. Otherwise `+` joins strings, and every other combination is refused.

Main definitions:
- `Operator` with its `symbol` and `name`.
- `evaluate`: the value of an operator for two operands.
-/

namespace ScriptMachine

/-- The operators. -/
inductive Operator where
  | add
  | sub
  | mul
  | div
  | mod
  | gt
  | lt
deriving DecidableEq, Repr

namespace Operator

/-- How an operator is written. -/
def symbol : Operator → String
  | add => "+"
  | sub => "-"
  | mul => "*"
  | div => "/"
  | mod => "%"
  | gt => ">"
  | lt => "<"

/-- What an operator is called. -/
def name : Operator → String
  | add => "Add"
  | sub => "Sub"
  | mul => "Mul"
  | div => "Div"
  | mod => "Mod"
  | gt => "Gt"
  | lt => "Lt"

/-- All operators. -/
def all : List Operator :=
  [add, sub, mul, div, mod, gt, lt]

/-- The operator written so. -/
def ofSymbol? (symbol : String) : Option Operator :=
  all.find? (·.symbol == symbol)

/-- What an operator does to numbers. -/
def onNumbers (op : Operator) (a b : Double) : Value :=
  match op with
  | add => .number (a + b)
  | sub => .number (a - b)
  | mul => .number (a * b)
  | div => .number (a / b)
  | mod => .number (remainder a b)
  | gt => .bool (decide (b < a))
  | lt => .bool (decide (a < b))

/-- Whether an operator compares its operands. -/
def isComparison : Operator → Bool
  | gt | lt => true
  | add | sub | mul | div | mod => false

end Operator

/-- The refusal of an operator, which names the kinds of its operands. -/
def unsupported {α : Type} (op : Operator) (left right : Value) : HeapM α := do
  let heap ← get
  let leftName ← heap.typeName left
  let rightName ← heap.typeName right
  throw (.error (.unsupportedOperands op.symbol leftName rightName))

/-- The sum of operands of which the left one is no number. Two strings are joined. -/
def concatenate (left right : Value) : HeapM Value := do
  match left, right with
  | .object a, .object b =>
    let heap ← get
    let leftObject ← heap.get a
    let rightObject ← heap.get b
    match leftObject, rightObject with
    | .string s, .string t => newString (s.bytes ++ t.bytes)
    | .list _, .list _ => throw (.error (.notImplemented "List concatenation"))
    | _, _ => unsupported .add left right
  | _, _ => unsupported .add left right

/-- The remainder of operands of which the left one is no number. -/
def formatString (left right : Value) : HeapM Value := do
  match ← (← get).asString left with
  | some _ => throw (.error (.notImplemented "String formatting with '%'"))
  | none => unsupported .mod left right

/-- The value of an operator for two operands. Comparisons need two numbers and make no further
distinction; the other operators look at the left operand first. -/
def evaluate (op : Operator) (left right : Value) : HeapM Value := do
  match left.asNumber?, right.asNumber? with
  | some a, some b => return op.onNumbers a b
  | some _, none =>
    if op.isComparison then unsupported op left right
    else throw (.error (.notNumeric "Right operand"))
  | none, _ =>
    match op with
    | .add => concatenate left right
    | .mod => formatString left right
    | .sub | .mul | .div | .gt | .lt => unsupported op left right

end ScriptMachine
