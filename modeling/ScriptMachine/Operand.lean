import ScriptMachine.Error
import ScriptMachine.Number.Dyadic

/-!
# Operands

The checks that operators and containers make of the values they are given. Each names the operand
that fails it.

Main definitions:
- `requireInteger`: a number without a fractional part, or a boolean.
- `requireIndex`: an integer that is a position.
-/

namespace ScriptMachine

/-- The nearest signed integer of 64 bits. -/
def clampInt64 (n : Int) : Int :=
  max (-9223372036854775808) (min n 9223372036854775807)

/-- The integer that an operand is. One too large for 64 bits counts as the largest there is. -/
def requireInteger (v : Value) (what : String) : Except EvalError Int :=
  match v.asNumber?.bind integerOf? with
  | some n => .ok (clampInt64 n)
  | none => .error (.notInteger what)

/-- The position among `length` elements that an integer is. -/
def requireIndex (n : Int) (length : Nat) (container : String) : Except EvalError Nat :=
  if 0 ≤ n ∧ n < length then .ok n.toNat else .error (.indexOutOfRange container)

/-- The position that a subscript names. -/
def requirePosition (key : Value) (length : Nat) (container : String) : Except EvalError Nat := do
  requireIndex (← requireInteger key (container ++ " index")) length container

end ScriptMachine
