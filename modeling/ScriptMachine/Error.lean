import ScriptMachine.Value

/-!
# What can go wrong

Three channels are kept apart. An `EvalError` is reported to the script and can be handled. A
`RegistrationError` tells the host that it set the machine up wrongly. A `Fault` is a bug of the
host, noticed in the middle of an operation, and what was done before it stays done.

Main definitions:
- `EvalError` with its `category` and its `message`.
- `RegistrationError` with its `message`.
- `Fault` with its `message`, and `Failure`, an error of one channel or a fault.
-/

namespace ScriptMachine

/-! ## Errors of a script -/

/-- Why an operation of a script was refused. -/
inductive EvalError where
  /-- An operator does not take these kinds of operands. -/
  | unsupportedOperands (operator left right : String)
  /-- A number or a boolean was needed. -/
  | notNumeric (what : String)
  /-- A number without a fractional part was needed. -/
  | notInteger (what : String)
  /-- An argument of a native function, counted from one, has the wrong kind. -/
  | wrongArgumentType (expected : String) (position : Nat)
  /-- The value cannot be a key of a map. -/
  | notHashable (typeName : String)
  /-- Something that is no function was called. -/
  | notCallable (typeName : String)
  /-- An object of another kind was needed. -/
  | unexpectedKind (expected found : String)
  /-- A function with a compiled body was called as a native one. -/
  | notNative (function : String)
  | notSubscriptable (typeName : String)
  | notIterable (typeName : String)
  | attributeNotFound (typeName name : String)
  | attributeImmutable (name : String)
  /-- An element of an immutable object was assigned. -/
  | immutableObject (typeName : String)
  /-- A key that could be in the map is not. -/
  | keyNotExists (key : String)
  /-- A key that can be in no map was looked up. -/
  | invalidKey (key : String)
  | indexOutOfRange (container : String)
  /-- A wrong number of arguments. Functions with several admitted counts expect none of them. -/
  | argumentCount (expected : Option Nat) (got : Nat)
  | assertionFailed (message : Option String)
  /-- The operation has a meaning, but no implementation. -/
  | notImplemented (feature : String)
deriving DecidableEq, Repr

namespace EvalError

/-- The coarse classes of errors that hosts distinguish. -/
inductive Category where
  | typeMismatch
  | notSubscriptable
  | notIterable
  | attributeNotFound
  | attributeImmutable
  | keyNotExists
  | indexOutOfRange
  | argumentCount
  | assertionFailed
  | notImplemented
deriving DecidableEq, Repr

/-- The class of an error. -/
def category : EvalError → Category
  | unsupportedOperands .. | notNumeric _ | notInteger _ | wrongArgumentType .. | notHashable _
  | notCallable _ | unexpectedKind .. | notNative _ => .typeMismatch
  | notSubscriptable _ => .notSubscriptable
  | notIterable _ => .notIterable
  | attributeNotFound .. => .attributeNotFound
  | attributeImmutable _ | immutableObject _ => .attributeImmutable
  | keyNotExists _ | invalidKey _ => .keyNotExists
  | indexOutOfRange _ => .indexOutOfRange
  | argumentCount .. => .argumentCount
  | assertionFailed _ => .assertionFailed
  | notImplemented _ => .notImplemented

/-- The text of an error. -/
def message : EvalError → String
  | unsupportedOperands operator left right =>
    "Unsupported operand types for operator '" ++ operator ++ "' " ++ left ++ " and " ++ right
  | notNumeric what => what ++ " must be a numeric value."
  | notInteger what => what ++ " must be an integer."
  | wrongArgumentType expected position =>
    "Expected a " ++ expected ++ " at argument " ++ Nat.repr position ++ "."
  | notHashable typeName => typeName ++ " type is not hashable."
  | notCallable typeName => typeName ++ " is not callable."
  | unexpectedKind expected found => "Expected a " ++ expected ++ " but got " ++ found ++ "."
  | notNative function => "Function '" ++ function ++ "' is not natively callable."
  | notSubscriptable typeName => typeName ++ " type is not subscriptable."
  | notIterable typeName => typeName ++ " is not iterable."
  | attributeNotFound typeName name =>
    "'" ++ typeName ++ "' object has no attribute named '" ++ name ++ "'."
  | attributeImmutable name => "'" ++ name ++ "' attribute is immutable."
  | immutableObject typeName => typeName ++ " objects are immutable."
  | keyNotExists key => "Key " ++ key ++ " not exists."
  | invalidKey key => "Invalid key " ++ key ++ "."
  | indexOutOfRange container => container ++ " index out of range."
  | argumentCount (some expected) _ => "Expected exactly " ++ Nat.repr expected ++ " argument(s)."
  | argumentCount none _ => "Invalid argument count."
  | assertionFailed none => "Assertion failed."
  | assertionFailed (some message) => "Assertion failed: '" ++ message ++ "'."
  | notImplemented feature => feature ++ " is not supported yet."

end EvalError

/-! ## Errors of a host -/

/-- Why a registration was refused. Scripts never see these. -/
inductive RegistrationError where
  | duplicateModule (name : String)
  | duplicateFunction (name owner : String)
  | duplicateGlobal (name owner : String)
  | duplicateBuiltin (name : String)
  | builtinTableFull (capacity : Nat)
  | notAModule
deriving DecidableEq, Repr

/-- The text of a registration error. -/
def RegistrationError.message : RegistrationError → String
  | duplicateModule name => "a module named '" ++ name ++ "' already exists"
  | duplicateFunction name owner =>
    "a function named '" ++ name ++ "' already exists on module '" ++ owner ++ "'"
  | duplicateGlobal name owner =>
    "a global variable named '" ++ name ++ "' already exists on module '" ++ owner ++ "'"
  | duplicateBuiltin name => "a builtin function named '" ++ name ++ "' already exists"
  | builtinTableFull capacity =>
    "builtin function table is full (capacity " ++ Nat.repr capacity ++ ")"
  | notAModule => "handle does not refer to a module"

/-! ## Faults -/

/-- A bug of the host that an operation ran into. -/
inductive Fault where
  /-- The object behind the handle is gone. -/
  | staleHandle (handle : Handle)
  /-- A native function asked for an argument that it was not given. -/
  | argumentIndex (index argc : Nat)
  /-- Native functions called each other too deeply. -/
  | callDepth
deriving DecidableEq, Repr

/-- A handle in messages. -/
def Handle.text (h : Handle) : String :=
  "ObjRef \x7b index: " ++ Nat.repr h.index ++ ", generation: " ++ Nat.repr h.generation.toNat
    ++ " \x7d"

/-- The text of a fault. -/
def Fault.message : Fault → String
  | staleHandle handle => "use of collected object " ++ handle.text
  | argumentIndex index argc =>
    "argument index " ++ Nat.repr index ++ " out of bounds (argc = " ++ Nat.repr argc ++ ")"
  | callDepth => "native calls nested too deeply"

/-- How an operation that reports errors of type `ε` can end without a result. -/
inductive Failure (ε : Type) where
  | error (e : ε)
  | fault (f : Fault)
deriving DecidableEq, Repr

/-- A read that can only meet a fault may stand where errors are possible as well. -/
instance {ε : Type} : MonadLift (Except Fault) (Except (Failure ε)) where
  monadLift
    | .ok a => .ok a
    | .error f => .error (.fault f)

/-- A check that can only report an error may stand where faults are possible as well. -/
instance {ε : Type} : MonadLift (Except ε) (Except (Failure ε)) where
  monadLift
    | .ok a => .ok a
    | .error e => .error (.error e)

/-- A read of the state may stand in an operation that changes it. -/
instance {ε σ : Type} : MonadLift (Except (Failure ε)) (EStateM (Failure ε) σ) where
  monadLift
    | .ok a => pure a
    | .error failure => throw failure

/-- Runs an operation and hands its error over as a result. A fault goes on. -/
def attempt {ε σ α : Type} (body : EStateM (Failure ε) σ α) :
    EStateM (Failure ε) σ (Except ε α) := fun state =>
  match body state with
  | .ok a state => .ok (.ok a) state
  | .error (.error e) state => .ok (.error e) state
  | .error (.fault f) state => .error (.fault f) state

end ScriptMachine
