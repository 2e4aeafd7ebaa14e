import ScriptMachine.Machine.Basic

/-!
# Native calls

A native function finds its arguments in a window on the fiber's stack. The first place of the
window takes the result and holds null until it is written; the arguments follow, counted from
one. Being on the stack, they live as long as the call.

Main definitions:
- `NativeM`: what a native function can do, namely anything a machine can, its window in view.
- `argument`, `numberArgument`, `kindArgument`, `returnValue`: access to the window.
- `Linkage`: the code behind each entry point.
- `callNative`: a call, with its window pushed before and popped after, also when it fails.
-/

namespace ScriptMachine

/-- The window of a call, and the way to make further calls from it. -/
structure Frame where
  /-- The place of the result on the stack. -/
  base : Nat
  argc : Nat
  call : Value → List Value → MachineM Value

/-- The body of a native function. -/
abbrev NativeM := ReaderT Frame MachineM

/-- The code behind each entry point. -/
abbrev Linkage := Symbol → NativeM Unit

namespace Machine

/-- The fiber that calls run on. -/
def activeFiber (m : Machine) : Except Fault Fiber := do
  match ← m.heap.get m.fiber with
  | .fiber f => return f
  | _ => throw (.staleHandle m.fiber)

/-- The machine with another stack on its fiber. -/
def withStack (m : Machine) (f : Fiber) (stack : Buffer Value) : Machine :=
  { m with heap := m.heap.replace m.fiber (.fiber { f with stack := stack }) }

end Machine

/-! ## Inside a call -/

/-- Runs a heap operation inside a call. -/
def nativeHeap {α : Type} (body : HeapM α) : NativeM α :=
  fun _ => onHeap body

/-- The argument `index`, counted from one. Asking for one that was not passed is a fault. -/
def argument (index : Nat) : NativeM Value := do
  let frame ← read
  let outside : Failure EvalError := .fault (.argumentIndex index frame.argc)
  if 1 ≤ index ∧ index ≤ frame.argc then
    match (← (← get).activeFiber).stack.get? (frame.base + index) with
    | some value => return value
    | none => throw outside
  else
    throw outside

/-- All arguments in order. -/
def arguments : NativeM (List Value) := do
  let frame ← read
  let f ← (← get).activeFiber
  return (f.stack.toList.drop (frame.base + 1)).take frame.argc

/-- A numeric argument. -/
def numberArgument (index : Nat) : NativeM Double := do
  match (← argument index).asNumber? with
  | some x => return x
  | none => throw (.error (.wrongArgumentType "number" index))

/-- An argument as a condition. -/
def truthArgument (index : Nat) : NativeM Bool := do
  return (← argument index).isTruthy

/-- An argument of exactly the kind wanted. -/
def kindArgument (index : Nat) (kind : Kind) : NativeM Value := do
  let value ← argument index
  if (← (← get).heap.kindOf value) = kind then
    return value
  else
    throw (.error (.wrongArgumentType kind.name index))

/-- Sets the result. -/
def returnValue (value : Value) : NativeM Unit := do
  let frame ← read
  let m ← get
  let f ← m.activeFiber
  set (m.withStack f (f.stack.set frame.base value))

/-- Calls a function from within a call. -/
def callFrom (function : Value) (args : List Value) : NativeM Value := do
  let frame ← read
  frame.call function args

/-! ## The call itself -/

/-- The entry point that a call reaches: the value has to be a native function that takes this
many arguments. -/
def Heap.entryPoint (heap : Heap) (function : Value) (argc : Nat) :
    Except (Failure EvalError) Symbol := do
  match ← heap.asFunction function with
  | none => throw (.error (.notCallable (← heap.typeName function)))
  | some f =>
    match f.body, f.arity with
    | .code _, _ => throw (.error (.notNative f.name))
    | .native entry, .variadic => return entry
    | .native entry, .fixed expected =>
      if expected = argc then return entry
      else throw (.error (.argumentCount (some expected) argc))

/-- Opens a window for these arguments and gives its base. -/
def pushWindow (args : List Value) : MachineM Nat := do
  let m ← get
  let f ← m.activeFiber
  let m := m.withStack f ((f.stack.push .null).append args)
  set { m with heap := m.heap.remeasure m.fiber }
  return f.stack.size

/-- Closes the window at `base` and gives the result in it. -/
def popWindow (base : Nat) : MachineM Value := do
  let m ← get
  let f ← m.activeFiber
  set (m.withStack f (f.stack.truncate base))
  return (f.stack.get? base).getD .null

/-- Calls a native function, which may call others at most `depth` deep. An error of the function
closes its window, a fault leaves it. -/
def callNative (link : Linkage) : Nat → Value → List Value → MachineM Value
  | 0, _, _ => throw (.fault .callDepth)
  | depth + 1, function, args => do
    let entry ← (← get).heap.entryPoint function args.length
    let base ← pushWindow args
    let outcome ← attempt ((link entry).run ⟨base, args.length, callNative link depth⟩)
    let returned ← popWindow base
    match outcome with
    | .ok () => return returned
    | .error e => throw (.error e)

end ScriptMachine
