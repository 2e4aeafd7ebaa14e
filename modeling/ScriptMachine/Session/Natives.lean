import ScriptMachine.Machine.Core

/-!
# Native functions of a session

A small set of host functions that exercise the calling convention: arguments in and out of range,
results set and overwritten, allocation and collection inside a call, calls from calls, and errors
raised late.

Main definitions:
- `hostFunction?`: the function of a name.
- `sessionLinkage`: the core functions together with these.
-/

namespace ScriptMachine

/-- Adds up all arguments. -/
def sumArguments : NativeM Unit := do
  let argc := (← read).argc
  let total ← (List.range argc).foldlM (fun total i => do
    return total + (← numberArgument (i + 1))) 0.0
  returnValue (.number total)

/-- Calls the first argument with the others. -/
def applyFirst : NativeM Value := do
  let function ← argument 1
  let args ← arguments
  callFrom function (args.drop 1)

/-- Like `applyFirst`, with the message of an error for a result. -/
def tryApplyFirst : NativeM Value := do
  let function ← argument 1
  let args ← arguments
  let frame ← read
  match ← (attempt (frame.call function (args.drop 1)) : MachineM (Except EvalError Value)) with
  | .ok value => return value
  | .error e => nativeHeap (newText e.message)

/-- Allocates a string, and only then looks at the first argument. -/
def allocThenLook : NativeM Unit := do
  let fresh ← nativeHeap (newText "fresh")
  let value ← argument 1
  let _ ← (← get).heap.typeName value
  returnValue fresh

/-- The kinds that an argument can be asked to be, by name. -/
def wantedKind? (name : String) : Option Kind :=
  [ ("want_null", Kind.null), ("want_bool", .bool), ("want_number", .number),
    ("want_string", .string), ("want_list", .list), ("want_map", .map), ("want_range", .range),
    ("want_function", .function), ("want_script", .script), ("want_fiber", .fiber),
    ("want_userobj", .foreign) ].lookup name

/-- The host function of a name. -/
def hostFunction? (name : String) : Option (NativeM Unit) :=
  match name with
  | "noop" => some (pure ())
  | "sum" => some sumArguments
  | "double" => some do returnValue (.number ((← numberArgument 1) * 2.0))
  | "truthy2" => some do returnValue (.bool (← truthArgument 2))
  | "past_end" => some do returnValue (← argument ((← read).argc + 1))
  | "arg0" => some do returnValue (← argument 0)
  | "alloc" => some allocThenLook
  | "argc" => some do returnValue (.number (Double.ofNat (← read).argc))
  | "last_arg" => some do
    let argc := (← read).argc
    returnValue (← if argc = 0 then pure .null else argument argc)
  | "ret_null" => some do
    returnValue (.number 1.0)
    returnValue .null
  | "fail_late" => some do
    returnValue (.bool true)
    throw (.error (.notImplemented "Native failure"))
  | "apply" => some do returnValue (← applyFirst)
  | "try_apply" => some do returnValue (← tryApplyFirst)
  | "depth" => some do
    returnValue (.number (Double.ofNat (← (← get).activeFiber).stack.size))
  | "gc_first" => some do
    let _ ← nativeHeap collectNow
    returnValue (← argument 1)
  | "make_list" => some do returnValue (← nativeHeap (newList (← arguments)))
  | _ => (wantedKind? name).map fun kind => do returnValue (← kindArgument 1 kind)

/-- The core functions together with those of the session. -/
def sessionLinkage : Linkage :=
  Linkage.withHost hostFunction?

end ScriptMachine
