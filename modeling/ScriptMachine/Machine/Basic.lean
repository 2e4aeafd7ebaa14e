import ScriptMachine.Heap.Alloc

/-!
# The machine

A machine owns a heap, the fiber whose stack carries the arguments of native calls, the table of
builtin functions, the modules, and the place where printed text goes.

Main definitions:
- `Settings`: what the host chooses.
- `Machine`, and `Machine.bare`, one with nothing registered.
- `MachineM`, `SetupM`: operations that report errors to the script, or to the host.
- `Machine.write`: printing.
-/

namespace ScriptMachine

/-- Where printed text goes. -/
inductive Sink where
  /-- A buffer that the host reads. -/
  | buffer
  /-- The standard output of the process. -/
  | console
deriving DecidableEq, Repr

/-- What the host chooses about a machine. Without a sink printed text is dropped. -/
structure Settings where
  sink : Option Sink
  tuning : Tuning
  builtinCapacity : Nat
deriving DecidableEq, Repr

/-- No sink, the standard collector, room for 64 builtins. -/
def Settings.standard : Settings :=
  ⟨none, .standard, 64⟩

/-- A function that scripts call by its bare name. -/
structure Builtin where
  name : String
  arity : Arity
  function : Handle
deriving DecidableEq, Repr

/-- The state of a machine. -/
structure Machine where
  heap : Heap
  /-- The fiber that native calls run on. -/
  fiber : Handle
  /-- The builtins in the order of their registration; an index is kept for good. -/
  builtins : Array Builtin
  builtinCapacity : Nat
  /-- The modules by name, the latest first. -/
  modules : List (String × Handle)
  sink : Option Sink
  /-- What has been printed. -/
  written : String
  /-- Seconds since the machine was made, as the host last told. -/
  uptime : Double
deriving DecidableEq

/-- Operations that report errors to the script. -/
abbrev MachineM := EStateM (Failure EvalError) Machine

/-- Operations that report errors to the host. -/
abbrev SetupM := EStateM (Failure RegistrationError) Machine

namespace Machine

/-- A machine with a fiber and nothing else. -/
def bare (settings : Settings) : Machine :=
  let (fiber, heap) := (Heap.empty settings.tuning).alloc (.fiber ⟨.empty, none⟩)
  { heap := heap.addRoot fiber
    fiber := fiber
    builtins := #[]
    builtinCapacity := settings.builtinCapacity
    modules := []
    sink := settings.sink
    written := ""
    uptime := 0.0 }

/-- Allocates an object on the machine's heap. -/
def alloc (m : Machine) (object : Object) : Handle × Machine :=
  let (h, heap) := m.heap.alloc object
  (h, { m with heap := heap })

/-- Whether printed text goes anywhere. -/
def hasSink (m : Machine) : Bool :=
  m.sink.isSome

/-- Prints a text, if there is a sink. -/
def write (m : Machine) (text : String) : Machine :=
  if m.hasSink then { m with written := m.written ++ text } else m

/-- The text in the buffer, if there is one. -/
def buffered? (m : Machine) : Option String :=
  match m.sink with
  | some .buffer => some m.written
  | some .console | none => none

/-- Empties the buffer, if there is one. -/
def clearBuffer (m : Machine) : Machine :=
  match m.sink with
  | some .buffer => { m with written := "" }
  | some .console | none => m

end Machine

/-- Runs an operation on the machine's heap. The machine is taken apart for it, so that nothing else
holds the heap while it is written. -/
def onHeap {ε α : Type} (body : EStateM (Failure ε) Heap α) : EStateM (Failure ε) Machine α :=
  fun ⟨heap, fiber, builtins, capacity, modules, sink, written, uptime⟩ =>
    match body heap with
    | .ok a heap => .ok a ⟨heap, fiber, builtins, capacity, modules, sink, written, uptime⟩
    | .error e heap => .error e ⟨heap, fiber, builtins, capacity, modules, sink, written, uptime⟩

end ScriptMachine
