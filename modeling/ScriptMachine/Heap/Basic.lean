import ScriptMachine.Error
import ScriptMachine.Object

/-!
# The heap

Objects live in the cells of an arena. A cell counts its tenants, and a handle names a cell and
one tenant of it, so reading through a handle that outlived its object is a fault and never meets
another object.

Main definitions:
- `Heap` with its `Cell`s, and `Tuning`, the host's choices about collection.
- `Heap.get?`, `Heap.get`: the object behind a handle.
- `Heap.replace`, `Heap.remeasure`: the two writes to an object in place.
- `Heap.kindOf` and the typed views `Heap.asString`, `Heap.asMap`, ….
- `HeapM`: operations on a heap that can fail.
-/

namespace ScriptMachine

/-- When the collector runs. -/
structure Tuning where
  /-- Bytes that bring about the first collection. -/
  initialThreshold : Nat
  /-- The threshold never falls below this. -/
  minThreshold : Nat
  /-- After a collection the threshold is the size of the survivors and this much more. -/
  growthPercent : Nat
  /-- Collect before every allocation, to bring missing roots to light. -/
  stress : Bool
deriving DecidableEq, Repr

namespace Tuning

/-- One mebibyte, growing by three quarters. -/
def standard : Tuning :=
  ⟨1048576, 1048576, 75, false⟩

/-- The standard choices, with a collection before every allocation. -/
def stressed : Tuning :=
  { standard with stress := true }

end Tuning

/-- A tenant of a cell: the object, its size when last measured, and whether the collection that
is going on has reached it. -/
structure Entry where
  object : Object
  size : Nat
  marked : Bool
deriving DecidableEq

/-- A place for one object at a time. -/
structure Cell where
  generation : UInt32
  entry : Option Entry
deriving DecidableEq

/-- The arena with its books. -/
structure Heap where
  cells : Array Cell
  /-- The indices of the empty cells, the next one to be used first. -/
  free : List Nat
  /-- The sum of the measured sizes. -/
  bytes : Nat
  /-- An allocation that would pass this number of bytes collects first. -/
  threshold : Nat
  tuning : Tuning
  /-- What lives until the host says otherwise, once for each registration, the latest last. -/
  roots : List Handle
  /-- What lives until the scope that pinned it ends, the latest first. -/
  pins : List Handle
  collections : Nat
deriving DecidableEq

/-- Operations on a heap that report errors to the script. The heap keeps what was done before a
failure. -/
abbrev HeapM := EStateM (Failure EvalError) Heap

namespace Heap

/-- A heap without objects. -/
def empty (tuning : Tuning) : Heap where
  cells := #[]
  free := []
  bytes := 0
  threshold := tuning.initialThreshold
  tuning := tuning
  roots := []
  pins := []
  collections := 0

/-! ## Reading through handles -/

/-- The tenant that a handle names, if it still lives in its cell. -/
def entry? (heap : Heap) (h : Handle) : Option Entry :=
  match heap.cells[h.index]? with
  | some cell => if cell.generation = h.generation then cell.entry else none
  | none => none

/-- The object behind a handle, if it is still there. -/
def get? (heap : Heap) (h : Handle) : Option Object :=
  (heap.entry? h).map (·.object)

/-- Whether the object behind a handle is still there. -/
def isLive (heap : Heap) (h : Handle) : Bool :=
  (heap.get? h).isSome

/-- The object behind a handle. -/
def get (heap : Heap) (h : Handle) : Except Fault Object :=
  match heap.get? h with
  | some object => .ok object
  | none => .error (.staleHandle h)

/-- The kind of a value. -/
def kindOf (heap : Heap) : Value → Except Fault Kind
  | .null => .ok .null
  | .bool _ => .ok .bool
  | .number _ => .ok .number
  | .object h => do return (← heap.get h).kind

/-- The name of a value's kind. -/
def typeName (heap : Heap) (v : Value) : Except Fault String := do
  return (← heap.kindOf v).name

/-- Reads an object value through a partial view of objects. Primitives have no such view. -/
def view {α : Type} (heap : Heap) (select : Object → Option α) :
    Value → Except Fault (Option α)
  | .object h => do return select (← heap.get h)
  | .null | .bool _ | .number _ => .ok none

/-- The string that a value is. -/
def asString (heap : Heap) : Value → Except Fault (Option ByteString) :=
  heap.view fun
    | .string s => some s
    | _ => none

/-- The table of the map that a value is. -/
def asMap (heap : Heap) : Value → Except Fault (Option (Table Value Value)) :=
  heap.view fun
    | .map table => some table
    | _ => none

/-- The function that a value is. -/
def asFunction (heap : Heap) : Value → Except Fault (Option Callable) :=
  heap.view fun
    | .function f => some f
    | _ => none

/-- The module that a value is. -/
def asScript (heap : Heap) : Value → Except Fault (Option Script) :=
  heap.view fun
    | .script s => some s
    | _ => none

/-- The function called `name` among those declared on a module. -/
def scriptFunction (heap : Heap) (script : Script) (name : String) :
    Except Fault (Option Handle) :=
  script.functions.toList.findM? fun h => do
    return (← heap.asFunction (.object h)).any (·.name == name)

/-! ## Writing in place -/

/-- Puts another object where a handle's object is, without measuring it. Nothing happens when
the handle's object is gone. -/
def replace (heap : Heap) (h : Handle) (object : Object) : Heap :=
  match heap.entry? h with
  | some entry =>
    let cell : Cell := ⟨h.generation, some { entry with object := object }⟩
    { heap with cells := heap.cells.setIfInBounds h.index cell }
  | none => heap

/-- Measures the object behind a handle anew. Nothing happens when it is gone. -/
def remeasure (heap : Heap) (h : Handle) : Heap :=
  match heap.entry? h with
  | some entry =>
    let size := entry.object.footprint
    let cell : Cell := ⟨h.generation, some { entry with size := size }⟩
    { heap with
      cells := heap.cells.setIfInBounds h.index cell
      bytes := heap.bytes - entry.size + size }
  | none => heap

/-- The number of objects. -/
def liveCount (heap : Heap) : Nat :=
  heap.cells.countP (·.entry.isSome)

/-- The handles of all objects, by cell. -/
def liveHandles (heap : Heap) : List Handle :=
  heap.cells.toList.zipIdx.filterMap fun (cell, index) =>
    cell.entry.map fun _ => ⟨index, cell.generation⟩

end Heap

end ScriptMachine
