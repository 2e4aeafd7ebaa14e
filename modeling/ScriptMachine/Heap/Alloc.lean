import ScriptMachine.Heap.Collect
import ScriptMachine.Places

/-!
# Allocation, roots and pins

Allocation may collect first. What an object about to be allocated refers to is kept through that
collection; any other object needs a root, or a pin that lasts as long as a scope.

Main definitions:
- `Heap.alloc`: a new object and its handle.
- `Heap.addRoot`, `Heap.removeRoot`: protection until further notice.
- `Heap.pin`, `Heap.unpin`, `pinned`: protection for a scope.
- `newString`, `newList`, `newMap`, …: allocation as an operation.
-/

namespace ScriptMachine

namespace Heap

/-! ## Roots and pins -/

/-- Keeps an object alive until the registration is removed. -/
def addRoot (heap : Heap) (h : Handle) : Heap :=
  { heap with roots := heap.roots ++ [h] }

/-- Takes away one registration, the latest, if there is one. The last of all takes its place. -/
def removeRoot (heap : Heap) (h : Handle) : Heap :=
  { heap with
    roots := match findLastIdx? (· == h) heap.roots with
      | some place => swapRemove heap.roots place
      | none => heap.roots }

/-- Opens a scope in which the objects among the values stay alive. -/
def pin (heap : Heap) (values : List Value) : Heap :=
  { heap with pins := values.filterMap Value.handle? ++ heap.pins }

/-- Closes the scopes opened since there were `depth` pins. -/
def unpin (heap : Heap) (depth : Nat) : Heap :=
  { heap with pins := heap.pins.drop (heap.pins.length - depth) }

/-! ## Allocation -/

/-- Whether an object of this size may not be allocated without a collection. -/
def needsCollection (heap : Heap) (size : Nat) : Bool :=
  heap.tuning.stress || decide (heap.threshold < heap.bytes + size)

/-- Collects, with some more handles kept alive for this once. -/
def collectKeeping (heap : Heap) (handles : List Handle) : Heap :=
  ({ heap with pins := handles ++ heap.pins }.collect.2).unpin heap.pins.length

/-- Puts an object in the cell that was emptied last, or in a new one. A new cell is assumed to have
an index of 32 bits: a process that needs cell number `2 ^ 32` stops, and this is not modelled. -/
def store (heap : Heap) (object : Object) : Handle × Heap :=
  let entry : Entry := ⟨object, object.footprint, false⟩
  let heap := { heap with bytes := heap.bytes + object.footprint }
  match heap.free with
  | index :: free =>
    let generation := match heap.cells[index]? with
      | some cell => cell.generation
      | none => 0
    (⟨index, generation⟩,
      { heap with
        cells := heap.cells.setIfInBounds index ⟨generation, some entry⟩
        free := free })
  | [] =>
    (⟨heap.cells.size, 0⟩, { heap with cells := heap.cells.push ⟨0, some entry⟩ })

/-- Puts an object on the heap, after a collection if one is due. -/
def alloc (heap : Heap) (object : Object) : Handle × Heap :=
  if heap.needsCollection object.footprint then
    (heap.collectKeeping object.children).store object
  else
    heap.store object

end Heap

/-! ## As operations -/

/-- Allocates an object. -/
def allocObject (object : Object) : HeapM Handle :=
  modifyGet fun heap => heap.alloc object

/-- Allocates an object and gives it as a value. -/
def newObject (object : Object) : HeapM Value := do
  return .object (← allocObject object)

/-- A new string of bytes. -/
def newString (bytes : List UInt8) : HeapM Value :=
  newObject (.string (.ofBytes bytes))

/-- A new string of a text. -/
def newText (text : String) : HeapM Value :=
  newObject (.string (.ofText text))

/-- A new list without spare room. -/
def newList (elements : List Value) : HeapM Value :=
  newObject (.list (.ofList elements))

/-- A new map without entries. -/
def newMap : HeapM Value :=
  newObject (.map .empty)

/-- A new range. -/
def newRange (start stop : Double) : HeapM Value :=
  newObject (.range start stop)

/-- A new object of the host. -/
def newForeign (typeName : String) (tag : UInt64) : HeapM Value :=
  newObject (.foreign ⟨typeName, tag⟩)

/-- Runs a collection and gives the bytes freed. -/
def collectNow : HeapM Nat :=
  modifyGet Heap.collect

/-- Runs an operation with values pinned, and releases them however it ends. -/
def pinned {α : Type} (values : List Value) (body : HeapM α) : HeapM α := fun heap =>
  match body (heap.pin values) with
  | .ok a after => .ok a (after.unpin heap.pins.length)
  | .error failure after => .error failure (after.unpin heap.pins.length)

end ScriptMachine
