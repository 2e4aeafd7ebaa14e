import ScriptMachine.Heap.Key

/-!
# Maps on the heap

A table compares no keys by itself. Here it is given the equality of keys, which has to look
through handles.

Main definitions:
- `Heap.lookup`, `Heap.lookupBytes`: the value of a key, or of a string key given as bytes.
- `Heap.writeMap`: a write to the table of a map.
- `mapSet`, `mapRemove`: insertion or replacement, and removal.
-/

namespace ScriptMachine

namespace Heap

/-- The slot of a key whose hash is known. -/
def findKey (heap : Heap) (table : Table Value Value) (hash : UInt32) (key : Value) :
    Except Fault (Option Nat) :=
  table.findM hash fun candidate => heap.equal candidate key

/-- The value of a key. What cannot be a key is never found. -/
def lookup (heap : Heap) (table : Table Value Value) (key : Value) :
    Except Fault (Option Value) := do
  match ← heap.hashOf key with
  | none => return none
  | some hash => return (← heap.findKey table hash key).bind table.valueAt?

/-- The value of the string key that has these bytes. -/
def lookupBytes (heap : Heap) (table : Table Value Value) (bytes : List UInt8) :
    Except Fault (Option Value) := do
  let slot ← table.findM (hashBytes bytes) fun candidate => do
    return (← heap.asString candidate).any (·.bytes == bytes)
  return slot.bind table.valueAt?

end Heap

/-- Writes a key of a table: its value if it has a slot, a new entry otherwise. -/
def Table.write (table : Table Value Value) (slot : Option Nat) (key : Value) (hash : UInt32)
    (value : Value) : Table Value Value :=
  match slot with
  | some index => table.setValueAt index value
  | none => table.insertNew key hash value

/-- Writes the table of a map in its place. The heap lets go of the table first, so that it need not
be copied. -/
@[inline] def Heap.writeMap (heap : Heap) (map : Handle) (table : Table Value Value)
    (write : Table Value Value → Table Value Value) : Heap :=
  (heap.replace map (.map .empty)).replace map (.map (write table))

/-- Inserts or replaces a key of a map. The receiver is looked at first, then the key, and nothing
is written unless both will do. -/
def mapSet (map : Handle) (key value : Value) : HeapM Unit := do
  let heap ← get
  match ← heap.get map with
  | .map table =>
    match ← heap.hashOf key with
    | some hash =>
      let slot ← heap.findKey table hash key
      set ((heap.writeMap map table (·.write slot key hash value)).remeasure map)
    | none => throw (.error (.notHashable (← heap.typeName key)))
  | other => throw (.error (.unexpectedKind Kind.map.name other.kind.name))

/-- Removes a key of a map and gives its value. There is nothing to remove for what cannot be a
key, or from what is no map. A map does not shrink, so it is not measured. -/
def mapRemove (map : Handle) (key : Value) : HeapM (Option Value) := do
  let heap ← get
  match ← heap.hashOf key with
  | none => return none
  | some hash =>
    match ← heap.get map with
    | .map table =>
      match ← heap.findKey table hash key with
      | none => return none
      | some index =>
        let (removed, table) := table.removeAt index
        set (heap.replace map (.map table))
        return removed
    | _ => return none

end ScriptMachine
