import ScriptMachine.Table
import ScriptMachine.Value

/-!
# Commands to a table

A table by itself, without a heap: hashes are given, and keys compare as values do that are not
looked behind.

Main definitions:
- `TableCommand`, `TableAnswer`.
- `TableCommand.run`: one command to a table.
- `runTable`: commands one after the other, with the table after each.
-/

namespace ScriptMachine

/-- The table behind a map. -/
abbrev ValueTable := Table Value Value

/-- What can be asked of a table. -/
inductive TableCommand where
  | insertNew (key : Value) (hash : UInt32) (value : Value)
  | find (key : Value) (hash : UInt32)
  | removeAt (index : Nat)
  | valueAt (index : Nat)
  | setValueAt (index : Nat) (value : Value)
  | nextOccupied (start : Nat)
  | entries
  | slots

/-- What a table tells. -/
inductive TableAnswer where
  | nothing
  | slot (index : Option Nat)
  | value (value : Option Value)
  | occupied (slot : Option (Nat × Value))
  | entries (entries : List (Value × Value))
  | slots (slots : List (Table.Slot Value Value))

/-- Carries out one command. -/
def TableCommand.run (table : ValueTable) : TableCommand → TableAnswer × ValueTable
  | insertNew key hash value => (.nothing, table.insertNew key hash value)
  | find key hash => (.slot (table.find? hash fun candidate => candidate.identical key), table)
  | removeAt index =>
    let (removed, table) := table.removeAt index
    (.value removed, table)
  | valueAt index => (.value (table.valueAt? index), table)
  | setValueAt index value => (.nothing, table.setValueAt index value)
  | nextOccupied start => (.occupied (table.nextOccupied? start), table)
  | entries => (.entries table.entries, table)
  | slots => (.slots table.slots.toList, table)

/-- Carries out commands, and gives each answer with the table after it. -/
def runTable (table : ValueTable) : List TableCommand → List (TableAnswer × ValueTable)
  | [] => []
  | command :: rest =>
    let step := command.run table
    step :: runTable step.2 rest

end ScriptMachine
