import ScriptMachine.Attribute
import ScriptMachine.Buffer
import ScriptMachine.Error
import ScriptMachine.Hash
import ScriptMachine.Heap.Alloc
import ScriptMachine.Heap.Basic
import ScriptMachine.Heap.Collect
import ScriptMachine.Heap.Key
import ScriptMachine.Heap.Map
import ScriptMachine.Heap.Render
import ScriptMachine.Heap.Sequence
import ScriptMachine.Iteration
import ScriptMachine.Machine.Basic
import ScriptMachine.Machine.Call
import ScriptMachine.Machine.Core
import ScriptMachine.Machine.Registry
import ScriptMachine.Number.Double
import ScriptMachine.Number.Dyadic
import ScriptMachine.Number.Shortest
import ScriptMachine.Number.Text
import ScriptMachine.Object
import ScriptMachine.Operand
import ScriptMachine.Operator
import ScriptMachine.Places
import ScriptMachine.Session.Command
import ScriptMachine.Session.Natives
import ScriptMachine.Session.Report
import ScriptMachine.Session.Run
import ScriptMachine.Session.Table
import ScriptMachine.Subscript
import ScriptMachine.Table
import ScriptMachine.Text.Ascii
import ScriptMachine.Text.Quoted
import ScriptMachine.Text.Utf8
import ScriptMachine.Value
import ScriptMachine.Proofs.Places
import ScriptMachine.Proofs.Heap.Arena
import ScriptMachine.Proofs.Heap.Ending
import ScriptMachine.Proofs.Heap.Action
import ScriptMachine.Proofs.Heap.Marking
import ScriptMachine.Proofs.Table.Entries
import ScriptMachine.Proofs.Heap.Change
import ScriptMachine.Proofs.Heap.Closed
import ScriptMachine.Proofs.Heap.Collection
import ScriptMachine.Proofs.Heap.Rendering
import ScriptMachine.Proofs.Heap.Safety
import ScriptMachine.Proofs.Heap.Elision
import ScriptMachine.Proofs.Table.Probing
import ScriptMachine.Proofs.Table.Writes
import ScriptMachine.Proofs.Table.FiniteMap
import ScriptMachine.Proofs.Heap.KeyClass
import ScriptMachine.Proofs.Heap.Survival
import ScriptMachine.Proofs.Heap.Tenure
import ScriptMachine.Proofs.Heap.MapRun
import ScriptMachine.Proofs.Table.Twin
import ScriptMachine.Proofs.Heap.Issued
import ScriptMachine.Proofs.Heap.Twin
import ScriptMachine.Proofs.Heap.Simulation
import ScriptMachine.Proofs.Heap.Schedule
import ScriptMachine.Proofs.Heap.Ledger
import ScriptMachine.Proofs.Machine.Rules
import ScriptMachine.Proofs.Machine.Move
import ScriptMachine.Proofs.Machine.Registration
import ScriptMachine.Proofs.Machine.Accounting
import ScriptMachine.Proofs.Machine.Intact
import ScriptMachine.Proofs.Machine.Life
import ScriptMachine.Proofs.Machine.Window
import ScriptMachine.Proofs.Machine.Discipline
import ScriptMachine.Proofs.Heap.KeyLaws
import ScriptMachine.Proofs.Number.Bits
import ScriptMachine.Proofs.Number.Exact
import ScriptMachine.Proofs.Number.Rounding
import ScriptMachine.Proofs.Number.Remainder
import ScriptMachine.Proofs.Table.Content
import ScriptMachine.Proofs.Heap.Maps
import ScriptMachine.Proofs.Heap.Traversal
import ScriptMachine.Proofs.Heap.Allocation
import ScriptMachine.Proofs.Heap.Assignment
import ScriptMachine.Proofs.Heap.Thinning
import ScriptMachine.Proofs.Heap.Ranges
import ScriptMachine.Proofs.Heap.Scopes
import ScriptMachine.Proofs.Machine.Namespace
import ScriptMachine.Proofs.Table.Growth
import ScriptMachine.Proofs.Heap.ByteKeys
import ScriptMachine.Proofs.Machine.Refusal
import ScriptMachine.Proofs.Machine.Installation
import ScriptMachine.Proofs.Machine.CoreCode
import ScriptMachine.Proofs.Machine.Use
import ScriptMachine.Proofs.Machine.CoreCalls
import ScriptMachine.Proofs.Text.Reading
import ScriptMachine.Proofs.Heap.PlainData
import ScriptMachine.Proofs.Heap.OperandTable
import ScriptMachine.Proofs.Machine.StringList
import ScriptMachine.Proofs.Machine.CoreAdmission
import ScriptMachine.Proofs.Number.Position
import ScriptMachine.Proofs.Text.Stripping
import ScriptMachine.Proofs.Machine.TextCalls
import ScriptMachine.Proofs.Machine.Upkeep
