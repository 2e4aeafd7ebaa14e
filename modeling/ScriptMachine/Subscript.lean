import ScriptMachine.Heap.Alloc
import ScriptMachine.Heap.Map
import ScriptMachine.Heap.Render
import ScriptMachine.Operand

/-!
# Subscripts

Reading `value[key]` and writing `value[key] = x`. Strings and lists take positions, maps take
keys. A string gives its bytes as new strings of one byte and cannot be written.

Main definitions:
- `getSubscript`, `setSubscript`.
-/

namespace ScriptMachine

/-- Why a look-up found nothing: a key that could have been there is missing, any other is
invalid. -/
def Heap.missingKey (heap : Heap) (key : Value) : Except Fault EvalError := do
  let text := "'" ++ (← heap.render key true) ++ "'"
  match ← heap.hashOf key with
  | some _ => return .keyNotExists text
  | none => return .invalidKey text

/-- Reads an element. -/
def getSubscript (receiver key : Value) : HeapM Value := do
  let heap ← get
  match receiver with
  | .object h =>
    match ← heap.get h with
    | .string s =>
      let index ← requirePosition key s.length Kind.string.name
      newString (s.bytes.drop index |>.take 1)
    | .list elements =>
      let index ← requirePosition key elements.size Kind.list.name
      return (elements.get? index).getD .null
    | .map table =>
      match ← heap.lookup table key with
      | some value => return value
      | none => throw (.error (← heap.missingKey key))
    | other => throw (.error (.notSubscriptable other.kind.name))
  | .null | .bool _ | .number _ => throw (.error (.notSubscriptable (← heap.typeName receiver)))

/-- Writes an element in place. -/
def setSubscript (receiver key value : Value) : HeapM Unit := do
  let heap ← get
  match receiver with
  | .object h =>
    match ← heap.get h with
    | .string _ => throw (.error (.immutableObject Kind.string.name))
    | .list elements =>
      let index ← requirePosition key elements.size Kind.list.name
      set (heap.replace h (.list (elements.set index value)))
    | .map _ => mapSet h key value
    | other => throw (.error (.notSubscriptable other.kind.name))
  | .null | .bool _ | .number _ => throw (.error (.notSubscriptable (← heap.typeName receiver)))

end ScriptMachine
