import ScriptMachine.Heap.Alloc

/-!
# Lists and stacks in place

Elements are added and taken without measuring the container: it is measured when a collection
passes.

Main definitions:
- `listPush`, `listPop`, `fiberPush`: each says whether it met a container of its kind.
- `newStringList`: a list of new strings, safe from the collections its own strings bring about.
-/

namespace ScriptMachine

/-- Adds an element to a list. Gives `false`, and does nothing, for any other value. -/
def listPush (list element : Value) : HeapM Bool := do
  match list with
  | .object h =>
    let heap ← get
    match ← heap.get h with
    | .list elements =>
      set (heap.replace h (.list (elements.push element)))
      return true
    | _ => return false
  | .null | .bool _ | .number _ => return false

/-- Takes the last element of a list, null if it has none. Gives nothing for any other value. -/
def listPop (list : Value) : HeapM (Option Value) := do
  match list with
  | .object h =>
    let heap ← get
    match ← heap.get h with
    | .list elements =>
      set (heap.replace h (.list elements.pop))
      return some (elements.back?.getD .null)
    | _ => return none
  | .null | .bool _ | .number _ => return none

/-- Adds a value to the stack of a fiber. Gives `false`, and does nothing, for any other value. -/
def fiberPush (fiber value : Value) : HeapM Bool := do
  match fiber with
  | .object h =>
    let heap ← get
    match ← heap.get h with
    | .fiber f =>
      set (heap.replace h (.fiber { f with stack := f.stack.push value }))
      return true
    | _ => return false
  | .null | .bool _ | .number _ => return false

/-- A list of new strings. The list is pinned while they are allocated, and holds each as soon as
it exists. -/
def newStringList (items : List String) : HeapM Value := do
  let list ← newObject (.list (.withCapacity items.length))
  pinned [list] <| items.forM fun item => do
    let string ← newText item
    let _ ← listPush list string
  return list

end ScriptMachine
