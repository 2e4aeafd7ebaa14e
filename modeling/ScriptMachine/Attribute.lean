import ScriptMachine.Heap.Map

/-!
# Attributes

Reading `value.name` and writing `value.name = x`. Strings and lists have a length that cannot be
written, maps read their string keys, modules read functions before variables and write variables
only. Nothing else has attributes, and primitives cannot be asked at all.

Main definitions:
- `Heap.getAttribute`: a read, which never changes the heap.
- `setAttribute`: a write.
-/

namespace ScriptMachine

/-- The attribute that strings and lists have. -/
def lengthName : String := "length"

/-- A number of elements as a value. -/
def countValue (n : Nat) : Value :=
  .number (.ofNat n)

/-- Reads an attribute. -/
def Heap.getAttribute (heap : Heap) (receiver : Value) (name : String) :
    Except (Failure EvalError) Value := do
  match receiver with
  | .object h =>
    let object ← heap.get h
    let missing : EvalError := .attributeNotFound object.kind.name name
    match object with
    | .string s => if name = lengthName then return countValue s.length else throw (.error missing)
    | .list elements =>
      if name = lengthName then return countValue elements.size else throw (.error missing)
    | .map table =>
      match ← heap.lookupBytes table (Utf8.encode name) with
      | some value => return value
      | none => throw (.error (.keyNotExists ("(\"" ++ name ++ "\")")))
    | .script script =>
      match ← heap.scriptFunction script name with
      | some function => return .object function
      | none =>
        match script.global? name with
        | some value => return value
        | none => throw (.error missing)
    | .range .. | .function _ | .fiber _ | .foreign _ => throw (.error missing)
  | .null | .bool _ | .number _ => throw (.error (.notSubscriptable (← heap.typeName receiver)))

/-- The module with its variable at `index` overwritten. -/
def Script.setGlobal (script : Script) (index : Nat) (value : Value) : Script :=
  match script.globals.get? index with
  | some global => { script with globals := script.globals.set index { global with value } }
  | none => script

/-- Writes an attribute. Only the variables of a module can be written. -/
def setAttribute (receiver : Value) (name : String) (value : Value) : HeapM Unit := do
  let heap ← get
  match receiver with
  | .object h =>
    let object ← heap.get h
    let missing : EvalError := .attributeNotFound object.kind.name name
    match object with
    | .string _ | .list _ =>
      if name = lengthName then throw (.error (.attributeImmutable name))
      else throw (.error missing)
    | .map _ => throw (.error (.notImplemented "Setting attributes on a Map"))
    | .script script =>
      match ← heap.scriptFunction script name with
      | some _ => throw (.error (.attributeImmutable name))
      | none =>
        match script.globalIndex? name with
        | some index => set (heap.replace h (.script (script.setGlobal index value)))
        | none => throw (.error missing)
    | .range .. | .function _ | .fiber _ | .foreign _ => throw (.error missing)
  | .null | .bool _ | .number _ => throw (.error (.notSubscriptable (← heap.typeName receiver)))

end ScriptMachine
