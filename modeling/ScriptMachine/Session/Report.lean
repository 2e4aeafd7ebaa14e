import ScriptMachine.Heap.Render

/-!
# Reports about values

What a host sees of a value: primitives and strings as they are, other objects by kind and text,
and whether the object is gone.

Main definitions:
- `Shown`, `Heap.show`: a value as the host sees it.
- `Inspection`, `Heap.inspect`: an object laid open, one level deep.
-/

namespace ScriptMachine

/-- A value as the host sees it. -/
inductive Shown where
  | null
  | bool (b : Bool)
  | number (x : Double)
  /-- A string that is valid text. -/
  | text (text : String)
  /-- Any other string. -/
  | bytes (bytes : List UInt8)
  /-- A handle whose object is gone. -/
  | stale
  /-- Any other object, by the name of its kind and its quoted text. -/
  | object (kind text : String)
deriving DecidableEq

/-- The bytes of a string, as text if they are text. -/
def Shown.ofBytes (bytes : List UInt8) : Shown :=
  match Utf8.decode? bytes with
  | some chars => .text (String.ofList chars)
  | none => .bytes bytes

/-- Shows a value. An object that holds a stale handle has no text, and showing it is a fault. -/
def Heap.show (heap : Heap) (value : Value) : Except Fault Shown :=
  match value with
  | .null => .ok .null
  | .bool b => .ok (.bool b)
  | .number x => .ok (.number x)
  | .object h =>
    match heap.get? h with
    | none => .ok .stale
    | some (.string s) => .ok (.ofBytes s.bytes)
    | some other => do return .object other.kind.name (← heap.render value true)

/-- Shows values in order. -/
def Heap.showAll (heap : Heap) (values : List Value) : Except Fault (List Shown) :=
  values.mapM heap.show

/-- Shows an optional value. -/
def Heap.showOption (heap : Heap) : Option Value → Except Fault (Option Shown)
  | some value => do return some (← heap.show value)
  | none => .ok none

/-- An object laid open. -/
inductive Inspection where
  | string (s : ByteString)
  | list (elements : List Shown)
  | map (count : Nat) (slots : List (Table.Slot Shown Shown))
  | range (start stop : Double)
  | function (name : String) (owner : Option Shown) (arity : Arity) (body : Body)
  | script (name : String) (functions : List String) (globals : List (String × Shown))
  | fiber (stack : List Shown) (function : Option Shown)
  | foreign (f : Foreign)

/-- Shows the key and the value in a slot. -/
def Heap.showSlot (heap : Heap) :
    Table.Slot Value Value → Except Fault (Table.Slot Shown Shown)
  | .empty => .ok .empty
  | .tombstone => .ok .tombstone
  | .occupied key value hash => do
    let shownKey ← heap.show key
    let shownValue ← heap.show value
    return .occupied shownKey shownValue hash

/-- The names of functions. -/
def Heap.functionNames (heap : Heap) (functions : List Handle) : Except Fault (List String) :=
  functions.mapM fun h => do
    return ((← heap.asFunction (.object h)).map (·.name)).getD ""

/-- Lays an object open. -/
def Heap.inspect (heap : Heap) (h : Handle) : Except Fault Inspection := do
  match ← heap.get h with
  | .string s => return .string s
  | .list elements => return .list (← heap.showAll elements.toList)
  | .map table => return .map table.count (← table.slots.toList.mapM heap.showSlot)
  | .range start stop => return .range start stop
  | .function f =>
    return .function f.name (← heap.showOption (f.owner.map .object)) f.arity f.body
  | .script s =>
    let functions ← heap.functionNames s.functions.toList
    let globals ← s.globals.toList.mapM fun global => do
      return (global.name, ← heap.show global.value)
    return .script s.name functions globals
  | .fiber f =>
    let stack ← heap.showAll f.stack.toList
    return .fiber stack (← heap.showOption (f.function.map .object))
  | .foreign f => return .foreign f

end ScriptMachine
