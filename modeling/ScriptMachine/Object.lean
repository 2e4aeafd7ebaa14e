import ScriptMachine.Buffer
import ScriptMachine.Hash
import ScriptMachine.Table
import ScriptMachine.Text.Utf8
import ScriptMachine.Value

/-!
# Objects

What lives on the heap: eight kinds of objects. For the collector an object is a size in bytes and
the handles it holds.

Main definitions:
- `ByteString`: bytes with their hash.
- `Callable`, `Script`, `Fiber`, `Foreign`: functions, modules, stacks and host objects.
- `Object` with `kind`, `footprint` and `children`.
-/

namespace ScriptMachine

/-! ## The kinds of objects -/

/-- An immutable byte string. Its hash is computed once, and is right by construction. -/
structure ByteString where
  bytes : List UInt8
  hash : UInt32
  hash_eq : hash = hashBytes bytes
deriving DecidableEq

namespace ByteString

/-- The string of these bytes. -/
def ofBytes (bytes : List UInt8) : ByteString :=
  ⟨bytes, hashBytes bytes, rfl⟩

/-- The string of a text. -/
def ofText (text : String) : ByteString :=
  ofBytes (Utf8.encode text)

/-- The number of bytes. -/
def length (s : ByteString) : Nat :=
  s.bytes.length

/-- The bytes read as text, whatever they are. -/
def text (s : ByteString) : List Char :=
  Utf8.decodeLossy s.bytes

/-- Same hash and same bytes: the hash is compared first because it usually decides. -/
def sameContent (s t : ByteString) : Bool :=
  s.hash == t.hash && s.bytes == t.bytes

theorem sameContent_iff {s t : ByteString} : s.sameContent t = true ↔ s.bytes = t.bytes := by
  simp only [sameContent, Bool.and_eq_true, beq_iff_eq, and_iff_right_iff_imp]
  intro same
  rw [s.hash_eq, t.hash_eq, same]

end ByteString

/-- The functions that the machine itself brings. -/
inductive CoreFunction where
  | isKind (kind : Kind)
  | assert
  | hash
  | text
  | print
  | lower
  | upper
  | strip
  | clock
  | collect
  | write
deriving DecidableEq, Repr

/-- The entry point of a native function: one of the machine's own, or one that the host offers
under a name. -/
inductive Symbol where
  | core (function : CoreFunction)
  | host (name : String)
deriving DecidableEq, Repr

/-- What runs when a function is called. Compiled code is opaque here. -/
inductive Body where
  | native (entry : Symbol)
  | code (bytes : List UInt8)
deriving DecidableEq, Repr

/-- A function. One that was declared on a module knows its owner. -/
structure Callable where
  name : String
  owner : Option Handle
  arity : Arity
  body : Body
deriving DecidableEq, Repr

/-- A named variable of a module. -/
structure Global where
  name : String
  value : Value
deriving DecidableEq

/-- A module: the functions and variables declared on it, in order. -/
structure Script where
  name : String
  functions : Buffer Handle
  globals : Buffer Global
deriving DecidableEq

namespace Script

/-- A module with nothing on it. -/
def ofName (name : String) : Script :=
  ⟨name, .empty, .empty⟩

/-- The position of the variable called `name`. -/
def globalIndex? (s : Script) (name : String) : Option Nat :=
  s.globals.toList.findIdx? (·.name == name)

/-- The value of the variable called `name`. -/
def global? (s : Script) (name : String) : Option Value :=
  (s.globals.toList.find? (·.name == name)).map (·.value)

end Script

/-- A stack of values, and the function that runs on it. -/
structure Fiber where
  stack : Buffer Value
  function : Option Handle
deriving DecidableEq

/-- An object of the host, of which only a type name and a number are known. -/
structure Foreign where
  typeName : String
  tag : UInt64
deriving DecidableEq, Repr

/-- A heap object. -/
inductive Object where
  | string (s : ByteString)
  | list (elements : Buffer Value)
  | map (table : Table Value Value)
  | range (start stop : Double)
  | function (f : Callable)
  | script (s : Script)
  | fiber (f : Fiber)
  | foreign (f : Foreign)
deriving DecidableEq

/-! ## What the collector sees -/

namespace Object

/-- The kind of an object. -/
def kind : Object → Kind
  | string _ => .string
  | list _ => .list
  | map _ => .map
  | range .. => .range
  | function _ => .function
  | script _ => .script
  | fiber _ => .fiber
  | foreign _ => .foreign

/-- The bytes of an object besides its fixed part. Containers count the room that they own, full
or not. -/
def payload : Object → Nat
  | string s => s.length
  | list elements => elements.capacity * 16
  | map table => table.capacity * 40
  | range .. => 0
  | function f =>
    f.name.utf8ByteSize + match f.body with
      | .native _ => 0
      | .code bytes => bytes.length
  | script s => s.name.utf8ByteSize + s.functions.capacity * 8 + s.globals.capacity * 40
  | fiber f => f.stack.capacity * 16
  | foreign f => f.typeName.utf8ByteSize

/-- The bytes that an object accounts for. -/
def footprint (o : Object) : Nat :=
  80 + o.payload

/-- The handles that an object holds. -/
def children : Object → List Handle
  | string _ | range .. | foreign _ => []
  | list elements => elements.toList.filterMap Value.handle?
  | map table => table.entries.flatMap fun (key, value) =>
    [key, value].filterMap Value.handle?
  | function f => f.owner.toList
  | script s => s.functions.toList ++ s.globals.toList.filterMap (·.value.handle?)
  | fiber f => f.stack.toList.filterMap Value.handle? ++ f.function.toList

end Object

end ScriptMachine
