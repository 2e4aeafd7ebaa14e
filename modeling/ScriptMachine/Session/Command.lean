import ScriptMachine.Operator
import ScriptMachine.Session.Report

/-!
# Commands of a session

A session is a list of commands to one machine. Operands are literals that are evaluated when the
command runs; names stand for values that earlier commands gave.

Main definitions:
- `Literal`: an operand.
- `HeapCommand`, `CursorCommand`, `MachineCommand`, `Command`: what can be asked.
- `Answer`, `Trouble`, `Reply`: what comes back.
-/

namespace ScriptMachine

/-! ## Asking -/

/-- An operand. All but primitives and names allocate when they are evaluated. -/
inductive Literal where
  | null
  | bool (b : Bool)
  | number (x : Double)
  | string (bytes : List UInt8)
  | list (elements : List Literal)
  | map (entries : List (Literal × Literal))
  | range (start stop : Double)
  | foreign (typeName : String) (tag : UInt64)
  | fiber (stack : List Literal) (function : Option Literal)
  | code (name : String) (arity : Arity) (bytes : List UInt8) (owner : Option Literal)
  | script (name : String)
  | named (name : String)
deriving Inhabited

/-- What a value is wrapped in. -/
inductive Wrapping where
  | list
  | map
deriving DecidableEq, Repr

/-- Commands that need no more than a heap. -/
inductive HeapCommand where
  /-- Gives the value of a literal. -/
  | give (value : Literal)
  /-- Wraps a value in containers, one inside the other. -/
  | nest (value : Literal) (wrapping : Wrapping) (depth : Nat)
  | inspect (value : Literal)
  | display (value : Literal) (quoted : Bool)
  | kind (value : Literal)
  | views (value : Literal)
  | hash (value : Literal)
  | equal (left right : Literal)
  | handle (value : Literal)
  | isLive (value : Literal)
  | addRoot (value : Literal)
  | removeRoot (value : Literal)
  | collect
  | statistics
  | remeasure (value : Literal)
  /-- Allocates strings that nothing refers to. -/
  | garbage (count : Nat)
  | listPush (list element : Literal)
  | listPop (list : Literal)
  | fiberPush (fiber value : Literal)
  | mapSet (map key value : Literal)
  /-- Maps each integer of a half-open range to its double. -/
  | mapFill (map : Literal) (start stop : Int)
  /-- Removes each integer of a half-open range. -/
  | mapDrain (map : Literal) (start stop : Int)
  | mapGet (map key : Literal)
  /-- Looks up a string key without making a string of it. -/
  | mapGetBytes (map : Literal) (key : Option (List UInt8))
  | mapRemove (map key : Literal)
  | binary (left right : Literal) (operator : Operator)
  | getAttribute (receiver : Literal) (name : String)
  | setAttribute (receiver value : Literal) (name : String)
  | getSubscript (receiver key : Literal)
  | setSubscript (receiver key value : Literal)
  | iterate (container state : Literal)

/-- Commands to the iteration that is going on. -/
inductive CursorCommand where
  | next
  /-- Goes on until the end, but not more than so many times. -/
  | drain (limit : Nat)
  | restart
  | state

/-- Commands that need a machine. -/
inductive MachineCommand where
  | call (function : Literal) (args : List Literal)
  /-- Calls a function and compares the number it gives with the machine's uptime. -/
  | clock (function : Literal) (args : List Literal)
  | registerBuiltin (name native : String) (arity : Arity)
  | findBuiltin (name : String)
  | builtinAt (index : Nat)
  | builtins
  | createModule (name : String)
  | findModule (name : String)
  | addFunction (owner : Literal) (name native : String) (arity : Arity)
  | addCodeFunction (owner : Literal) (name : String) (bytes : List UInt8) (arity : Arity)
  | addGlobal (owner value : Literal) (name : String)
  | stringList (items : List String)
  | installCore
  | installBuiltins
  | installLang
  | write (text : String)
  | hasSink
  | output
  | clearOutput

/-- The operands of a machine command, in the order of evaluation. -/
def MachineCommand.operands : MachineCommand → List Literal
  | call function args | clock function args => function :: args
  | addFunction owner .. | addCodeFunction owner .. => [owner]
  | addGlobal owner value _ => [owner, value]
  | _ => []

/-- What to do with the value that a command gives: name it, and root it. -/
structure Binding where
  name : Option String
  keep : Bool
deriving DecidableEq, Repr

/-- A command. Pins and iterations have commands of their own inside. -/
inductive Command where
  | heap (command : HeapCommand)
  | machine (command : MachineCommand)
  | cursor (command : CursorCommand)
  | pin (values : List Literal) (body : List (Command × Binding))
  | iter (container : Literal) (body : List (Command × Binding))

/-! ## Answering -/

/-- A command that could not be carried out as it was put. -/
inductive Complaint where
  | notAnObject
  | notAList
  | notAMap
  | notAFiber
  | notAMapOrString
  | needsMachine
deriving DecidableEq, Repr

/-- The text of a complaint. -/
def Complaint.message : Complaint → String
  | notAnObject => "not an object"
  | notAList => "not a list"
  | notAMap => "not a map"
  | notAFiber => "not a fiber"
  | notAMapOrString => "not a map or not a string"
  | needsMachine => "step needs the VM"

/-- An error of a command. -/
inductive Trouble where
  | eval (e : EvalError)
  | registration (e : RegistrationError)
  | complaint (c : Complaint)
deriving DecidableEq, Repr

/-- What a command brings to light. -/
inductive Answer where
  | nothing
  | value (value : Shown)
  | option (value : Option Shown)
  | flag (b : Bool)
  | flags (bs : List Bool)
  | count (n : Nat)
  | text (text : String)
  | optionalText (text : Option String)
  | inspection (i : Inspection)
  | kind (name : String) (truthy null : Bool)
  | hash (number : Shown) (hash : Option UInt32)
  | equality (equal identical : Bool)
  | liveness (live : Bool) (kindName : Option String)
  | statistics (bytes threshold collections live : Nat)
  /-- A step of an iteration, with the state after it, or the end. -/
  | step (stateAndValue : Option (Shown × Shown))
  | item (value : Option Shown)
  | items (values : List (Except EvalError Shown))
  /-- Whether a clock is ahead of the uptime, for a clock that gives numbers. -/
  | monotonic (ahead : Option Bool)
  | builtin (entry : Option (Nat × String × Arity × Shown))
  | builtinEntry (entry : Option (String × Arity))
  | builtins (entries : List (String × Arity))
  | replies (replies : List (Except (Failure Trouble) Answer))

/-- The outcome of a command. -/
abbrev Reply := Except (Failure Trouble) Answer

end ScriptMachine
