import ScriptMachine.Heap.Key
import ScriptMachine.Heap.Render
import ScriptMachine.Machine.Call
import ScriptMachine.Machine.Registry
import ScriptMachine.Operator
import ScriptMachine.Text.Ascii

/-!
# The core library

The builtins that every full machine has, and the module `lang`.

Main definitions:
- `CoreFunction.run`: the body of each core function.
- `coreBuiltins`, `langFunctions`: names and arities, in the order of registration.
- `installCore`, and `Machine.create`, a machine with the core library.
-/

namespace ScriptMachine

/-! ## Bodies -/

/-- The plain texts of all arguments with a separator between them. -/
def joinedArguments (separator : String) : NativeM String := do
  let args ← arguments
  let heap := (← get).heap
  let texts ← (args.mapM fun arg => heap.render arg false : Except Fault (List String))
  return separator.intercalate texts

/-- Prints the arguments. Without a sink they are not even rendered. -/
def printArguments (separator terminator : String) : NativeM Unit := do
  if (← get).hasSink then
    let text ← joinedArguments separator
    modify (·.write (text ++ terminator))

/-- The bytes of the first argument, which has to be a string. -/
def stringArgument : NativeM (List UInt8) := do
  let value ← kindArgument 1 .string
  match ← (← get).heap.asString value with
  | some s => return s.bytes
  | none => return []

/-- Gives the first argument's bytes, changed, as a new string. -/
def returnMapped (change : List UInt8 → List UInt8) : NativeM Unit := do
  let bytes ← stringArgument
  returnValue (← nativeHeap (newString (change bytes)))

/-- Fails unless the first argument is truthy. The second one, if given, is the message. -/
def runAssert : NativeM Unit := do
  let argc := (← read).argc
  if argc = 1 ∨ argc = 2 then
    unless ← truthArgument 1 do
      if argc = 2 then
        let value ← argument 2
        throw (.error (.assertionFailed (some (← (← get).heap.render value false))))
      else
        throw (.error (.assertionFailed none))
  else
    throw (.error (.argumentCount none argc))

/-- Gives the plain text of the first argument. A string is its own text. -/
def runText : NativeM Unit := do
  let value ← argument 1
  let heap := (← get).heap
  match ← heap.asString value with
  | some _ => returnValue value
  | none => returnValue (← nativeHeap (newText (← heap.render value false)))

/-- The body of a core function. -/
def CoreFunction.run : CoreFunction → NativeM Unit
  | isKind kind => do
    let value ← argument 1
    returnValue (.bool (decide ((← (← get).heap.kindOf value) = kind)))
  | assert => runAssert
  | hash => do
    let value ← argument 1
    returnValue (hashNumber (← (← get).heap.hashOf value))
  | text => runText
  | print => printArguments " " "\n"
  | lower => returnMapped Ascii.lower
  | upper => returnMapped Ascii.upper
  | strip => returnMapped Ascii.strip
  | clock => do returnValue (.number (← get).uptime)
  | collect => do returnValue (.number (.ofNat (← nativeHeap collectNow)))
  | write => printArguments "" ""

/-- The core functions, and for other entry points what the host offers. Nothing happens in a
function that the host does not know. -/
def Linkage.withHost (host : String → Option (NativeM Unit)) : Linkage
  | .core function => function.run
  | .host name => (host name).getD (pure ())

/-! ## Names -/

/-- The core builtins. -/
def coreBuiltins : List (String × CoreFunction × Arity) :=
  [ ("is_null", .isKind .null, .fixed 1),
    ("is_bool", .isKind .bool, .fixed 1),
    ("is_num", .isKind .number, .fixed 1),
    ("is_string", .isKind .string, .fixed 1),
    ("is_list", .isKind .list, .fixed 1),
    ("is_map", .isKind .map, .fixed 1),
    ("is_range", .isKind .range, .fixed 1),
    ("is_function", .isKind .function, .fixed 1),
    ("is_script", .isKind .script, .fixed 1),
    ("is_userobj", .isKind .foreign, .fixed 1),
    ("assert", .assert, .variadic),
    ("hash", .hash, .fixed 1),
    ("to_string", .text, .fixed 1),
    ("print", .print, .variadic),
    ("str_lower", .lower, .fixed 1),
    ("str_upper", .upper, .fixed 1),
    ("str_strip", .strip, .fixed 1) ]

/-- The name of the core module. -/
def langName : String := "lang"

/-- The functions of the core module. -/
def langFunctions : List (String × CoreFunction × Arity) :=
  [ ("clock", .clock, .fixed 0),
    ("gc", .collect, .fixed 0),
    ("write", .write, .variadic) ]

/-! ## Installation -/

/-- Registers the core builtins, as far as names and room allow. -/
def installBuiltins : SetupM Unit :=
  coreBuiltins.forM fun (name, function, arity) => do
    let _ ← registerBuiltin name (.core function) arity

/-- Makes the core module. -/
def installLang : SetupM Unit := do
  let owner ← createModule langName
  langFunctions.forM fun (name, function, arity) => do
    let _ ← declareFunction owner name (.native (.core function)) arity

/-- Installs the core library. -/
def installCore : SetupM Unit := do
  installBuiltins
  installLang

/-- A machine with the core library. -/
def Machine.create (settings : Settings) : Except (Failure RegistrationError) Machine :=
  match installCore (Machine.bare settings) with
  | .ok () m => .ok m
  | .error failure _ => .error failure

end ScriptMachine
