import ScriptMachine.Attribute
import ScriptMachine.Heap.Sequence
import ScriptMachine.Iteration
import ScriptMachine.Session.Command
import ScriptMachine.Session.Natives
import ScriptMachine.Subscript

/-!
# Running a session

Every command is answered, and a command that fails leaves the machine as it was at the failure;
the next one goes on from there. What the operands of a command allocate is rooted until the
command ends, and no longer.

Main definitions:
- `Session`, `Session.start`.
- `evalLiteral`: the value of an operand.
- `runStep`, `runSteps`: commands to replies.
-/

namespace ScriptMachine

/-- A machine in use. -/
structure Session where
  machine : Machine
  /-- What names stand for, the latest first. A name roots nothing. -/
  names : List (String × Value)
  /-- What the operands of the command that is running have allocated. -/
  held : List Handle
  /-- The iteration that is going on. -/
  cursor : Cursor

/-- Commands in progress. -/
abbrev SessionM := EStateM (Failure Trouble) Session

/-! ## The machine inside -/

/-- A failure with its error seen as trouble. -/
def Failure.mapError {ε ε' : Type} (f : ε → ε') : Failure ε → Failure ε'
  | .error e => .error (f e)
  | .fault bug => .fault bug

/-- Runs an operation of the machine. -/
def onMachine {ε α : Type} (trouble : ε → Trouble) (body : EStateM (Failure ε) Machine α) :
    SessionM α := fun ⟨machine, names, held, cursor⟩ =>
  match body machine with
  | .ok a machine => .ok a ⟨machine, names, held, cursor⟩
  | .error failure machine =>
    .error (failure.mapError trouble) ⟨machine, names, held, cursor⟩

/-- Runs an operation that reports errors to the script. -/
def perform {α : Type} (body : MachineM α) : SessionM α :=
  onMachine .eval body

/-- Runs an operation on the heap. -/
def performHeap {α : Type} (body : HeapM α) : SessionM α :=
  perform (onHeap body)

/-- Runs an operation that reports errors to the host. -/
def setUp {α : Type} (body : SetupM α) : SessionM α :=
  onMachine .registration body

/-- The heap as it is. -/
def currentHeap : SessionM Heap := do
  return (← get).machine.heap

/-- Changes the heap. -/
def modifyHeap (change : Heap → Heap) : SessionM Unit :=
  modify fun session =>
    { session with machine := { session.machine with heap := change session.machine.heap } }

/-- Refuses a command. -/
def complain {α : Type} (complaint : Complaint) : SessionM α :=
  throw (.error (.complaint complaint))

/-- The handle in a value that has to be an object. -/
def requireHandle (value : Value) : SessionM Handle := do
  match value.handle? with
  | some h => return h
  | none => complain .notAnObject

/-! ## Operands -/

/-- Allocates an object for an operand and roots it until the command ends. -/
def allocHeld (object : Object) : SessionM Handle := do
  let h ← performHeap (allocObject object)
  modifyHeap (·.addRoot h)
  modify fun session => { session with held := h :: session.held }
  return h

/-- Allocates an object for an operand and gives it as a value. -/
def holdNew (object : Object) : SessionM Value := do
  return .object (← allocHeld object)

mutual

/-- The value of an operand. Parts come before the whole, except that a map is allocated first and
then filled. -/
def evalLiteral : Literal → SessionM Value
  | .null => return .null
  | .bool b => return .bool b
  | .number x => return .number x
  | .string bytes => holdNew (.string (.ofBytes bytes))
  | .list elements => do
    let values ← evalLiterals elements
    holdNew (.list (.ofList values))
  | .map entries => do
    let map ← allocHeld (.map .empty)
    evalEntries map entries
    return .object map
  | .range start stop => holdNew (.range start stop)
  | .foreign typeName tag => holdNew (.foreign ⟨typeName, tag⟩)
  | .fiber stack function => do
    let values ← evalLiterals stack
    let function ← evalHandle? function
    holdNew (.fiber ⟨.ofList values, function⟩)
  | .code name arity bytes owner => do
    let owner ← evalHandle? owner
    holdNew (.function ⟨name, owner, arity, .code bytes⟩)
  | .script name => holdNew (.script (.ofName name))
  | .named name => do return ((← get).names.lookup name).getD .null

/-- The values of operands, from left to right. -/
def evalLiterals : List Literal → SessionM (List Value)
  | [] => return []
  | literal :: rest => do
    let value ← evalLiteral literal
    return value :: (← evalLiterals rest)

/-- Fills a map with the values of operands. -/
def evalEntries (map : Handle) : List (Literal × Literal) → SessionM Unit
  | [] => return ()
  | (keyLiteral, valueLiteral) :: rest => do
    let key ← evalLiteral keyLiteral
    let value ← evalLiteral valueLiteral
    performHeap (mapSet map key value)
    evalEntries map rest

/-- The handle of an operand that may be left out. -/
def evalHandle? : Option Literal → SessionM (Option Handle)
  | none => return none
  | some literal => do return some (← requireHandle (← evalLiteral literal))

end

/-- The object that an operand has to be. -/
def evalObject (literal : Literal) : SessionM Handle := do
  requireHandle (← evalLiteral literal)

/-! ## Outcomes -/

/-- What a command gives before its binding is made: a value that can be named, whether it can
also be kept, and the answer, which is made up last. -/
structure Outcome where
  named : Option Value
  keepable : Bool
  answer : Heap → Except Fault Answer

namespace Outcome

/-- The outcome that is a value. -/
def value (v : Value) : Outcome :=
  ⟨some v, true, fun heap => do return .value (← heap.show v)⟩

/-- An outcome with a value to be named, and more to tell than the value. -/
def naming (v : Value) (answer : Heap → Except Fault Answer) : Outcome :=
  ⟨some v, false, answer⟩

/-- An outcome without a value. -/
def report (answer : Answer) : Outcome :=
  ⟨none, false, fun _ => .ok answer⟩

end Outcome

/-- Shows a value on the heap as it is. -/
def showNow (v : Value) : SessionM Shown := do
  (← currentHeap).show v

/-- Names the value of an outcome and roots it, as the binding asks, and only then answers. Only an
object can be kept; any other value is refused, though its name stays. -/
def settle (binding : Binding) (outcome : Outcome) : SessionM Answer := do
  match outcome.named with
  | some v =>
    match binding.name with
    | some name => modify fun session => { session with names := (name, v) :: session.names }
    | none => pure ()
    if outcome.keepable && binding.keep then
      let h ← requireHandle v
      modifyHeap (·.addRoot h)
  | none => pure ()
  outcome.answer (← currentHeap)

/-! ## Commands to the heap -/

/-- Wraps a value `depth` times. A map holds what it wraps under the key null. -/
def wrap (wrapping : Wrapping) : Nat → Value → HeapM Value
  | 0, value => return value
  | depth + 1, value => do
    let outer ← match wrapping with
      | .list => newList [value]
      | .map => pinned [value] do
        let map ← allocObject (.map .empty)
        mapSet map .null value
        return .object map
    wrap wrapping depth outer

/-- The integers from `start` up to but not including `stop`. -/
def integersBetween (start stop : Int) : List Int :=
  (List.range (stop - start).toNat).map fun (i : Nat) => start + i

/-- An integer as a value. -/
def integerValue (n : Int) : Value :=
  .number (.ofFloat (.ofInt n))

/-- Which kinds of container a value can be viewed as, for reading and then for writing. -/
def viewFlags (kind : Option Kind) : List Bool :=
  [Kind.string, .list, .map, .function, .script, .fiber, .list, .script, .fiber].map
    fun wanted => kind == some wanted

/-- Runs a command that needs no more than a heap. -/
def runHeapCommand : HeapCommand → SessionM Outcome
  | .give value => do return .value (← evalLiteral value)
  | .nest value wrapping depth => do
    return .value (← performHeap (wrap wrapping depth (← evalLiteral value)))
  | .inspect value => do
    let h ← evalObject value
    return .report (.inspection (← (← currentHeap).inspect h))
  | .display value quoted => do
    let value ← evalLiteral value
    return .report (.text (← (← currentHeap).render value quoted))
  | .kind value => do
    let value ← evalLiteral value
    return .report (.kind (← (← currentHeap).typeName value) value.isTruthy value.isNull)
  | .views value => do
    let value ← evalLiteral value
    let kind ← (← currentHeap).view (fun object => some object.kind) value
    return .report (.flags (viewFlags kind))
  | .hash value => do
    let value ← evalLiteral value
    let hash ← (← currentHeap).hashOf value
    return .report (.hash (← showNow (hashNumber hash)) hash)
  | .equal left right => do
    let left ← evalLiteral left
    let right ← evalLiteral right
    return .report (.equality (← (← currentHeap).equal left right) (left.identical right))
  | .handle value => do return .report (.text (← evalObject value).text)
  | .isLive value => do
    let h ← evalObject value
    let object := (← currentHeap).get? h
    return .report (.liveness object.isSome (object.map (·.kind.name)))
  | .addRoot value => do
    let h ← evalObject value
    modifyHeap (·.addRoot h)
    return .report .nothing
  | .removeRoot value => do
    let h ← evalObject value
    modifyHeap (·.removeRoot h)
    return .report .nothing
  | .collect => do return .report (.count (← performHeap collectNow))
  | .statistics => do
    let heap ← currentHeap
    return .report (.statistics heap.bytes heap.threshold heap.collections heap.liveCount)
  | .remeasure value => do
    let h ← evalObject value
    modifyHeap (·.remeasure h)
    return .report .nothing
  | .garbage count => do
    performHeap <| (List.range count).forM fun i => do
      let _ ← newText ("garbage " ++ Nat.repr i)
    return .report .nothing
  | .listPush list element => do
    let list ← evalLiteral list
    let element ← evalLiteral element
    if ← performHeap (listPush list element) then return .report .nothing
    else complain .notAList
  | .listPop list => do
    match ← performHeap (listPop (← evalLiteral list)) with
    | some value => return .value value
    | none => complain .notAList
  | .fiberPush fiber value => do
    let fiber ← evalLiteral fiber
    let value ← evalLiteral value
    if ← performHeap (fiberPush fiber value) then return .report .nothing
    else complain .notAFiber
  | .mapSet map key value => do
    let map ← evalLiteral map
    let key ← evalLiteral key
    let value ← evalLiteral value
    performHeap (mapSet (← requireHandle map) key value)
    return .report .nothing
  | .mapFill map start stop => do
    let map ← evalLiteral map
    (integersBetween start stop).forM fun i => do
      performHeap (mapSet (← requireHandle map) (integerValue i) (integerValue (2 * i)))
    return .report .nothing
  | .mapDrain map start stop => do
    let map ← evalLiteral map
    let removed ← (integersBetween start stop).mapM fun i => do
      performHeap (mapRemove (← requireHandle map) (integerValue i))
    return .report (.count (removed.countP (·.isSome)))
  | .mapGet map key => do
    let map ← evalLiteral map
    let key ← evalLiteral key
    let heap ← currentHeap
    match ← heap.asMap map with
    | some table => return .report (.option (← heap.showOption (← heap.lookup table key)))
    | none => complain .notAMap
  | .mapGetBytes map key => do
    let map ← evalLiteral map
    let heap ← currentHeap
    match ← heap.asMap map, key with
    | some table, some bytes =>
      return .report (.option (← heap.showOption (← heap.lookupBytes table bytes)))
    | _, _ => complain .notAMapOrString
  | .mapRemove map key => do
    let map ← evalLiteral map
    let key ← evalLiteral key
    let removed ← performHeap (mapRemove (← requireHandle map) key)
    return .report (.option (← (← currentHeap).showOption removed))
  | .binary left right operator => do
    let left ← evalLiteral left
    let right ← evalLiteral right
    return .value (← performHeap (evaluate operator left right))
  | .getAttribute receiver name => do
    let receiver ← evalLiteral receiver
    return .value (← performHeap (do (← get).getAttribute receiver name))
  | .setAttribute receiver value name => do
    let receiver ← evalLiteral receiver
    let value ← evalLiteral value
    performHeap (setAttribute receiver name value)
    return .report .nothing
  | .getSubscript receiver key => do
    let receiver ← evalLiteral receiver
    let key ← evalLiteral key
    return .value (← performHeap (getSubscript receiver key))
  | .setSubscript receiver key value => do
    let receiver ← evalLiteral receiver
    let key ← evalLiteral key
    let value ← evalLiteral value
    performHeap (setSubscript receiver key value)
    return .report .nothing
  | .iterate container state => do
    let container ← evalLiteral container
    let state ← evalLiteral state
    match ← performHeap (iterate container state) with
    | .next state value =>
      return .naming value fun heap => do
        return .step (some (← heap.show state, ← heap.show value))
    | .done => return .report (.step none)

/-! ## Commands to an iteration -/

/-- Advances the iteration that is going on. -/
def advanceCursor : SessionM (Option (Except EvalError Value)) := do
  let (item, cursor) ← performHeap (← get).cursor.advance
  modify fun session => { session with cursor := cursor }
  return item

/-- Advances until the end, at most `limit` times, and shows each item when it comes. -/
def drainCursor : Nat → SessionM (List (Except EvalError Shown))
  | 0 => return []
  | limit + 1 => do
    match ← advanceCursor with
    | none => return []
    | some (.ok value) =>
      let shown ← showNow value
      return .ok shown :: (← drainCursor limit)
    | some (.error e) => return .error e :: (← drainCursor limit)

/-- Runs a command to the iteration that is going on. -/
def runCursorCommand : CursorCommand → SessionM Outcome
  | .next => do
    match ← advanceCursor with
    | none => return .report (.item none)
    | some (.ok value) =>
      return .naming value fun heap => do return .item (some (← heap.show value))
    | some (.error e) => throw (.error (.eval e))
  | .drain limit => do return .report (.items (← drainCursor limit))
  | .restart => do
    modify fun session => { session with cursor := session.cursor.restart }
    return .report .nothing
  | .state => do return .report (.value (← showNow (← get).cursor.state))

/-! ## Commands to the machine -/

/-- Calls a function. Each call from a call passes on fewer arguments than it got, so this depth is
never used up. -/
def callHere (function : Literal) (args : List Literal) : SessionM Value := do
  let function ← evalLiteral function
  let args ← evalLiterals args
  perform (callNative sessionLinkage (args.length + 1) function args)

/-- Runs a command that needs a machine. -/
def runMachineCommand : MachineCommand → SessionM Outcome
  | .call function args => do return .value (← callHere function args)
  | .clock function args => do
    match ← callHere function args with
    | .number x =>
      let uptime := (← get).machine.uptime
      return .report (.monotonic (some (decide (uptime ≤ x))))
    | _ => return .report (.monotonic none)
  | .registerBuiltin name native arity => do
    return .report (.count (← setUp (registerBuiltin name (.host native) arity)))
  | .findBuiltin name => do
    let m := (← get).machine
    match m.findBuiltin? name with
    | some index =>
      match m.builtins[index]? with
      | some builtin =>
        return .naming (.object builtin.function) fun heap => do
          let shown ← heap.show (.object builtin.function)
          return .builtin (some (index, builtin.name, builtin.arity, shown))
      | none => return .report (.builtin none)
    | none => return .report (.builtin none)
  | .builtinAt index => do
    let entry := (← get).machine.builtins[index]?
    return .report (.builtinEntry (entry.map fun b => (b.name, b.arity)))
  | .builtins => do
    let entries := (← get).machine.builtins.toList
    return .report (.builtins (entries.map fun b => (b.name, b.arity)))
  | .createModule name => do return .value (.object (← setUp (createModule name)))
  | .findModule name => do
    match (← get).machine.findModule? name with
    | some h => return .value (.object h)
    | none => return .value .null
  | .addFunction owner name native arity => do
    let owner ← evalObject owner
    return .value (.object (← setUp (declareFunction owner name (.native (.host native)) arity)))
  | .addCodeFunction owner name bytes arity => do
    let owner ← evalObject owner
    return .value (.object (← setUp (declareFunction owner name (.code bytes) arity)))
  | .addGlobal owner value name => do
    let owner ← evalLiteral owner
    let value ← evalLiteral value
    setUp (declareGlobal (← requireHandle owner) name value)
    return .report .nothing
  | .stringList items => do return .value (← performHeap (newStringList items))
  | .installCore => do
    setUp installCore
    return .report .nothing
  | .installBuiltins => do
    setUp installBuiltins
    return .report .nothing
  | .installLang => do
    setUp installLang
    return .report .nothing
  | .write text => do
    modify fun session => { session with machine := session.machine.write text }
    return .report .nothing
  | .hasSink => do return .report (.flag (← get).machine.hasSink)
  | .output => do return .report (.optionalText (← get).machine.buffered?)
  | .clearOutput => do
    modify fun session => { session with machine := session.machine.clearBuffer }
    return .report .nothing

/-! ## Steps -/

/-- What the commands of a list may ask for. -/
inductive Scope where
  /-- A machine. -/
  | machine
  /-- No more than a heap. -/
  | heap
  /-- A heap, and the iteration that is going on. -/
  | cursor
deriving DecidableEq, Repr

/-- Takes away the roots of what the operands allocated since `before` was held. -/
def release (before : List Handle) : Session → Session := fun session =>
  let heap := session.held.foldl Heap.removeRoot session.machine.heap
  { session with machine := { session.machine with heap := heap }, held := before }

/-- Runs one command to a reply, whatever happens, and releases its operands. -/
def enclose (body : SessionM Answer) : SessionM Reply := fun session =>
  match body { session with held := [] } with
  | .ok answer after => .ok (.ok answer) (release session.held after)
  | .error failure after => .ok (.error failure) (release session.held after)

/-- Runs commands with values pinned. -/
def withPins {α : Type} (values : List Value) (body : SessionM α) : SessionM α := do
  let depth := (← currentHeap).pins.length
  modifyHeap (·.pin values)
  let result ← body
  modifyHeap (·.unpin depth)
  return result

/-- Runs commands with an iteration of their own. -/
def withCursor {α : Type} (container : Value) (body : SessionM α) : SessionM α := do
  let outer := (← get).cursor
  modify fun session => { session with cursor := .start container }
  let result ← body
  modify fun session => { session with cursor := outer }
  return result

mutual

/-- Runs a command. Where there is only a heap, a machine command is refused once its operands
have been evaluated. -/
def runCommand (scope : Scope) (binding : Binding) : Command → SessionM Answer
  | .heap command => do settle binding (← runHeapCommand command)
  | .machine command => do
    if scope = .machine then
      settle binding (← runMachineCommand command)
    else
      let _ ← evalLiterals command.operands
      complain .needsMachine
  | .cursor command => do
    if scope = .cursor then settle binding (← runCursorCommand command)
    else complain .needsMachine
  | .pin values body => do
    let values ← evalLiterals values
    return .replies (← withPins values (runBody .heap body))
  | .iter container body => do
    let container ← evalLiteral container
    return .replies (← withPins [container] (withCursor container (runBody .cursor body)))

/-- Runs commands one after the other. -/
def runBody (scope : Scope) : List (Command × Binding) → SessionM (List Reply)
  | [] => return []
  | (command, binding) :: rest => do
    let reply ← enclose (runCommand scope binding command)
    return reply :: (← runBody scope rest)

end

/-! ## Sessions -/

namespace Session

/-- The time that passes before the first command, in seconds. -/
def startupTime : Double := 1.0e-5

/-- The names a session begins with: the fiber, the builtins, and the core module with its
functions. -/
def initialNames (m : Machine) : List (String × Value) :=
  let builtins := m.builtins.toList.map fun b => ("$" ++ b.name, Value.object b.function)
  let lang := match m.findModule? langName with
    | none => []
    | some owner =>
      let functions := langFunctions.filterMap fun (name, _) =>
        match m.heap.getAttribute (.object owner) name with
        | .ok function => some ("$" ++ langName ++ "." ++ name, function)
        | .error _ => none
      ("$" ++ langName, Value.object owner) :: functions
  ("$fiber", .object m.fiber) :: builtins ++ lang

/-- A session on a machine. -/
def onMachine (m : Machine) : Session :=
  { machine := { m with uptime := startupTime }
    names := initialNames m
    held := []
    cursor := .start .null }

/-- A session on a new machine, with the core library or without. -/
def start (settings : Settings) (bare : Bool) : Except (Failure RegistrationError) Session := do
  if bare then return onMachine (Machine.bare settings)
  else return onMachine (← Machine.create settings)

/-- Runs commands, and gives the replies and the session after them. -/
def run (session : Session) (commands : List (Command × Binding)) : List Reply × Session :=
  match runBody .machine commands session with
  | .ok replies after => (replies, after)
  | .error _ after => ([], after)

end Session

end ScriptMachine
