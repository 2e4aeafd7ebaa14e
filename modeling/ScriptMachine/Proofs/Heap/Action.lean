import ScriptMachine.Attribute
import ScriptMachine.Heap.Sequence
import ScriptMachine.Iteration
import ScriptMachine.Operator
import ScriptMachine.Proofs.Heap.Ending
import ScriptMachine.Subscript

/-!
# Everything that can be asked of a heap

One type for what a script can ask, with operands left open so that a script can name variables
where a run has values, and one for what a host can do besides. Every definition about runs of a
heap (which heaps are reachable, what a script observes) is about these.

Main definitions:
- `HeapAction`, `HeapAction.perform`: what a script can ask, and what happens then.
- `Finding`: what comes back.
- `HeapOp`, `HeapOp.perform`: an action, or a thing only a host can do.
- `Reachable`: the heaps that runs lead to.
-/

namespace ScriptMachine

/-! ## Actions -/

/-- What can be asked of a heap, with operands of type `ρ`. -/
inductive HeapAction (ρ : Type) where
  | newString (bytes : List UInt8)
  | newList (elements : List ρ)
  | newMap
  | newRange (start stop : Double)
  | newForeign (typeName : String) (tag : UInt64)
  | newFunction (name : String) (owner : Option ρ) (arity : Arity) (body : Body)
  | newScript (name : String) (functions : List ρ) (globals : List (String × ρ))
  | newFiber (stack : List ρ) (function : Option ρ)
  | listPush (list element : ρ)
  | listPop (list : ρ)
  | mapSet (map key value : ρ)
  | mapGet (map key : ρ)
  | mapGetBytes (map : ρ) (bytes : List UInt8)
  | mapRemove (map key : ρ)
  | binary (operator : Operator) (left right : ρ)
  | getAttribute (receiver : ρ) (name : String)
  | setAttribute (receiver : ρ) (name : String) (value : ρ)
  | getSubscript (receiver key : ρ)
  | setSubscript (receiver key value : ρ)
  | iterate (container state : ρ)
  | render (value : ρ) (quoted : Bool)
  | typeName (value : ρ)
  | hash (value : ρ)
  | equal (left right : ρ)
  | addRoot (value : ρ)
  | removeRoot (value : ρ)
  /-- Opens a scope in which the objects among the values stay alive. -/
  | pin (values : List ρ)
  /-- Closes the scopes opened since there were `depth` pins. -/
  | release (depth : Nat)
  | collect

/-- What an action brings back. -/
inductive Finding where
  | nothing
  /-- A primitive stood where only an object can be asked. -/
  | refused
  | value (v : Value)
  | option (v : Option Value)
  | step (s : IterationStep)
  | flag (b : Bool)
  | hash (h : Option UInt32)
  | text (text : String)

/-- The values in a finding, which a script can keep. -/
def Finding.values : Finding → List Value
  | value v => [v]
  | option v => v.toList
  | step (.next state v) => [state, v]
  | nothing | refused | step .done | flag _ | hash _ | text _ => []

namespace HeapAction

/-- The operands of an action. -/
def operands {ρ : Type} : HeapAction ρ → List ρ
  | newString _ | newMap | newRange _ _ | newForeign _ _ | release _ | collect => []
  | newList values | pin values => values
  | newFunction _ owner _ _ => owner.toList
  | newScript _ functions globals => functions ++ globals.map (·.2)
  | newFiber stack function => stack ++ function.toList
  | listPop v | mapGetBytes v _ | getAttribute v _ | render v _ | typeName v | hash v | addRoot v
  | removeRoot v => [v]
  | listPush v w | mapGet v w | mapRemove v w | binary _ v w | setAttribute v _ w
  | getSubscript v w | iterate v w | equal v w => [v, w]
  | mapSet v w x | setSubscript v w x => [v, w, x]

/-- The same action with other operands. -/
def map {ρ σ : Type} (f : ρ → σ) : HeapAction ρ → HeapAction σ
  | newString bytes => newString bytes
  | newList elements => newList (elements.map f)
  | newMap => newMap
  | newRange start stop => newRange start stop
  | newForeign kind tag => newForeign kind tag
  | newFunction name owner arity body => newFunction name (owner.map f) arity body
  | newScript name functions globals =>
    newScript name (functions.map f) (globals.map fun (global, x) => (global, f x))
  | newFiber stack function => newFiber (stack.map f) (function.map f)
  | listPush list element => listPush (f list) (f element)
  | listPop list => listPop (f list)
  | mapSet map key value => mapSet (f map) (f key) (f value)
  | mapGet map key => mapGet (f map) (f key)
  | mapGetBytes map bytes => mapGetBytes (f map) bytes
  | mapRemove map key => mapRemove (f map) (f key)
  | binary operator left right => binary operator (f left) (f right)
  | getAttribute receiver name => getAttribute (f receiver) name
  | setAttribute receiver name value => setAttribute (f receiver) name (f value)
  | getSubscript receiver key => getSubscript (f receiver) (f key)
  | setSubscript receiver key value => setSubscript (f receiver) (f key) (f value)
  | iterate container state => iterate (f container) (f state)
  | render value quoted => render (f value) quoted
  | typeName value => typeName (f value)
  | hash value => hash (f value)
  | equal left right => equal (f left) (f right)
  | addRoot value => addRoot (f value)
  | removeRoot value => removeRoot (f value)
  | pin values => pin (values.map f)
  | release depth => release depth
  | collect => collect

/-- The operand that an action may change the object of. -/
def receiver? {ρ : Type} : HeapAction ρ → Option ρ
  | listPush v _ | listPop v | mapSet v _ _ | mapRemove v _ | setAttribute v _ _
  | setSubscript v _ _ => some v
  | _ => none

/-- Whether an action is about roots and pins. -/
def isAnchoring {ρ : Type} : HeapAction ρ → Bool
  | addRoot _ | removeRoot _ | pin _ | release _ => true
  | _ => false

/-- Hands over the handle of an object. A primitive has none. -/
def withHandle (v : Value) (body : Handle → HeapM Finding) : HeapM Finding :=
  match v with
  | .object h => body h
  | .null | .bool _ | .number _ => return .refused

/-- Carries out an action. -/
def perform : HeapAction Value → HeapM Finding
  | newString bytes => do return .value (← ScriptMachine.newString bytes)
  | newList elements => do return .value (← ScriptMachine.newList elements)
  | newMap => do return .value (← ScriptMachine.newMap)
  | newRange start stop => do return .value (← ScriptMachine.newRange start stop)
  | newForeign kind tag => do return .value (← ScriptMachine.newForeign kind tag)
  | newFunction name owner arity body => do
    return .value (← newObject (.function ⟨name, owner.bind Value.handle?, arity, body⟩))
  | newScript name functions globals => do
    let functions := Buffer.ofList (functions.filterMap Value.handle?)
    let globals := Buffer.ofList (globals.map fun (name, value) => ⟨name, value⟩)
    return .value (← newObject (.script ⟨name, functions, globals⟩))
  | newFiber stack function => do
    return .value (← newObject (.fiber ⟨.ofList stack, function.bind Value.handle?⟩))
  | listPush list element => do return .flag (← ScriptMachine.listPush list element)
  | listPop list => do return .option (← ScriptMachine.listPop list)
  | mapSet map key value => withHandle map fun m => do
    ScriptMachine.mapSet m key value
    return .nothing
  | mapGet map key => do
    let heap ← get
    match ← heap.asMap map with
    | some table => return .option (← heap.lookup table key)
    | none => return .refused
  | mapGetBytes map bytes => do
    let heap ← get
    match ← heap.asMap map with
    | some table => return .option (← heap.lookupBytes table bytes)
    | none => return .refused
  | mapRemove map key => withHandle map fun m => do
    return .option (← ScriptMachine.mapRemove m key)
  | binary operator left right => do return .value (← evaluate operator left right)
  | getAttribute receiver name => do
    let value ← (do (← get).getAttribute receiver name : HeapM Value)
    return .value value
  | setAttribute receiver name value => do
    ScriptMachine.setAttribute receiver name value
    return .nothing
  | getSubscript receiver key => do return .value (← ScriptMachine.getSubscript receiver key)
  | setSubscript receiver key value => do
    ScriptMachine.setSubscript receiver key value
    return .nothing
  | iterate container state => do return .step (← ScriptMachine.iterate container state)
  | render value quoted => do return .text (← (← get).render value quoted)
  | typeName value => do return .text (← (← get).typeName value)
  | hash value => do return .hash (← (← get).hashOf value)
  | equal left right => do return .flag (← (← get).equal left right)
  | addRoot value => withHandle value fun h => do
    set ((← get).addRoot h)
    return .nothing
  | removeRoot value => withHandle value fun h => do
    set ((← get).removeRoot h)
    return .nothing
  | pin values => do
    set ((← get).pin values)
    return .nothing
  | release depth => do
    set ((← get).unpin depth)
    return .nothing
  | collect => do
    let _ ← collectNow
    return .nothing

end HeapAction

/-! ## What hosts do besides -/

/-- A thing that can be done to a heap. -/
inductive HeapOp where
  | act (action : HeapAction Value)
  /-- Allocates any object, also one that is not empty at first. -/
  | alloc (object : Object)
  /-- Changes a list, a module or a fiber in place, in any way. -/
  | overwrite (h : Handle) (object : Object)
  | remeasure (h : Handle)

namespace HeapOp

/-- Whether hosts get hold of the inside of objects of the kind. -/
def isOpen : Kind → Bool
  | .list | .script | .fiber => true
  | _ => false

/-- Carries out an operation. A host that asks for the inside of an object of the wrong kind does
not get it. -/
def perform : HeapOp → HeapM Finding
  | act action => action.perform
  | alloc object => do return .value (← newObject object)
  | overwrite h object => do
    let heap ← get
    let old ← heap.get h
    if isOpen object.kind ∧ object.kind = old.kind then
      set (heap.replace h object)
      return .flag true
    else
      return .flag false
  | remeasure h => do
    set ((← get).remeasure h)
    return .nothing

/-- The heap after an operation, however it ends. -/
def after (op : HeapOp) (heap : Heap) : Heap :=
  heapAfter op.perform heap

/-- The handles that an operation is handed. -/
def handles : HeapOp → List Handle
  | act action => action.operands.filterMap Value.handle?
  | alloc object => object.children
  | overwrite h object => h :: object.children
  | remeasure h => [h]

/-- Whether an operation is about roots and pins. -/
def isAnchoring : HeapOp → Bool
  | act action => action.isAnchoring
  | alloc _ | overwrite _ _ | remeasure _ => false

/-- The handle of the object that an operation may change. -/
def target? : HeapOp → Option Handle
  | act action => action.receiver?.bind Value.handle?
  | alloc _ | remeasure _ => none
  | overwrite h _ => some h

end HeapOp

/-! ## Runs -/

/-- The heaps that a run of allowed operations leads to. Operations that fail count too: the run
goes on from the heap they leave. -/
inductive Reachable (allowed : Heap → HeapOp → Prop) (tuning : Tuning) : Heap → Prop
  | start : Reachable allowed tuning (.empty tuning)
  | step {heap : Heap} {op : HeapOp} : Reachable allowed tuning heap → allowed heap op →
      Reachable allowed tuning (op.after heap)

/-- What holds at the start and is kept by every allowed operation holds throughout. -/
theorem Reachable.invariant {allowed : Heap → HeapOp → Prop} {tuning : Tuning}
    {P : Heap → Prop} (hstart : P (.empty tuning))
    (hstep : ∀ heap op, P heap → allowed heap op → P (op.after heap)) {heap : Heap}
    (hr : Reachable allowed tuning heap) : P heap := by
  induction hr with
  | start => exact hstart
  | step _ ha ih => exact hstep _ _ ih ha

end ScriptMachine
