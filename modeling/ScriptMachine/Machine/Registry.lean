import ScriptMachine.Machine.Basic

/-!
# Builtins and modules

Names are given once: a second builtin, module, or declaration on a module of the same name is an
error of the host. What is registered is a root; what is declared on a module lives as long as the
module.

Main definitions:
- `Machine.findBuiltin?`, `Machine.findModule?`.
- `registerBuiltin`, `createModule`.
- `declareFunction`, `declareGlobal`.
-/

namespace ScriptMachine

namespace Machine

/-- The index of the builtin called `name`. -/
def findBuiltin? (m : Machine) (name : String) : Option Nat :=
  m.builtins.findIdx? (·.name == name)

/-- The module called `name`. -/
def findModule? (m : Machine) (name : String) : Option Handle :=
  m.modules.lookup name

/-- Allocates an object that lives until the host removes it. -/
def allocRoot (m : Machine) (object : Object) : Handle × Machine :=
  let (h, m) := m.alloc object
  (h, { m with heap := m.heap.addRoot h })

end Machine

/-- Adds a native function to the builtins and gives its index. A taken name is reported before a
full table. -/
def registerBuiltin (name : String) (entry : Symbol) (arity : Arity) : SetupM Nat := do
  let m ← get
  if (m.findBuiltin? name).isSome then
    throw (.error (.duplicateBuiltin name))
  if m.builtinCapacity ≤ m.builtins.size then
    throw (.error (.builtinTableFull m.builtinCapacity))
  let (function, m) := m.allocRoot (.function ⟨name, none, arity, .native entry⟩)
  set { m with builtins := m.builtins.push ⟨name, arity, function⟩ }
  return m.builtins.size

/-- Adds a module with nothing on it. -/
def createModule (name : String) : SetupM Handle := do
  let m ← get
  if (m.findModule? name).isSome then
    throw (.error (.duplicateModule name))
  let (owner, m) := m.allocRoot (.script (.ofName name))
  set { m with modules := (name, owner) :: m.modules }
  return owner

/-- The module behind a handle, if `name` is still free on it. -/
def Heap.scriptWithout (heap : Heap) (owner : Handle) (name : String) :
    Except (Failure RegistrationError) Script := do
  match heap.get? owner with
  | some (.script script) =>
    if (← heap.scriptFunction script name).isSome then
      throw (.error (.duplicateFunction name script.name))
    else if (script.globalIndex? name).isSome then
      throw (.error (.duplicateGlobal name script.name))
    else
      return script
  | _ => throw (.error .notAModule)

/-- Changes a module in place and measures it anew. -/
def modifyScript (owner : Handle) (change : Script → Script) : SetupM Unit := do
  let m ← get
  match ← m.heap.asScript (.object owner) with
  | some script =>
    set { m with heap := (m.heap.replace owner (.script (change script))).remeasure owner }
  | none => throw (.error .notAModule)

/-- Declares a function on a module. The new function refers to the module, which therefore
outlives the allocation. -/
def declareFunction (owner : Handle) (name : String) (body : Body) (arity : Arity) :
    SetupM Handle := do
  let _ ← (← get).heap.scriptWithout owner name
  let function ← modifyGet fun m => m.alloc (.function ⟨name, some owner, arity, body⟩)
  modifyScript owner fun script => { script with functions := script.functions.push function }
  return function

/-- Declares a variable on a module. -/
def declareGlobal (owner : Handle) (name : String) (value : Value) : SetupM Unit := do
  let _ ← (← get).heap.scriptWithout owner name
  modifyScript owner fun script => { script with globals := script.globals.push ⟨name, value⟩ }

end ScriptMachine
