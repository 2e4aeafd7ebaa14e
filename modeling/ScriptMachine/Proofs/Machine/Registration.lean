import ScriptMachine.Proofs.Heap.Survival
import ScriptMachine.Proofs.Machine.Move

/-!
# What a registration does

A registration is refused and changes nothing, or it is carried out whole: between the allocation
of a function and the moment its module holds it, the function itself keeps the module alive, so no
registration stops half way.

Main definitions:
- `Heap.declaredNames`: the names of what is declared on a module.
- `SetupOp`: the registrations, as a type.
- `Machine.Registers`: what a registration can make of a machine.

Results:
1. `scriptWithout_eq_ok`: the check of a name on a module.
2. `SetupOp.registers`: every registration is refused or carried out whole.
-/

namespace ScriptMachine

/-! ## 1. Names on a module -/

namespace Heap

/-- The name of the function behind a handle. -/
def functionName? (heap : Heap) (h : Handle) : Option String :=
  match heap.get? h with
  | some (.function f) => some f.name
  | _ => none

/-- The names of what is declared on a module, functions first. What is no function has none. -/
def declaredNames (heap : Heap) (script : Script) : List (Option String) :=
  script.functions.toList.map heap.functionName? ++
    script.globals.toList.map fun global => some global.name

variable {heap : Heap}

theorem asFunction_of_get? {h : Handle} {f : Callable} (hf : heap.get? h = some (.function f)) :
    heap.asFunction (.object h) = .ok (some f) := by
  rw [asFunction, view_object, get_eq_ok_iff.mpr hf]
  rfl

theorem asScript_of_get? {h : Handle} {s : Script} (hs : heap.get? h = some (.script s)) :
    heap.asScript (.object h) = .ok (some s) := by
  rw [asScript, view_object, get_eq_ok_iff.mpr hs]
  rfl

theorem findM?_eq_none {α ε : Type} {l : List α} {test : α → Except ε Bool}
    (h : l.findM? test = .ok none) : ∀ x ∈ l, test x = .ok false := by
  induction l with
  | nil => simp
  | cons x l ih =>
    rw [List.findM?] at h
    cases ht : test x with
    | error e => simp [ht, bind, Except.bind] at h
    | ok found =>
      cases found with
      | true => simp [ht, bind, Except.bind, pure, Except.pure] at h
      | false =>
        simp only [ht, bind, Except.bind] at h
        intro y hy
        rcases List.mem_cons.mp hy with rfl | hy
        · exact ht
        · exact ih h y hy

/-- A name that the search among the functions misses is the name of none of them. -/
theorem functionName?_of_scriptFunction {script : Script} {name : String}
    (h : heap.scriptFunction script name = .ok none) {k : Handle}
    (hk : k ∈ script.functions.toList) : heap.functionName? k ≠ some name := by
  have htest := findM?_eq_none h k hk
  intro hname
  unfold functionName? at hname
  split at hname
  · next f hf =>
    rw [asFunction_of_get? hf] at htest
    cases hname
    simp [bind, Except.bind, pure, Except.pure] at htest
  · cases hname

theorem read_bind_eq_ok {ε α β : Type} {x : Except Fault α} {f : α → Except (Failure ε) β} {b : β}
    (h : liftM x >>= f = .ok b) : ∃ a, x = .ok a ∧ f a = .ok b := by
  cases x with
  | ok a => exact ⟨a, rfl, h⟩
  | error e => cases h

/-- A name that passes the check is free on the module. -/
theorem scriptWithout_eq_ok {owner : Handle} {name : String} {script : Script}
    (h : heap.scriptWithout owner name = .ok script) :
    heap.get? owner = some (.script script) ∧ some name ∉ heap.declaredNames script := by
  unfold scriptWithout at h
  split at h
  · next s hs =>
    obtain ⟨found, hfound, h⟩ := read_bind_eq_ok h
    cases found with
    | some k => cases h
    | none =>
      simp only [Option.isSome_none, Bool.false_eq_true, if_false] at h
      split at h
      · cases h
      · next hglobal =>
        cases h
        refine ⟨hs, fun hmem => ?_⟩
        rcases List.mem_append.mp hmem with hf | hg
        · obtain ⟨k, hk, hname⟩ := List.mem_map.mp hf
          exact functionName?_of_scriptFunction hfound hk hname
        · obtain ⟨g, hg, hname⟩ := List.mem_map.mp hg
          apply hglobal
          rw [Script.globalIndex?, List.findIdx?_isSome, List.any_eq_true]
          exact ⟨g, hg, by simpa using hname⟩
  · cases h

end Heap

/-! ## 2. Registrations -/

/-- What a host can register. -/
inductive SetupOp where
  | registerBuiltin (name : String) (entry : Symbol) (arity : Arity)
  | createModule (name : String)
  | declareFunction (owner : Handle) (name : String) (body : Body) (arity : Arity)
  | declareGlobal (owner : Handle) (name : String) (value : Value)

/-- The machine after a registration, carried out or refused. -/
def SetupOp.after : SetupOp → Machine → Machine
  | registerBuiltin name entry arity => stateAfter (ScriptMachine.registerBuiltin name entry arity)
  | createModule name => stateAfter (ScriptMachine.createModule name)
  | declareFunction owner name body arity =>
    stateAfter (ScriptMachine.declareFunction owner name body arity)
  | declareGlobal owner name value => stateAfter (ScriptMachine.declareGlobal owner name value)

/-- What a registration can make of a machine. -/
inductive Machine.Registers (m : Machine) : Machine → Prop
  /-- It is refused. -/
  | nothing : Registers m m
  | builtin {name : String} {entry : Symbol} {arity : Arity} {function : Handle} {heap : Heap} :
      m.findBuiltin? name = none → m.builtins.size < m.builtinCapacity →
      m.heap.alloc (.function ⟨name, none, arity, .native entry⟩) = (function, heap) →
      Registers m { m with
        heap := heap.addRoot function, builtins := m.builtins.push ⟨name, arity, function⟩ }
  | module {name : String} {owner : Handle} {heap : Heap} : m.findModule? name = none →
      m.heap.alloc (.script (.ofName name)) = (owner, heap) →
      Registers m { m with heap := heap.addRoot owner, modules := (name, owner) :: m.modules }
  | function {owner function : Handle} {script : Script} {name : String} {body : Body}
      {arity : Arity} {heap : Heap} : m.heap.get? owner = some (.script script) →
      some name ∉ m.heap.declaredNames script →
      m.heap.alloc (.function ⟨name, some owner, arity, body⟩) = (function, heap) →
      heap.get? owner = some (.script script) →
      Registers m { m with heap := (heap.replace owner (.script { script with
        functions := script.functions.push function })).remeasure owner }
  | global {owner : Handle} {script : Script} {name : String} {value : Value} :
      m.heap.get? owner = some (.script script) → some name ∉ m.heap.declaredNames script →
      Registers m { m with heap := (m.heap.replace owner (.script { script with
        globals := script.globals.push ⟨name, value⟩ })).remeasure owner }

namespace Machine

variable {m : Machine}

theorem registerBuiltin_eq (name : String) (entry : Symbol) (arity : Arity) :
    registerBuiltin name entry arity m =
      if (m.findBuiltin? name).isSome then .error (.error (.duplicateBuiltin name)) m
      else if m.builtinCapacity ≤ m.builtins.size then
        .error (.error (.builtinTableFull m.builtinCapacity)) m
      else
        let (function, heap) := m.heap.alloc (.function ⟨name, none, arity, .native entry⟩)
        .ok m.builtins.size { m with
          heap := heap.addRoot function, builtins := m.builtins.push ⟨name, arity, function⟩ } := by
  show (if (m.findBuiltin? name).isSome then _ else
    if m.builtinCapacity ≤ m.builtins.size then _ else _ : SetupM Nat) m = _
  split
  · rfl
  · split <;> rfl

theorem registerBuiltin_registers (name : String) (entry : Symbol) (arity : Arity) :
    m.Registers (stateAfter (registerBuiltin name entry arity) m) := by
  have heq := registerBuiltin_eq (m := m) name entry arity
  split at heq
  · rw [stateAfter_of_error heq]
    exact .nothing
  · next hname =>
    split at heq
    · rw [stateAfter_of_error heq]
      exact .nothing
    · next hroom =>
      rw [stateAfter_of_ok heq]
      exact .builtin (by simpa using hname) (Nat.lt_of_not_le hroom) rfl

theorem createModule_eq (name : String) :
    createModule name m =
      if (m.findModule? name).isSome then .error (.error (.duplicateModule name)) m
      else
        let (owner, heap) := m.heap.alloc (.script (.ofName name))
        .ok owner { m with heap := heap.addRoot owner, modules := (name, owner) :: m.modules } := by
  show (if (m.findModule? name).isSome then _ else _ : SetupM Handle) m = _
  split <;> rfl

theorem createModule_registers (name : String) :
    m.Registers (stateAfter (createModule name) m) := by
  have heq := createModule_eq (m := m) name
  split at heq
  · rw [stateAfter_of_error heq]
    exact .nothing
  · next hname =>
    rw [stateAfter_of_ok heq]
    exact .module (by simpa using hname) rfl

/-- A module that is there is changed. -/
theorem modifyScript_eq {owner : Handle} {script : Script} (change : Script → Script)
    (hs : m.heap.get? owner = some (.script script)) :
    modifyScript owner change m = .ok () { m with
      heap := (m.heap.replace owner (.script (change script))).remeasure owner } := by
  show ((liftM (m.heap.asScript (.object owner)) >>= _ : SetupM Unit) m) = _
  rw [Heap.asScript_of_get? hs]
  rfl

/-- A declaration under a name that is not free does nothing. -/
theorem declareFunction_of_refused {owner : Handle} {name : String} {e : Failure RegistrationError}
    (hfree : m.heap.scriptWithout owner name = .error e) (body : Body) (arity : Arity) :
    declareFunction owner name body arity m = .error e m :=
  bind_read_of_error hfree _ m

theorem declareGlobal_of_refused {owner : Handle} {name : String} {e : Failure RegistrationError}
    (hfree : m.heap.scriptWithout owner name = .error e) (value : Value) :
    declareGlobal owner name value m = .error e m :=
  bind_read_of_error hfree _ m

/-- A new function refers to its module, so the module is there after the allocation too. -/
theorem get?_alloc_function (ht : m.heap.Tidy) {owner : Handle} {script : Script}
    (hs : m.heap.get? owner = some (.script script)) (name : String) (body : Body)
    (arity : Arity) :
    (m.heap.alloc (.function ⟨name, some owner, arity, body⟩)).2.get? owner =
      some (.script script) := by
  refine Heap.get?_alloc_of_reaches ht _ (.start ?_ ?_) hs
  · simp [Object.children]
  · exact Heap.isLive_iff.mpr ⟨_, hs⟩

theorem declareFunction_of_free (ht : m.heap.Tidy) {owner : Handle} {name : String}
    {script : Script} (hfree : m.heap.scriptWithout owner name = .ok script) (body : Body)
    (arity : Arity) {function : Handle} {heap : Heap}
    (ha : m.heap.alloc (.function ⟨name, some owner, arity, body⟩) = (function, heap)) :
    declareFunction owner name body arity m = .ok function { m with
      heap := (heap.replace owner (.script { script with
        functions := script.functions.push function })).remeasure owner } := by
  have hkept := get?_alloc_function ht (Heap.scriptWithout_eq_ok hfree).1 name body arity
  obtain rfl : (m.heap.alloc _).1 = function := by rw [ha]
  obtain rfl : (m.heap.alloc _).2 = heap := by rw [ha]
  refine (bind_read_of_ok hfree _ m).trans ?_
  show EStateM.bind (modifyScript owner _) _ { m with heap := (m.heap.alloc _).2 } = _
  unfold EStateM.bind
  rw [modifyScript_eq _ hkept]
  rfl

theorem declareGlobal_of_free {owner : Handle} {name : String} {script : Script}
    (hfree : m.heap.scriptWithout owner name = .ok script) (value : Value) :
    declareGlobal owner name value m = .ok () { m with
      heap := (m.heap.replace owner (.script { script with
        globals := script.globals.push ⟨name, value⟩ })).remeasure owner } :=
  (bind_read_of_ok hfree _ m).trans (modifyScript_eq _ (Heap.scriptWithout_eq_ok hfree).1)

theorem declareFunction_registers (ht : m.heap.Tidy) (owner : Handle) (name : String)
    (body : Body) (arity : Arity) :
    m.Registers (stateAfter (declareFunction owner name body arity) m) := by
  cases hfree : m.heap.scriptWithout owner name with
  | error e =>
    rw [stateAfter_of_error (declareFunction_of_refused hfree body arity)]
    exact .nothing
  | ok script =>
    obtain ⟨hs, hname⟩ := Heap.scriptWithout_eq_ok hfree
    rw [stateAfter_of_ok (declareFunction_of_free ht hfree body arity rfl)]
    exact .function hs hname rfl (get?_alloc_function ht hs name body arity)

theorem declareGlobal_registers (owner : Handle) (name : String) (value : Value) :
    m.Registers (stateAfter (declareGlobal owner name value) m) := by
  cases hfree : m.heap.scriptWithout owner name with
  | error e =>
    rw [stateAfter_of_error (declareGlobal_of_refused hfree value)]
    exact .nothing
  | ok script =>
    obtain ⟨hs, hname⟩ := Heap.scriptWithout_eq_ok hfree
    rw [stateAfter_of_ok (declareGlobal_of_free hfree value)]
    exact .global hs hname

end Machine

/-- A registration is refused, or carried out whole. -/
theorem SetupOp.registers (op : SetupOp) {m : Machine} (ht : m.heap.Tidy) :
    m.Registers (op.after m) := by
  cases op with
  | registerBuiltin name entry arity => exact Machine.registerBuiltin_registers name entry arity
  | createModule name => exact Machine.createModule_registers name
  | declareFunction owner name body arity =>
    exact Machine.declareFunction_registers ht owner name body arity
  | declareGlobal owner name value => exact Machine.declareGlobal_registers owner name value

end ScriptMachine
