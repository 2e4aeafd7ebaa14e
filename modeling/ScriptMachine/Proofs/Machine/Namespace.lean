import ScriptMachine.Proofs.Heap.Assignment
import ScriptMachine.Proofs.Heap.Tenure
import ScriptMachine.Proofs.Machine.Life

/-!
# A module is a map of names

What is declared on a module stands in two sequences, and a function has its name in an object of
its own. Reads, writes and the two declarations look names up in different orders and through
different code. Seen from outside there is one map from names to declarations, and all four answer
by it, at every moment of a machine's life.

Main definitions:
- `Declaration`, `Namespace`: the map, with what it says about reads, writes and declarations.
- `HostOp`, `Hosted.Managed`: what a host may do, and the machines that it comes to.
- `ModuleRun`: a module from its creation on, with the map of all that was carried out on it.
- `Machine.Resolves`: a module answers by a map.
- `Heap.names`: the map that the objects of a module make up.

Results:
1. `Heap.getAttribute_eq_read`, `Heap.setAttribute_script`, `Heap.scriptWithout_eq`: what is found
   under a name.
2. `Heap.names_pushFunction`, `Heap.names_pushGlobal`, `Heap.names_setGlobal`: each write binds one
   name.
3. `Machine.Carries.after`: an operation of the host binds what it says, and nothing else.
4. `ModuleRun.resolves`: a module answers by its map throughout.
-/

namespace ScriptMachine

/-! ## 1. Maps of names -/

/-- What a name on a module stands for. -/
inductive Declaration where
  | function (h : Handle)
  | global (value : Value)
deriving DecidableEq

/-- What the names on a module stand for. -/
abbrev Namespace := String → Option Declaration

namespace Namespace

/-- No name is declared. -/
def empty : Namespace :=
  fun _ => none

/-- One name stands for something else. -/
def bind (names : Namespace) (name : String) (declaration : Declaration) : Namespace :=
  Function.update names name (some declaration)

/-- What a read of a name gives. -/
def read (names : Namespace) (name : String) : Except (Failure EvalError) Value :=
  match names name with
  | some (.function h) => .ok (.object h)
  | some (.global value) => .ok value
  | none => .error (.error (.attributeNotFound Kind.script.name name))

/-- Why a name cannot be written. -/
def writeRefusal? (names : Namespace) (name : String) : Option EvalError :=
  match names name with
  | some (.function _) => some (.attributeImmutable name)
  | some (.global _) => none
  | none => some (.attributeNotFound Kind.script.name name)

/-- Why a name cannot be declared on the module called `module`. -/
def declarationRefusal? (names : Namespace) (module name : String) : Option RegistrationError :=
  match names name with
  | some (.function _) => some (.duplicateFunction name module)
  | some (.global _) => some (.duplicateGlobal name module)
  | none => none

theorem declarationRefusal?_eq_none_iff {names : Namespace} {module name : String} :
    names.declarationRefusal? module name = none ↔ names name = none := by
  unfold declarationRefusal?
  split <;> simp_all

end Namespace

/-- Where there is a reason, the operation is refused for it and does nothing; else it is carried
out. -/
def RefusedFor {ε σ α : Type} (reason : Option ε) (body : EStateM (Failure ε) σ α) (s : σ) :
    Prop :=
  match reason with
  | some e => body s = .error (.error e) s
  | none => ∃ a after, body s = .ok a after

section RefusedFor

variable {ε σ α : Type} {reason : Option ε} {body : EStateM (Failure ε) σ α} {s after : σ}

theorem RefusedFor.of_error {e : ε} (hreason : reason = some e)
    (hbody : body s = .error (.error e) s) : RefusedFor reason body s := by
  subst hreason
  exact hbody

theorem RefusedFor.of_ok {a : α} (hreason : reason = none) (hbody : body s = .ok a after) :
    RefusedFor reason body s := by
  subst hreason
  exact ⟨a, after, hbody⟩

end RefusedFor

/-- The module `owner`, called `module`, answers by the map `names`. -/
structure Machine.Resolves (m : Machine) (module : String) (owner : Handle) (names : Namespace) :
    Prop where
  get : ∀ name, m.heap.getAttribute (.object owner) name = names.read name
  set : ∀ name value,
    RefusedFor (names.writeRefusal? name) (onHeap (setAttribute (.object owner) name value)) m
  declareFunction : ∀ name body arity, RefusedFor (names.declarationRefusal? module name)
    (ScriptMachine.declareFunction owner name body arity) m
  declareGlobal : ∀ name value, RefusedFor (names.declarationRefusal? module name)
    (ScriptMachine.declareGlobal owner name value) m
  /-- A function is there, under its name and for this module. -/
  function : ∀ name h, names name = some (.function h) → ∃ f,
    m.heap.get? h = some (.function f) ∧ f.name = name ∧ f.owner = some owner

/-! ## 2. What a host does -/

/-- Whether an operation is about roots. -/
def HeapOp.isRooting : HeapOp → Bool
  | act (.addRoot _) | act (.removeRoot _) => true
  | _ => false

/-- What a host does with a machine. Each operation may be carried out or fail. -/
inductive HostOp where
  | register (op : SetupOp)
  | setAttribute (receiver : Value) (name : String) (value : Value)
  /-- Anything else that is done to a heap. -/
  | heap (op : HeapOp)
  | newStringList (items : List String)
  | call (depth : Nat) (function : Value) (args : List Value)
  | addRoot (h : Handle)
  | removeRoot (h : Handle)

namespace HostOp

/-- What a host may do. It does not reach into functions and modules, it takes away only the roots
that it added, and of the native functions it calls the core ones. -/
def Allowed : HostOp → Hosted → Prop
  | register _, _ | setAttribute _ _ _, _ | newStringList _, _ | addRoot _, _ => True
  | heap op, s => op.isRooting = false ∧ ∀ h o, op.target? = some h →
      s.machine.heap.get? h = some o → ¬ (o.kind = .function ∨ o.kind = .script)
  | call _ function args, s =>
    ∀ name, s.machine.heap.entryPoint function args.length ≠ .ok (.host name)
  | removeRoot h, s => h ∈ s.held

/-- The machine after an operation, however that ends. -/
def after (host : String → Option (NativeM Unit)) : HostOp → Hosted → Hosted
  | register op, ⟨m, held⟩ => ⟨op.after m, held⟩
  | setAttribute receiver name value, ⟨m, held⟩ =>
    ⟨stateAfter (onHeap (ScriptMachine.setAttribute receiver name value)) m, held⟩
  | heap op, ⟨m, held⟩ => ⟨{ m with heap := op.after m.heap }, held⟩
  | newStringList items, ⟨m, held⟩ =>
    ⟨stateAfter (onHeap (ScriptMachine.newStringList items)) m, held⟩
  | call depth function args, ⟨m, held⟩ =>
    ⟨stateAfter (callNative (.withHost host) depth function args) m, held⟩
  | addRoot h, ⟨m, held⟩ => ⟨{ m with heap := m.heap.addRoot h }, h :: held⟩
  | removeRoot h, ⟨m, held⟩ => ⟨{ m with heap := m.heap.removeRoot h }, held.erase h⟩

/-- What an operation puts under a name of the module `owner` if it is carried out. -/
def binding? (owner : Handle) (m : Machine) : HostOp → Option (String × Declaration)
  | register (.declareFunction k name body arity) =>
    match declareFunction k name body arity m with
    | .ok function _ => if k = owner then some (name, .function function) else none
    | .error _ _ => none
  | register (.declareGlobal k name value) =>
    match declareGlobal k name value m with
    | .ok _ _ => if k = owner then some (name, .global value) else none
    | .error _ _ => none
  | setAttribute receiver name value =>
    match onHeap (ScriptMachine.setAttribute receiver name value) m with
    | .ok _ _ => if receiver = .object owner then some (name, .global value) else none
    | .error _ _ => none
  | _ => none

end HostOp

/-- The map after an operation, by what that puts under a name. -/
def Namespace.after (names : Namespace) : Option (String × Declaration) → Namespace
  | some (name, declaration) => names.bind name declaration
  | none => names

/-- The machines that a host comes to. -/
inductive Hosted.Managed (host : String → Option (NativeM Unit)) (settings : Settings) :
    Hosted → Prop
  | fresh : Managed host settings (.fresh settings)
  | step {s : Hosted} (op : HostOp) : Managed host settings s → op.Allowed s →
      Managed host settings (op.after host s)

/-- A host has made the module `owner` and gone on from there. All that was carried out on the
module since then comes to `names`. -/
inductive ModuleRun (host : String → Option (NativeM Unit)) (settings : Settings)
    (module : String) (owner : Handle) : Hosted → Namespace → Prop
  | create {s : Hosted} {after : Machine} : Hosted.Managed host settings s →
      createModule module s.machine = .ok owner after →
      ModuleRun host settings module owner ⟨after, s.held⟩ .empty
  | step {s : Hosted} {names : Namespace} (op : HostOp) :
      ModuleRun host settings module owner s names → op.Allowed s →
      ModuleRun host settings module owner (op.after host s)
        (names.after (op.binding? owner s.machine))

/-! ## 3. What is found under a name -/

namespace Heap

variable {heap : Heap} {owner : Handle} {script : Script}

/-- The map that the objects of a module make up. -/
def names (heap : Heap) (script : Script) : Namespace := fun name =>
  ((script.functions.toList.find? (heap.functionName? · == some name)).map .function).or
    ((script.global? name).map .global)

theorem findM?_eq_ok {α ε : Type} {l : List α} {test : α → Except ε Bool} {p : α → Bool}
    (h : ∀ x ∈ l, test x = .ok (p x)) : l.findM? test = .ok (l.find? p) := by
  induction l with
  | nil => rfl
  | cons x l ih =>
    have ih := ih fun y hy => h y (.tail x hy)
    rw [List.findM?, h x (.head l), List.find?_cons]
    cases hx : p x with
    | true => rfl
    | false => exact ih

/-- What a handle has by name, as the search among functions asks for it. -/
theorem asFunction_any_name {h : Handle} (hl : heap.isLive h = true) (name : String) :
    (do return (← heap.asFunction (.object h)).any (·.name == name) : Except Fault Bool) =
      .ok (heap.functionName? h == some name) := by
  obtain ⟨o, ho⟩ := isLive_iff.mp hl
  rw [asFunction, view_object, get_eq_ok_iff.mpr ho, functionName?, ho]
  cases o with
  | function f => simp [bind, Except.bind, Except.map, pure, Except.pure]
  | _ => rfl

/-- Where all functions are there, the search among them comes to an end. -/
theorem scriptFunction_eq (hl : ∀ h ∈ script.functions.toList, heap.isLive h = true)
    (name : String) :
    heap.scriptFunction script name =
      .ok (script.functions.toList.find? (heap.functionName? · == some name)) :=
  findM?_eq_ok fun h hh => asFunction_any_name (hl h hh) name

theorem Proper.isLive (hp : heap.Proper owner script) :
    ∀ h ∈ script.functions.toList, heap.isLive h = true := by
  intro h hh
  obtain ⟨f, hf, -⟩ := hp.functions h hh
  exact isLive_iff.mpr ⟨_, hf⟩

theorem globalIndex?_eq_none_iff {name : String} :
    script.globalIndex? name = none ↔ script.global? name = none := by
  simp [Script.globalIndex?, Script.global?]

/-- A name is that of a function, or else of a variable, or of nothing. -/
theorem names_cases (hl : ∀ h ∈ script.functions.toList, heap.isLive h = true) (name : String) :
    (∃ h, heap.scriptFunction script name = .ok (some h) ∧
      heap.names script name = some (.function h)) ∨
    heap.scriptFunction script name = .ok none ∧
      ((∃ index value, script.globalIndex? name = some index ∧
        script.global? name = some value ∧ heap.names script name = some (.global value)) ∨
      script.globalIndex? name = none ∧ script.global? name = none ∧
        heap.names script name = none) := by
  rw [scriptFunction_eq hl, names]
  cases script.functions.toList.find? (heap.functionName? · == some name) with
  | some h => exact .inl ⟨h, rfl, rfl⟩
  | none =>
    refine .inr ⟨rfl, ?_⟩
    cases hvalue : script.global? name with
    | none => exact .inr ⟨globalIndex?_eq_none_iff.mpr hvalue, rfl, rfl⟩
    | some value =>
      have hsome : script.globalIndex? name ≠ none := by simp [globalIndex?_eq_none_iff, hvalue]
      obtain ⟨index, hindex⟩ := Option.ne_none_iff_exists'.mp hsome
      exact .inl ⟨index, value, hindex, rfl, rfl⟩

theorem function_of_names (hp : heap.Proper owner script) {name : String} {h : Handle}
    (hn : heap.names script name = some (.function h)) :
    ∃ f, heap.get? h = some (.function f) ∧ f.name = name ∧ f.owner = some owner := by
  have hfind : script.functions.toList.find? (heap.functionName? · == some name) = some h := by
    simpa [names, Option.or_eq_some_iff] using hn
  obtain ⟨f, hf, howner⟩ := hp.functions h (List.mem_of_find?_eq_some hfind)
  have hname := List.find?_some hfind
  rw [functionName?_of_get? hf] at hname
  exact ⟨f, hf, by simpa using hname, howner⟩

theorem getAttribute_eq_read (hs : heap.get? owner = some (.script script))
    (hp : heap.Proper owner script) (name : String) :
    heap.getAttribute (.object owner) name = (heap.names script).read name := by
  rw [getAttribute_script hs, Namespace.read]
  obtain ⟨h, hf, hn⟩ | ⟨hf, ⟨index, value, -, hvalue, hn⟩ | ⟨-, hvalue, hn⟩⟩ :=
    names_cases hp.isLive name
  · simp only [hf, hn]
  · simp only [hf, hvalue, hn]
  · simp only [hf, hvalue, hn]

theorem setAttribute_script (hs : heap.get? owner = some (.script script)) (name : String)
    (value : Value) :
    setAttribute (.object owner) name value heap =
      match heap.scriptFunction script name with
      | .error fault => .error (.fault fault) heap
      | .ok (some _) => .error (.error (.attributeImmutable name)) heap
      | .ok none =>
        match script.globalIndex? name with
        | some index => .ok () (heap.replace owner (.script (script.setGlobal index value)))
        | none => .error (.error (.attributeNotFound Kind.script.name name)) heap := by
  show (liftM (heap.get owner) >>= _ : HeapM Unit) heap = _
  rw [get_eq_ok_iff.mpr hs]
  show (liftM (heap.scriptFunction script name) >>= _ : HeapM Unit) heap = _
  cases heap.scriptFunction script name with
  | error fault => rfl
  | ok function =>
    cases function with
    | some function => rfl
    | none =>
      show (match script.globalIndex? name with
        | some index => _
        | none => _ : HeapM Unit) heap = _
      cases script.globalIndex? name <;> rfl

theorem scriptWithout_eq (hs : heap.get? owner = some (.script script))
    (hl : ∀ h ∈ script.functions.toList, heap.isLive h = true) (name : String) :
    heap.scriptWithout owner name =
      match (heap.names script).declarationRefusal? script.name name with
      | some e => .error (.error e)
      | none => .ok script := by
  have heq : heap.scriptWithout owner name = (liftM (heap.scriptFunction script name) >>= fun f =>
      if f.isSome then .error (.error (.duplicateFunction name script.name))
      else if (script.globalIndex? name).isSome then
        .error (.error (.duplicateGlobal name script.name))
      else .ok script) := by
    rw [scriptWithout, hs]
    rfl
  rw [heq, Namespace.declarationRefusal?]
  obtain ⟨h, hf, hn⟩ | ⟨hf, ⟨index, value, hindex, -, hn⟩ | ⟨hindex, -, hn⟩⟩ :=
    names_cases hl name
  · simp only [liftM_bind_of_ok hf, hn, Option.isSome_some, if_true]
  · simp only [liftM_bind_of_ok hf, hn, hindex, Option.isSome_none, Bool.false_eq_true, if_false,
      Option.isSome_some, if_true]
  · simp only [liftM_bind_of_ok hf, hn, hindex, Option.isSome_none, Bool.false_eq_true, if_false]

/-! ## 4. Names that are bound -/

theorem names_congr {after : Heap}
    (hf : ∀ h ∈ script.functions.toList, after.functionName? h = heap.functionName? h) :
    after.names script = heap.names script := by
  funext name
  have hfind : script.functions.toList.find? (after.functionName? · == some name) =
      script.functions.toList.find? (heap.functionName? · == some name) :=
    List.find?_congr fun h hh => by rw [hf h hh]
  rw [names, names, hfind]

theorem names_ofName (name : String) : heap.names (.ofName name) = .empty :=
  rfl

theorem names_pushFunction {function : Handle} {name : String}
    (hname : heap.functionName? function = some name) (hfree : heap.names script name = none) :
    heap.names { script with functions := script.functions.push function } =
      (heap.names script).bind name (.function function) := by
  funext other
  by_cases hother : other = name
  · subst hother
    simp only [names, Option.or_eq_none_iff, Option.map_eq_none_iff] at hfree
    simp [names, Namespace.bind, List.find?_append, hfree.1, hname]
  · have hmiss : (some name == some other) = false := by simpa using Ne.symm hother
    simp [names, Namespace.bind, List.find?_append, hname, hmiss, hother, Script.global?]

theorem names_pushGlobal {name : String} (hfree : heap.names script name = none) (value : Value) :
    heap.names { script with globals := script.globals.push ⟨name, value⟩ } =
      (heap.names script).bind name (.global value) := by
  funext other
  by_cases hother : other = name
  · subst hother
    simp only [names, Option.or_eq_none_iff, Option.map_eq_none_iff, Script.global?] at hfree
    simp [names, Namespace.bind, List.find?_append, hfree, Script.global?]
  · have hmiss : (name == other) = false := by simpa using Ne.symm hother
    simp [names, Namespace.bind, List.find?_append, hmiss, hother, Script.global?]

theorem names_setGlobal (hp : heap.Proper owner script) {name : String} {index : Nat}
    (hf : heap.scriptFunction script name = .ok none)
    (hindex : script.globalIndex? name = some index) (value : Value) :
    heap.names (script.setGlobal index value) = (heap.names script).bind name (.global value) := by
  rw [scriptFunction_eq hp.isLive] at hf
  rw [setGlobal_eq hindex]
  funext other
  simp only [names, Script.global?, Buffer.toList_set, find?_set hindex]
  by_cases hother : other = name
  · subst hother
    simp [Namespace.bind, Except.ok.inj hf]
  · simp [Namespace.bind, names, hother, Script.global?]

/-- `owner` is a module whose objects make up the map `names`. -/
def Tracks (heap : Heap) (owner : Handle) (names : Namespace) : Prop :=
  ∃ script, heap.get? owner = some (.script script) ∧ heap.names script = names

namespace Tracks

variable {names : Namespace} {after : Heap}

theorem of_get? (ht : heap.Tracks owner names) (hv : ∀ h, after.get? h = heap.get? h) :
    after.Tracks owner names := by
  obtain ⟨script, hs, rfl⟩ := ht
  exact ⟨script, (hv owner).trans hs, names_congr fun h _ => by simp [functionName?, hv]⟩

/-- A module is written. If it is the one that is looked at, a name is bound by that. -/
theorem replace_script (ht : heap.Tracks owner names) {k : Handle} {s s' : Script} {name : String}
    {declaration : Declaration} (hs : heap.get? k = some (.script s))
    (hbind : k = owner → heap.names s' = names.bind name declaration) :
    (heap.replace k (.script s')).Tracks owner
      (names.after (if k = owner then some (name, declaration) else none)) := by
  have hname : ∀ h, (heap.replace k (.script s')).functionName? h = heap.functionName? h := by
    intro h
    by_cases heq : h = k
    · simp [functionName?, get?_replace hs, heq, hs]
    · simp [functionName?, get?_replace hs, heq]
  obtain ⟨script, hget, hn⟩ := ht
  by_cases hk : k = owner
  · rw [if_pos hk]
    refine ⟨s', by rw [get?_replace hs, if_pos hk.symm], ?_⟩
    exact (names_congr fun h _ => hname h).trans (hbind hk)
  · rw [if_neg hk]
    refine ⟨script, by rw [get?_replace hs, if_neg (Ne.symm hk), hget], ?_⟩
    exact (names_congr fun h _ => hname h).trans hn

end Tracks

end Heap

/-! ## 5. The invariant -/

/-- The invariant: the machine is in order, and a module of its registry has these names. -/
structure Machine.Carries (m : Machine) (held : List Handle) (module : String) (owner : Handle)
    (names : Namespace) : Prop where
  sound : m.Sound held
  registered : (module, owner) ∈ m.modules
  tracks : m.heap.Tracks owner names

namespace Machine.Carries

variable {m after : Machine} {held : List Handle} {module : String} {owner : Handle}
  {names : Namespace}

/-- The module with all that holds of it. -/
theorem exists_script (hc : m.Carries held module owner names) : ∃ script,
    m.heap.get? owner = some (.script script) ∧ script.name = module ∧
      m.heap.Proper owner script ∧ m.heap.names script = names := by
  obtain ⟨script, hs, hn⟩ := hc.tracks
  obtain ⟨script', hs', hname, hp⟩ := hc.sound.intact.module module owner hc.registered
  cases hs.symm.trans hs'
  exact ⟨script, hs, hname, hp, hn⟩

theorem of_keeps (hc : m.Carries held module owner names) {heap : Heap} (ht : heap.Tidy)
    (hroots : heap.roots = m.heap.roots) (hk : m.heap.Keeps heap) (written : String) :
    Machine.Carries { m with heap := heap, written := written } held module owner names := by
  obtain ⟨script, hs, -, hp, hn⟩ := hc.exists_script
  have hi := hc.sound.intact
  have hsub := hc.sound.registered_subset
  refine ⟨hc.sound.of_keeps ht hroots hk written, hc.registered, script, ?_, ?_⟩
  · exact hk.script ((hi.reaches hsub).2.1 module owner hc.registered) hs
  · rw [← hn]
    refine Heap.names_congr fun h hh => ?_
    obtain ⟨f, hf, -⟩ := hp.functions h hh
    have hr := hi.reaches_function hsub hc.registered hs hh (Heap.isLive_iff.mpr ⟨_, hf⟩)
    rw [Heap.functionName?_of_get? hf, Heap.functionName?_of_get? (hk.function hr hf)]

theorem quiet (hc : m.Carries held module owner names) (hq : m.QuietMove after) :
    after.Carries held module owner names := by
  obtain ⟨heap, written, rfl, ht, hroots, hk⟩ := hq.undisturbed hc.sound.tidy
  exact hc.of_keeps ht hroots hk written

theorem quietMoves (hc : m.Carries held module owner names)
    (hq : Relation.ReflTransGen QuietMove m after) : after.Carries held module owner names := by
  induction hq with
  | refl => exact hc
  | tail _ hmove ih => exact ih.quiet hmove

theorem names_eq (hc : m.Carries held module owner names) {script : Script}
    (hs : m.heap.get? owner = some (.script script)) : m.heap.names script = names := by
  obtain ⟨script', hs', hn⟩ := hc.tracks
  cases hs.symm.trans hs'
  exact hn

/-- A name passes the check of a declaration, or it is refused for the reason that the map gives. -/
theorem scriptWithout_cases (hc : m.Carries held module owner names) (name : String) :
    (∃ e, names.declarationRefusal? module name = some e ∧
      m.heap.scriptWithout owner name = .error (.error e)) ∨
    ∃ script, names.declarationRefusal? module name = none ∧
      m.heap.scriptWithout owner name = .ok script := by
  obtain ⟨script, hs, rfl, hp, rfl⟩ := hc.exists_script
  rw [Heap.scriptWithout_eq hs hp.isLive]
  cases (m.heap.names script).declarationRefusal? script.name name with
  | some e => exact .inl ⟨e, rfl, rfl⟩
  | none => exact .inr ⟨script, rfl, rfl⟩

/-- A name that passes the check of a declaration stands for nothing yet. -/
theorem names_of_free (hc : m.Carries held module owner names) {name : String} {script : Script}
    (hfree : m.heap.scriptWithout owner name = .ok script) : names name = none := by
  obtain ⟨e, -, hrefused⟩ | ⟨-, hreason, -⟩ := hc.scriptWithout_cases name
  · cases hfree.symm.trans hrefused
  · exact Namespace.declarationRefusal?_eq_none_iff.mp hreason

theorem tracks_declareFunction (hc : m.Carries held module owner names) (k : Handle) (name : String)
    (body : Body) (arity : Arity) :
    (stateAfter (declareFunction k name body arity) m).heap.Tracks owner
      (names.after ((HostOp.register (.declareFunction k name body arity)).binding? owner m)) := by
  cases hfree : m.heap.scriptWithout k name with
  | error e =>
    have heq := declareFunction_of_refused hfree body arity
    rw [stateAfter_of_error heq, HostOp.binding?, heq]
    exact hc.tracks
  | ok script =>
    obtain ⟨hs, -⟩ := Heap.scriptWithout_eq_ok hfree
    cases ha : m.heap.alloc (.function ⟨name, some k, arity, body⟩) with
    | mk function heap =>
      have heq := declareFunction_of_free hc.sound.tidy hfree body arity ha
      rw [stateAfter_of_ok heq, HostOp.binding?, heq]
      have hmove : m.heap.QuietMove (m.heap.alloc (.function ⟨name, some k, arity, body⟩)).2 :=
        .alloc _
      have hnew := Heap.get?_alloc_new hc.sound.tidy (.function ⟨name, some k, arity, body⟩)
      have hkept := get?_alloc_function hc.sound.tidy hs name body arity
      rw [ha] at hmove hnew hkept
      -- The allocation is quiet, so the map is the same when the module takes the function up.
      have hquiet := hc.quiet (.heap hmove)
      refine (hquiet.tracks.replace_script hkept fun hk => ?_).of_get? (Heap.get?_remeasure _ k)
      subst hk
      have hn := hquiet.names_eq hkept
      rw [Heap.names_pushFunction (Heap.functionName?_of_get? hnew), hn]
      exact hn ▸ hc.names_of_free hfree

theorem tracks_declareGlobal (hc : m.Carries held module owner names) (k : Handle) (name : String)
    (value : Value) :
    (stateAfter (declareGlobal k name value) m).heap.Tracks owner
      (names.after ((HostOp.register (.declareGlobal k name value)).binding? owner m)) := by
  cases hfree : m.heap.scriptWithout k name with
  | error e =>
    have heq := declareGlobal_of_refused hfree value
    rw [stateAfter_of_error heq, HostOp.binding?, heq]
    exact hc.tracks
  | ok script =>
    obtain ⟨hs, -⟩ := Heap.scriptWithout_eq_ok hfree
    have heq := declareGlobal_of_free hfree value
    rw [stateAfter_of_ok heq, HostOp.binding?, heq]
    refine (hc.tracks.replace_script hs fun hk => ?_).of_get? (Heap.get?_remeasure _ k)
    subst hk
    have hn := hc.names_eq hs
    rw [Heap.names_pushGlobal (hn ▸ hc.names_of_free hfree), hn]

/-- A write to the module is refused for the reason that the map gives, or it binds the name. -/
theorem setAttribute_cases (hc : m.Carries held module owner names) (name : String)
    (value : Value) :
    (∃ e, names.writeRefusal? name = some e ∧
      setAttribute (.object owner) name value m.heap = .error (.error e) m.heap) ∨
    ∃ heap, names.writeRefusal? name = none ∧
      setAttribute (.object owner) name value m.heap = .ok () heap ∧
      heap.Tracks owner (names.bind name (.global value)) := by
  obtain ⟨script, hs, -, hp, rfl⟩ := hc.exists_script
  have heq := Heap.setAttribute_script hs name value
  obtain ⟨h, hf, hn⟩ | ⟨hf, ⟨index, old, hindex, -, hn⟩ | ⟨hindex, -, hn⟩⟩ :=
    Heap.names_cases hp.isLive name
  · simp only [hf] at heq
    exact .inl ⟨_, by rw [Namespace.writeRefusal?, hn], heq⟩
  · simp only [hf, hindex] at heq
    have htracks := hc.tracks.replace_script hs fun _ => Heap.names_setGlobal hp hf hindex value
    rw [if_pos rfl] at htracks
    exact .inr ⟨_, by rw [Namespace.writeRefusal?, hn], heq, htracks⟩
  · simp only [hf, hindex] at heq
    exact .inl ⟨_, by rw [Namespace.writeRefusal?, hn], heq⟩

theorem tracks_setAttribute_self (hc : m.Carries held module owner names) (name : String)
    (value : Value) :
    (stateAfter (onHeap (setAttribute (.object owner) name value)) m).heap.Tracks owner
      (names.after ((HostOp.setAttribute (.object owner) name value).binding? owner m)) := by
  rw [stateAfter_onHeap, HostOp.binding?, onHeap_eq]
  obtain ⟨e, -, heq⟩ | ⟨heap, -, heq, htracks⟩ := hc.setAttribute_cases name value
  · rw [stateAfter_of_error heq, heq]
    exact hc.tracks
  · simp only [stateAfter_of_ok heq, heq, if_true]
    exact htracks

/-- Attributes of other objects are written, those of other modules among them. -/
theorem tracks_setAttribute_other (hc : m.Carries held module owner names) {receiver : Value}
    (hne : receiver ≠ .object owner) (name : String) (value : Value) :
    (stateAfter (onHeap (setAttribute receiver name value)) m).heap.Tracks owner
      (names.after ((HostOp.setAttribute receiver name value).binding? owner m)) := by
  have hnone : (HostOp.setAttribute receiver name value).binding? owner m = none := by
    rw [HostOp.binding?]
    split
    · exact if_neg hne
    · rfl
  rw [stateAfter_onHeap, hnone]
  rcases setAttribute_writes receiver name value m.heap with
    hsame | ⟨k, script, index, rfl, hs, hw⟩
  · rw [hsame]
    exact hc.tracks
  · have hk : k ≠ owner := fun heq => hne (heq ▸ rfl)
    have htracks : (m.heap.replace k (.script (script.setGlobal index value))).Tracks owner
        (names.after (if k = owner then some (name, .global value) else none)) :=
      hc.tracks.replace_script hs fun heq => absurd heq hk
    rw [if_neg hk] at htracks
    rw [hw]
    exact htracks

end Machine.Carries

/-! ## 6. Whole runs -/

/-- An operation that is not about roots leaves them as they are. -/
theorem HeapOp.after_roots (op : HeapOp) (hop : op.isRooting = false) (heap : Heap) :
    (op.after heap).roots = heap.roots := by
  cases hanchor : op.isAnchoring with
  | false => exact (op.after_anchors hanchor heap).1
  | true =>
    cases op with
    | act action =>
      cases action with
      | pin values => rfl
      | release depth => rfl
      | addRoot v | removeRoot v => cases hop
      | _ => cases hanchor
    | _ => cases hanchor

/-- What is reached stays unless it is written. -/
theorem HeapOp.keeps (op : HeapOp) {heap : Heap} (ht : heap.Tidy)
    (hother : ∀ h o, op.target? = some h → heap.get? h = some o →
      ¬ (o.kind = .function ∨ o.kind = .script)) : heap.Keeps (op.after heap) := by
  intro h o hr ho
  have hl := op.isLive_of_reached ht (hr.mono (List.subset_append_left _ _))
  obtain ⟨o', ho', rfl | ⟨htarget, hw⟩⟩ := op.inPlace ht ho hl
  · exact ⟨o', ho', rfl, fun _ => rfl⟩
  · exact ⟨o', ho', hw.kind, fun hkind => absurd hkind (hother h o htarget ho)⟩

section Runs

variable {host : String → Option (NativeM Unit)} {settings : Settings} {s : Hosted}
  {module : String} {owner : Handle} {names : Namespace}

theorem HostOp.sound (op : HostOp) (ha : op.Allowed s) (hs : s.machine.Sound s.held) :
    (op.after host s).machine.Sound (op.after host s).held := by
  obtain ⟨m, held⟩ := s
  have hstep : ∀ t, Hosted.Step host ⟨m, held⟩ t → t.machine.Sound t.held :=
    fun t h => (Hosted.sound_of_effects (h.effects hs.tidy) hs).1
  cases op with
  | heap op =>
    exact hs.of_keeps (op.after_tidy hs.tidy) (op.after_roots ha.1 m.heap)
      (op.keeps hs.tidy ha.2) m.written
  | register op => exact hstep _ (.register op)
  | setAttribute receiver name value => exact hstep _ (.setAttribute receiver name value)
  | newStringList items => exact hstep _ (.newStringList items)
  | call depth function args => exact hstep _ (.call depth function args ha)
  | addRoot h => exact hstep _ (.addRoot h)
  | removeRoot h => exact hstep _ (.removeRoot ha)

theorem Hosted.Managed.sound (h : Managed host settings s) : s.machine.Sound s.held := by
  induction h with
  | fresh => exact .bare settings
  | step op _ ha ih => exact op.sound ha ih

/-- Modules are not taken out of the registry. -/
theorem Machine.Registers.modules_subset {m after : Machine} (hr : m.Registers after) :
    m.modules ⊆ after.modules := by
  cases hr with
  | module _ _ => exact List.subset_cons_self _ _
  | _ => exact List.Subset.refl _

namespace Machine.Carries

variable {m : Machine} {held : List Handle}

/-- A new object has nothing to do with the module. -/
theorem tracks_alloc (hc : m.Carries held module owner names) (o : Object) (h : Handle) :
    ((m.heap.alloc o).2.addRoot h).Tracks owner names :=
  (hc.quiet (.heap (.alloc o))).tracks.of_get? fun _ => rfl

theorem tracks_register (hc : m.Carries held module owner names) (op : SetupOp) :
    (op.after m).heap.Tracks owner (names.after ((HostOp.register op).binding? owner m)) := by
  cases op with
  | registerBuiltin name entry arity =>
    have heq := registerBuiltin_eq (m := m) name entry arity
    rw [SetupOp.after]
    split at heq
    · rw [stateAfter_of_error heq]
      exact hc.tracks
    · split at heq
      · rw [stateAfter_of_error heq]
        exact hc.tracks
      · rw [stateAfter_of_ok heq]
        exact hc.tracks_alloc _ _
  | createModule name =>
    have heq := createModule_eq (m := m) name
    rw [SetupOp.after]
    split at heq
    · rw [stateAfter_of_error heq]
      exact hc.tracks
    · rw [stateAfter_of_ok heq]
      exact hc.tracks_alloc _ _
  | declareFunction k name body arity => exact hc.tracks_declareFunction k name body arity
  | declareGlobal k name value => exact hc.tracks_declareGlobal k name value

/-- An operation of the host binds what it says, and nothing else. -/
theorem after (hc : s.machine.Carries s.held module owner names) (op : HostOp)
    (ha : op.Allowed s) :
    (op.after host s).machine.Carries (op.after host s).held module owner
      (names.after (op.binding? owner s.machine)) := by
  have hsound : (op.after host s).machine.Sound (op.after host s).held := op.sound ha hc.sound
  obtain ⟨m, held⟩ := s
  cases op with
  | register op =>
    have hsub := (op.registers hc.sound.tidy).modules_subset
    exact ⟨hsound, hsub hc.registered, hc.tracks_register op⟩
  | setAttribute receiver name value =>
    have hmodules : (stateAfter (onHeap (setAttribute receiver name value)) m).modules =
        m.modules := by rw [stateAfter_onHeap]
    refine ⟨hsound, hmodules ▸ hc.registered, ?_⟩
    by_cases hrec : receiver = .object owner
    · subst hrec
      exact hc.tracks_setAttribute_self name value
    · exact hc.tracks_setAttribute_other hrec name value
  | heap op =>
    exact hc.of_keeps (op.after_tidy hc.sound.tidy) (op.after_roots ha.1 m.heap)
      (op.keeps hc.sound.tidy ha.2) m.written
  | newStringList items => exact hc.quietMoves ((newStringList_quiet items).onHeap m)
  | call depth function args => exact hc.quietMoves (callNative_quiet ha depth)
  | addRoot h => exact ⟨hsound, hc.registered, hc.tracks.of_get? fun _ => rfl⟩
  | removeRoot h => exact ⟨hsound, hc.registered, hc.tracks.of_get? fun _ => rfl⟩

/-- All four operations answer by the map. -/
theorem module_resolves (hc : m.Carries held module owner names) :
    m.Resolves module owner names where
  get := by
    obtain ⟨script, hs, -, hp, rfl⟩ := hc.exists_script
    exact Heap.getAttribute_eq_read hs hp
  set := by
    intro name value
    obtain ⟨e, hreason, heq⟩ | ⟨heap, hreason, heq, -⟩ := hc.setAttribute_cases name value
    · exact .of_error hreason (by rw [onHeap_eq, heq])
    · exact .of_ok hreason (by rw [onHeap_eq, heq])
  declareFunction := by
    intro name body arity
    obtain ⟨e, hreason, hfree⟩ | ⟨script, hreason, hfree⟩ := hc.scriptWithout_cases name
    · exact .of_error hreason (declareFunction_of_refused hfree body arity)
    · exact .of_ok hreason (declareFunction_of_free hc.sound.tidy hfree body arity rfl)
  declareGlobal := by
    intro name value
    obtain ⟨e, hreason, hfree⟩ | ⟨script, hreason, hfree⟩ := hc.scriptWithout_cases name
    · exact .of_error hreason (declareGlobal_of_refused hfree value)
    · exact .of_ok hreason (declareGlobal_of_free hfree value)
  function := by
    obtain ⟨script, -, -, hp, rfl⟩ := hc.exists_script
    exact fun name h => Heap.function_of_names hp

end Machine.Carries

/-- A module is made with nothing on it. -/
theorem Machine.Sound.carries_createModule {m after : Machine} {held : List Handle}
    (hs : m.Sound held) (h : createModule module m = .ok owner after) :
    after.Carries held module owner .empty := by
  have hsound := hs.registers (createModule_registers module)
  rw [stateAfter_of_ok h] at hsound
  rw [createModule_eq] at h
  split at h
  · cases h
  · cases h
    refine ⟨hsound, .head _, .ofName module, ?_, Heap.names_ofName module⟩
    exact Heap.get?_alloc_new hs.tidy (.script (.ofName module))

theorem ModuleRun.carries (h : ModuleRun host settings module owner s names) :
    s.machine.Carries s.held module owner names := by
  induction h with
  | create hm hcreate => exact hm.sound.carries_createModule hcreate
  | step op _ ha ih => exact ih.after op ha

end Runs

/-- From the moment a module is made on, whatever else a host does, the module is the map of what
was declared on it and last written: names are read, written and declared by it. -/
theorem ModuleRun.resolves {host : String → Option (NativeM Unit)} {settings : Settings}
    {module : String} {owner : Handle} {s : Hosted} {names : Namespace}
    (h : ModuleRun host settings module owner s names) : s.machine.Resolves module owner names :=
  h.carries.module_resolves

/-- Declarations and writes carried out and refused, another module with a name in common, and a
collection at the end. -/
theorem ModuleRun.resolves_of_collection :
    let settings : Settings := ⟨none, .standard, 0⟩
    let host : String → Option (NativeM Unit) := fun _ => none
    let geometry : Handle := ⟨1, 0⟩
    let ops : List HostOp :=
      [ .register (.declareFunction geometry "area" (.code [1, 2]) (.fixed 2)),
        .register (.declareGlobal geometry "area" .null),
        .register (.declareGlobal geometry "unit" .null),
        .setAttribute (.object geometry) "unit" (.bool true),
        .setAttribute (.object geometry) "area" .null,
        .heap (.act (.newString [1, 2])),
        .register (.createModule "physics"),
        .register (.declareGlobal ⟨4, 0⟩ "unit" .null),
        .setAttribute (.object ⟨4, 0⟩) "unit" (.bool false),
        .register (.declareFunction geometry "unit" (.code []) .variadic),
        .heap (.act .collect) ]
    let made : Hosted := ⟨stateAfter (createModule "geometry") (.bare settings), []⟩
    let last : Hosted × Namespace := ops.foldl (fun p op =>
      (op.after host p.1, p.2.after (op.binding? geometry p.1.machine))) (made, .empty)
    ModuleRun host settings "geometry" geometry last.1 last.2 ∧
      last.2 "area" = some (.function ⟨2, 0⟩) ∧ last.2 "unit" = some (.global (.bool true)) ∧
      last.2 "volume" = none ∧ last.1.machine.findModule? "physics" = some ⟨4, 0⟩ ∧
      last.1.machine.Resolves "geometry" geometry last.2 := by
  intro settings host geometry ops made last
  have hallowed : ∀ op ∈ ops, ∀ s, op.Allowed s := by
    simp [ops, HostOp.Allowed, HeapOp.isRooting, HeapOp.target?, HeapAction.receiver?]
  have hrun : ∀ (ops : List HostOp) (p : Hosted × Namespace), (∀ op ∈ ops, ∀ s, op.Allowed s) →
      ModuleRun host settings "geometry" geometry p.1 p.2 →
      let q := ops.foldl (fun p op =>
        (op.after host p.1, p.2.after (op.binding? geometry p.1.machine))) p
      ModuleRun host settings "geometry" geometry q.1 q.2 := by
    intro ops
    induction ops with
    | nil => exact fun p _ hp => hp
    | cons op ops ih =>
      intro p hops hp
      exact ih _ (fun o ho => hops o (.tail op ho)) (hp.step op (hops op (.head ops) p.1))
  have hlast : ModuleRun host settings "geometry" geometry last.1 last.2 :=
    hrun ops (made, .empty) hallowed (.create .fresh rfl)
  exact ⟨hlast, by decide +kernel, by decide +kernel, by decide +kernel, by decide +kernel,
    resolves hlast⟩

end ScriptMachine
