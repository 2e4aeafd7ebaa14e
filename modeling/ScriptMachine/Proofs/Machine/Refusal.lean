import ScriptMachine.Proofs.Machine.Accounting
import ScriptMachine.Proofs.Machine.Namespace

/-!
# Registrations that are refused

A host may ask for anything: names that are taken, handles that are stale or lead to something
else, modules that nobody keeps. Whether a registration is refused, and why, can be told from the
machine before it. A refused one does nothing at all. In particular a declaration is never broken
off after the allocation of its function: the module that it was checked for is still there.

Main definitions:
- `SetupOp.refusal?`: why a registration is refused, if it is.
- `SetupOp.RefusedFor`: the registration is refused for a reason, or carried out if there is none.
- `Machine.Attached`: a new function stands on its module.

Results:
1. `Heap.scriptWithout_cases`: the check of a name gives the reason, and meets no stale handle.
2. `SetupOp.refusedFor`: every registration is refused for its reason, or carried out.
3. `Machine.declareFunction_attached`: a declaration that passes the check reaches its module.
4. `Machine.registrations_atomic`: both, for all machines that come about.
-/

namespace ScriptMachine

/-! ## 1. Reasons -/

/-- Why a name cannot be declared on what the handle leads to. -/
def Heap.declarationRefusal? (heap : Heap) (owner : Handle) (name : String) :
    Option RegistrationError :=
  match heap.get? owner with
  | some (.script script) => (heap.names script).declarationRefusal? script.name name
  | _ => some .notAModule

namespace SetupOp

/-- Why a registration is refused. -/
def refusal? : SetupOp → Machine → Option RegistrationError
  | registerBuiltin name _ _, m =>
    if ∃ builtin ∈ m.builtins.toList, builtin.name = name then some (.duplicateBuiltin name)
    else if m.builtins.size < m.builtinCapacity then none
    else some (.builtinTableFull m.builtinCapacity)
  | createModule name, m =>
    if name ∈ m.modules.map (·.1) then some (.duplicateModule name) else none
  | declareFunction owner name _ _, m | declareGlobal owner name _, m =>
    m.heap.declarationRefusal? owner name

/-- The registration is refused for the reason and does nothing; without one it is carried out. -/
def RefusedFor (reason : Option RegistrationError) : SetupOp → Machine → Prop
  | registerBuiltin name entry arity =>
    ScriptMachine.RefusedFor reason (ScriptMachine.registerBuiltin name entry arity)
  | createModule name => ScriptMachine.RefusedFor reason (ScriptMachine.createModule name)
  | declareFunction owner name body arity =>
    ScriptMachine.RefusedFor reason (ScriptMachine.declareFunction owner name body arity)
  | declareGlobal owner name value =>
    ScriptMachine.RefusedFor reason (ScriptMachine.declareGlobal owner name value)

end SetupOp

/-! ## 2. The check of a name -/

namespace Heap

variable {heap : Heap} {owner : Handle} {name : String}

theorem scriptWithout_of_other (hs : ∀ script, heap.get? owner ≠ some (.script script)) :
    heap.scriptWithout owner name = .error (.error .notAModule) := by
  unfold scriptWithout
  split
  · next script hscript => exact absurd hscript (hs script)
  · rfl

theorem declarationRefusal?_of_other (hs : ∀ script, heap.get? owner ≠ some (.script script)) :
    heap.declarationRefusal? owner name = some .notAModule := by
  unfold declarationRefusal?
  split
  · next script hscript => exact absurd hscript (hs script)
  · rfl

theorem declarationRefusal?_of_script {script : Script}
    (hs : heap.get? owner = some (.script script)) :
    heap.declarationRefusal? owner name =
      (heap.names script).declarationRefusal? script.name name := by
  rw [declarationRefusal?, hs]

/-- The check comes to an end wherever no handle is dangling: the functions of a module, which it
goes through by name, are there. -/
theorem scriptWithout_cases (hd : heap.NoDangling) (owner : Handle) (name : String) :
    (∃ e, heap.declarationRefusal? owner name = some e ∧
      heap.scriptWithout owner name = .error (.error e)) ∨
    ∃ script, heap.declarationRefusal? owner name = none ∧
      heap.scriptWithout owner name = .ok script := by
  by_cases hs : ∃ script, heap.get? owner = some (.script script)
  · obtain ⟨script, hs⟩ := hs
    have hl : ∀ h ∈ script.functions.toList, heap.isLive h = true :=
      fun h hh => hd owner _ h hs (.function hh)
    rw [declarationRefusal?_of_script hs, scriptWithout_eq hs hl]
    cases (heap.names script).declarationRefusal? script.name name with
    | some e => exact .inl ⟨e, rfl, rfl⟩
    | none => exact .inr ⟨script, rfl, rfl⟩
  · have hs : ∀ script, heap.get? owner ≠ some (.script script) := fun script h => hs ⟨script, h⟩
    exact .inl ⟨_, declarationRefusal?_of_other hs, scriptWithout_of_other hs⟩

/-- Of a module it is never said that it is none. -/
theorem declarationRefusal?_ne_notAModule {script : Script}
    (hs : heap.get? owner = some (.script script)) :
    heap.declarationRefusal? owner name ≠ some .notAModule := by
  intro hreason
  rw [declarationRefusal?_of_script hs, Namespace.declarationRefusal?] at hreason
  split at hreason <;> cases hreason

end Heap

/-! ## 3. Registrations -/

namespace Machine

variable {m : Machine}

theorem findBuiltin?_isSome_iff {name : String} :
    (m.findBuiltin? name).isSome = true ↔ ∃ builtin ∈ m.builtins.toList, builtin.name = name := by
  rw [findBuiltin?, Array.findIdx?_isSome, ← Array.any_toList, List.any_eq_true]
  simp only [beq_iff_eq]

theorem findModule?_isSome_iff {name : String} :
    (m.findModule? name).isSome = true ↔ name ∈ m.modules.map (·.1) := by
  unfold findModule?
  induction m.modules with
  | nil => simp
  | cons entry entries ih =>
    rw [List.lookup]
    split <;> simp_all

end Machine

open Machine in
/-- Registrations are refused for their reasons. -/
theorem SetupOp.refusedFor (op : SetupOp) {m : Machine} (ht : m.heap.Tidy)
    (hd : m.heap.NoDangling) : op.RefusedFor (op.refusal? m) m := by
  cases op with
  | registerBuiltin name entry arity =>
    have heq := registerBuiltin_eq (m := m) name entry arity
    rw [if_congr findBuiltin?_isSome_iff rfl rfl] at heq
    split at heq
    · next hname => exact .of_error (if_pos hname) heq
    · next hname =>
      split at heq
      · next hfull =>
        exact .of_error ((if_neg hname).trans (if_neg (Nat.not_lt.mpr hfull))) heq
      · next hroom =>
        exact .of_ok ((if_neg hname).trans (if_pos (Nat.lt_of_not_le hroom))) heq
  | createModule name =>
    have heq := createModule_eq (m := m) name
    rw [if_congr findModule?_isSome_iff rfl rfl] at heq
    split at heq
    · next hname => exact .of_error (if_pos hname) heq
    · next hname => exact .of_ok (if_neg hname) heq
  | declareFunction owner name body arity =>
    obtain ⟨e, hreason, hfree⟩ | ⟨script, hreason, hfree⟩ :=
      Heap.scriptWithout_cases hd owner name
    · exact .of_error hreason (declareFunction_of_refused hfree body arity)
    · exact .of_ok hreason (declareFunction_of_free ht hfree body arity rfl)
  | declareGlobal owner name value =>
    obtain ⟨e, hreason, hfree⟩ | ⟨script, hreason, hfree⟩ :=
      Heap.scriptWithout_cases hd owner name
    · exact .of_error hreason (declareGlobal_of_refused hfree value)
    · exact .of_ok hreason (declareGlobal_of_free hfree value)

/-! ## 4. Functions and their modules -/

namespace Machine

variable {m : Machine}

/-- The machine `after` is `m` with a new function that stands last on its module, which had been
`script` until then. -/
structure Attached (m : Machine) (owner : Handle) (script : Script) (f : Callable)
    (function : Handle) (after : Machine) : Prop where
  fresh : m.heap.get? function = none
  stored : after.heap.get? function = some (.function f)
  owner : after.heap.get? owner =
    some (.script { script with functions := script.functions.push function })
  rest : after = { m with heap := after.heap }

theorem declareFunction_attached (ht : m.heap.Tidy) {owner : Handle} {name : String}
    {script : Script} (hfree : m.heap.scriptWithout owner name = .ok script) (body : Body)
    (arity : Arity) : ∃ function after,
      declareFunction owner name body arity m = .ok function after ∧
      m.Attached owner script ⟨name, some owner, arity, body⟩ function after := by
  have hs := (Heap.scriptWithout_eq_ok hfree).1
  have hkept := get?_alloc_function ht hs name body arity
  have hfresh := Heap.get?_alloc_self ht (.function ⟨name, some owner, arity, body⟩)
  have hnew := Heap.get?_alloc_new ht (.function ⟨name, some owner, arity, body⟩)
  cases ha : m.heap.alloc (.function ⟨name, some owner, arity, body⟩) with
  | mk function heap =>
    rw [ha] at hkept hfresh hnew
    have hne : function ≠ owner := by
      rintro rfl
      cases hfresh.symm.trans hs
    refine ⟨_, _, declareFunction_of_free ht hfree body arity ha, hfresh, ?_, ?_, rfl⟩
    · rw [Heap.get?_remeasure, Heap.get?_replace hkept, if_neg hne]
      exact hnew
    · rw [Heap.get?_remeasure, Heap.get?_replace hkept, if_pos rfl]

/-- In every machine whose heap comes about and has no dangling handle: a registration is refused
for its reason, and leaves the machine as it was, or it is carried out. A declaration of a function
on a module, kept alive or not, is refused before anything is allocated, or that very module gets
the new function. -/
theorem registrations_atomic (hr : m.heap.ComesAbout) (hd : m.heap.NoDangling) :
    (∀ op : SetupOp, op.RefusedFor (op.refusal? m) m) ∧
    ∀ owner script, m.heap.get? owner = some (.script script) → ∀ name body arity,
      (∃ e, e ≠ .notAModule ∧ declareFunction owner name body arity m = .error (.error e) m) ∨
      ∃ function after, declareFunction owner name body arity m = .ok function after ∧
        m.Attached owner script ⟨name, some owner, arity, body⟩ function after := by
  have ht : m.heap.Tidy := hr.balanced.1
  refine ⟨fun op => op.refusedFor ht hd, fun owner script hs name body arity => ?_⟩
  obtain ⟨e, hreason, hfree⟩ | ⟨found, -, hfree⟩ := Heap.scriptWithout_cases hd owner name
  · refine .inl ⟨e, ?_, declareFunction_of_refused hfree body arity⟩
    rintro rfl
    exact Heap.declarationRefusal?_ne_notAModule hs hreason
  · cases hs.symm.trans (Heap.scriptWithout_eq_ok hfree).1
    exact .inr (declareFunction_attached ht hfree body arity)

theorem bare_comesAbout (settings : Settings) : (bare settings).heap.ComesAbout :=
  let fiber := ((Heap.empty settings.tuning).alloc (.fiber ⟨.empty, none⟩)).1
  .operation (.act (.addRoot (.object fiber))) (.operation (.alloc _) (.start settings.tuning))

theorem bare_fiber (settings : Settings) :
    (bare settings).heap.get? (bare settings).fiber = some (.fiber ⟨.empty, none⟩) :=
  Heap.get?_alloc_new (Heap.empty_tidy settings.tuning) (.fiber ⟨.empty, none⟩)

theorem bare_anchors (settings : Settings) :
    (bare settings).heap.anchors = [(bare settings).fiber] := by
  show ((Heap.empty settings.tuning).alloc _).2.roots ++
    [((Heap.empty settings.tuning).alloc _).1] ++
    ((Heap.empty settings.tuning).alloc _).2.pins = _
  rw [Heap.alloc_roots, Heap.alloc_pins]
  rfl

theorem bare_closed (settings : Settings) : (bare settings).heap.Closed := by
  have hfiber : ((Heap.empty settings.tuning).alloc (.fiber ⟨.empty, none⟩)).2.Closed :=
    Heap.alloc_closed (Heap.empty_tidy _) (Heap.empty_closed _) nofun nofun
  exact hfiber.of_get? fun _ => rfl

/-- A module that no root leads to, in a heap that is collected at every allocation: it gets its
function all the same. What is declared on the fiber is refused. -/
theorem registrations_atomic_of_loose_module :
    let bare := Machine.bare ⟨none, .stressed, 0⟩
    let allocated := bare.heap.alloc (.script (.ofName "loose"))
    let m := { bare with heap := allocated.2 }
    m.heap.ComesAbout ∧ m.heap.NoDangling ∧ m.heap.anchors = [m.fiber] ∧
      m.heap.get? allocated.1 = some (.script (.ofName "loose")) ∧
      declareGlobal m.fiber "area" .null m = .error (.error .notAModule) m ∧
      ∃ function after,
        declareFunction allocated.1 "area" (.code [1]) (.fixed 2) m = .ok function after ∧
        m.Attached allocated.1 (.ofName "loose")
          ⟨"area", some allocated.1, .fixed 2, .code [1]⟩ function after := by
  intro bare allocated m
  have hbare : bare.heap.ComesAbout := bare_comesAbout _
  have ht : bare.heap.Tidy := hbare.balanced.1
  have hr : m.heap.ComesAbout := .operation (.alloc (.script (.ofName "loose"))) hbare
  have hclosed : m.heap.Closed :=
    Heap.alloc_closed ht (bare_closed _) (fun _ hk => by cases hk) fun _ hmap => by cases hmap
  have hd : m.heap.NoDangling := hclosed.noDangling
  have hs : m.heap.get? allocated.1 = some (.script (.ofName "loose")) := Heap.get?_alloc_new ht _
  have hfiber : m.heap.get? m.fiber = some (.fiber ⟨.empty, none⟩) :=
    Heap.get?_alloc_of_anchored ht _ (bare_anchors _ ▸ .head _) (bare_fiber _)
  obtain ⟨hrefused, hdeclared⟩ := registrations_atomic hr hd
  have hglobal := hrefused (.declareGlobal m.fiber "area" .null)
  have hfunction := hrefused (.declareFunction allocated.1 "area" (.code [1]) (.fixed 2))
  rw [SetupOp.refusal?, Heap.declarationRefusal?, hfiber] at hglobal
  rw [SetupOp.refusal?, Heap.declarationRefusal?_of_script hs] at hfunction
  refine ⟨hr, hd, ?_, hs, hglobal, ?_⟩
  · rw [Heap.anchors, Heap.alloc_roots, Heap.alloc_pins]
    exact bare_anchors _
  · obtain ⟨function, after, hok⟩ := hfunction
    obtain ⟨e, -, herror⟩ | hattached :=
      hdeclared allocated.1 _ hs "area" (.code [1]) (.fixed 2)
    · cases hok.symm.trans herror
    · exact hattached

end Machine

end ScriptMachine
