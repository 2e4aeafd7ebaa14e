import ScriptMachine.Proofs.Machine.Installation
import ScriptMachine.Proofs.Machine.Namespace

/-!
# When the core library can be installed

The core library needs names that are free and room for its builtins, and nothing else can stand in
its way. A table of builtins is refused at a line for a reason that was there from the start,
because the lines before it take neither its name nor more room than was counted. The core module is
new, so the names on it are its own, and declarations on it are never refused.

Main definitions:
- `Machine.RefusesBuiltins`, `Machine.RefusesCore`: the reasons against a table of builtins, and
  against the core library.
- `Machine.AdmitsCore`: the machines that have no reason against it.
- `Machine.CoreAdded`: a machine with the core library, compared with the one before.

Results:
1. `registerBuiltin_outcome`, `registerTable_outcome`: a builtin is registered or refused, and so is
   a table of them.
2. `declareTable_succeeds`: declarations under names that are free.
3. `Machine.installCore_outcome`, `Hosted.Managed.core_admission`: the core library is installed, or
   there is a reason against it.
-/

namespace ScriptMachine

/-! ## 1. Reasons -/

namespace Machine

/-- What speaks against a table of builtins: a name that is taken, or too little room. -/
inductive RefusesBuiltins (m : Machine) (lines : List (String × CoreFunction × Arity)) :
    RegistrationError → Prop
  | name {line : String × CoreFunction × Arity} {b : Builtin} : line ∈ lines → b ∈ m.builtins →
      b.name = line.1 → RefusesBuiltins m lines (.duplicateBuiltin line.1)
  | room : m.builtinCapacity < m.builtins.size + lines.length →
      RefusesBuiltins m lines (.builtinTableFull m.builtinCapacity)

/-- What speaks against the core library: one of its builtins, or a module of the name of its
module. -/
inductive RefusesCore (m : Machine) : RegistrationError → Prop
  | builtins {e : RegistrationError} : m.RefusesBuiltins coreBuiltins e → RefusesCore m e
  | lang : langName ∈ m.modules.map (·.1) → RefusesCore m (.duplicateModule langName)

/-- Nothing speaks against the core library. -/
structure AdmitsCore (m : Machine) : Prop where
  names : ∀ line ∈ coreBuiltins, ∀ b ∈ m.builtins, b.name ≠ line.1
  room : m.builtins.size + coreBuiltins.length ≤ m.builtinCapacity
  lang : langName ∉ m.modules.map (·.1)

variable {m after : Machine}

theorem admitsCore_iff : m.AdmitsCore ↔ ∀ e, ¬ m.RefusesCore e := by
  constructor
  · rintro hm e (hbuiltins | hlang)
    · cases hbuiltins with
      | name hline hb hname => exact hm.names _ hline _ hb hname
      | room hroom => exact Nat.not_lt.mpr hm.room hroom
    · exact hm.lang hlang
  · intro h
    refine ⟨fun line hline b hb hname => h _ (.builtins (.name hline hb hname)), ?_,
      fun hlang => h _ (.lang hlang)⟩
    exact Nat.le_of_not_lt fun hroom => h _ (.builtins (.room hroom))

/-- With one more builtin under the name of a line, the other lines have the same against them as
all of them had before. -/
theorem refusesBuiltins_push {lines : List (String × CoreFunction × Arity)}
    {line : String × CoreFunction × Arity} {new : Builtin} (hd : line.1 ∉ lines.map (·.1))
    (hfree : ∀ b ∈ m.builtins, b.name ≠ line.1) (hnew : new.name = line.1)
    (hbuiltins : after.builtins = m.builtins.push new)
    (hcapacity : after.builtinCapacity = m.builtinCapacity) (e : RegistrationError) :
    after.RefusesBuiltins lines e ↔ m.RefusesBuiltins (line :: lines) e := by
  have hcount : after.builtins.size + lines.length = m.builtins.size + (line :: lines).length := by
    rw [hbuiltins, Array.size_push, List.length_cons, Nat.add_assoc, Nat.add_comm 1]
  constructor
  · intro h
    cases h with
    | name hline hb hname =>
      rw [hbuiltins] at hb
      rcases Array.mem_push.mp hb with hb | rfl
      · exact .name (.tail _ hline) hb hname
      · exact absurd (List.mem_map.mpr ⟨_, hline, hname.symm.trans hnew⟩) hd
    | room hroom =>
      rw [hcapacity, hcount] at hroom
      rw [hcapacity]
      exact .room hroom
  · intro h
    cases h with
    | name hline hb hname =>
      cases hline with
      | head => exact absurd hname (hfree _ hb)
      | tail _ hline => exact .name hline (hbuiltins ▸ Array.mem_push_of_mem _ hb) hname
    | room hroom =>
      rw [← hcapacity, ← hcount] at hroom
      rw [← hcapacity]
      exact .room hroom

end Machine

/-! ## 2. Tables -/

/-- Registers the lines of a table as builtins. -/
def registerTable (lines : List (String × CoreFunction × Arity)) : SetupM Unit :=
  lines.forM fun (name, function, arity) => do
    let _ ← registerBuiltin name (.core function) arity

/-- Declares the lines of a table on a module. -/
def declareTable (owner : Handle) (lines : List (String × CoreFunction × Arity)) : SetupM Unit :=
  lines.forM fun (name, function, arity) => do
    let _ ← declareFunction owner name (.native (.core function)) arity

section Tables

variable {m : Machine} {held : List Handle} {lines : List (String × CoreFunction × Arity)}

/-- A builtin is registered, and then the rest of its table has the same against it as the whole
table had before; or it is refused, for a reason against the whole table. -/
theorem registerBuiltin_outcome (hs : m.Sound held) (line : String × CoreFunction × Arity)
    (hd : line.1 ∉ lines.map (·.1)) :
    (∃ i after, registerBuiltin line.1 (.core line.2.1) line.2.2 m = .ok i after ∧
      after.Sound held ∧
      ∀ e, after.RefusesBuiltins lines e ↔ m.RefusesBuiltins (line :: lines) e) ∨
    ∃ e, registerBuiltin line.1 (.core line.2.1) line.2.2 m = .error (.error e) m ∧
      m.RefusesBuiltins (line :: lines) e := by
  have hregistered := hs.registers
    (Machine.registerBuiltin_registers (m := m) line.1 (.core line.2.1) line.2.2)
  have heq := Machine.registerBuiltin_eq (m := m) line.1 (.core line.2.1) line.2.2
  split at heq
  · next hname =>
    obtain ⟨b, hb, hname⟩ := Machine.findBuiltin?_isSome_iff.mp hname
    exact .inr ⟨_, heq, .name (.head _) (Array.mem_toList_iff.mp hb) hname⟩
  · next hname =>
    split at heq
    · next hfull =>
      exact .inr ⟨_, heq, .room (Nat.lt_of_le_of_lt hfull (Nat.lt_add_of_pos_right (by simp)))⟩
    · rw [stateAfter_of_ok heq] at hregistered
      refine .inl ⟨_, _, heq, hregistered, ?_⟩
      refine Machine.refusesBuiltins_push hd (fun b hb hsame => hname ?_) rfl rfl rfl
      exact Machine.findBuiltin?_isSome_iff.mpr ⟨b, Array.mem_toList_iff.mpr hb, hsame⟩

/-- A table of builtins is registered to the end, or refused for a reason that was there from the
start. -/
theorem registerTable_outcome (hs : m.Sound held) (lines : List (String × CoreFunction × Arity))
    (hd : (lines.map (·.1)).Nodup) :
    (∃ after, registerTable lines m = .ok () after ∧ after.Sound held ∧
      ∀ e, ¬ m.RefusesBuiltins lines e) ∨
    ∃ e after, registerTable lines m = .error (.error e) after ∧ m.RefusesBuiltins lines e := by
  induction lines generalizing m with
  | nil =>
    refine .inl ⟨m, rfl, hs, fun e he => ?_⟩
    cases he with
    | name hline => cases hline
    | room hroom => exact Nat.not_lt.mpr hs.room hroom
  | cons line lines ih =>
    obtain ⟨hline, hd⟩ := List.nodup_cons.mp hd
    obtain ⟨i, s, hfirst, hsound, hsame⟩ | ⟨e, hfirst, hreason⟩ :=
      registerBuiltin_outcome hs line hline
    · have hrest : registerTable (line :: lines) m = registerTable lines s :=
        bind_of_ok (a := ()) (bind_of_ok hfirst fun _ => pure ()) _
      rw [hrest]
      simp only [← hsame]
      exact ih hsound hd
    · exact .inr ⟨e, m, bind_of_error (bind_of_error hfirst _) _, hreason⟩

/-- A declaration binds its name. -/
theorem Machine.Carries.declareFunction {module : String} {owner function : Handle}
    {names : Namespace} {name : String} {body : Body} {arity : Arity} {after : Machine}
    (hc : m.Carries held module owner names)
    (h : declareFunction owner name body arity m = .ok function after) :
    after.Carries held module owner (names.bind name (.function function)) := by
  let op : SetupOp := .declareFunction owner name body arity
  have hafter : op.after m = after := stateAfter_of_ok h
  have hbinding : (HostOp.register op).binding? owner m = some (name, .function function) := by
    rw [HostOp.binding?, h]
    exact if_pos rfl
  have hregisters := op.registers hc.sound.tidy
  have htracks := hc.tracks_register op
  rw [hafter] at hregisters htracks
  rw [hbinding] at htracks
  exact ⟨hc.sound.registers hregisters, hregisters.modules_subset hc.registered, htracks⟩

/-- Functions are declared on a module under names that stand for nothing there. -/
theorem declareTable_succeeds {module : String} {owner : Handle} {names : Namespace}
    (hc : m.Carries held module owner names) (lines : List (String × CoreFunction × Arity))
    (hd : (lines.map (·.1)).Nodup) (hfree : ∀ line ∈ lines, names line.1 = none) :
    ∃ after, declareTable owner lines m = .ok () after ∧ after.Sound held := by
  induction lines generalizing m names with
  | nil => exact ⟨m, rfl, hc.sound⟩
  | cons line lines ih =>
    obtain ⟨hline, hd⟩ := List.nodup_cons.mp hd
    have hdeclare := hc.module_resolves.declareFunction line.1 (.native (.core line.2.1)) line.2.2
    rw [Namespace.declarationRefusal?_eq_none_iff.mpr (hfree line (.head _))] at hdeclare
    obtain ⟨function, s, hfirst⟩ := hdeclare
    have hrest : declareTable owner (line :: lines) m = declareTable owner lines s :=
      bind_of_ok (a := ()) (bind_of_ok hfirst fun _ => pure ()) _
    rw [hrest]
    refine ih (hc.declareFunction hfirst) hd fun other hother => ?_
    have hne : other.1 ≠ line.1 := fun heq => hline (List.mem_map.mpr ⟨other, hother, heq⟩)
    rw [Namespace.bind, Function.update_of_ne hne]
    exact hfree other (.tail _ hother)

end Tables

/-! ## 3. The core library -/

namespace Machine

variable {m after : Machine} {held : List Handle}

/-- The core library is installed, or there is a reason against it. -/
theorem installCore_outcome (hs : m.Sound held) :
    (∃ after, installCore m = .ok () after ∧ after.Sound held ∧ ∀ e, ¬ m.RefusesCore e) ∨
    ∃ e after, installCore m = .error (.error e) after ∧ m.RefusesCore e := by
  obtain ⟨s, hbuiltins, hsound, hadmits⟩ | ⟨e, after, hbuiltins, hreason⟩ :=
    registerTable_outcome hs coreBuiltins (by decide)
  · have hlang : installCore m = installLang s := bind_of_ok hbuiltins _
    -- The builtins leave the modules as they are.
    obtain ⟨-, hmodules, -⟩ := registerBuiltins_provides hs.tidy hbuiltins
    have heq := createModule_eq (m := s) langName
    rw [if_congr findModule?_isSome_iff rfl rfl, hmodules] at heq
    split at heq
    · next htaken => exact .inr ⟨_, _, hlang.trans (bind_of_error heq _), .lang htaken⟩
    · next hfree =>
      obtain ⟨after, hdeclared, hafter⟩ :=
        declareTable_succeeds (hsound.carries_createModule heq) langFunctions (by decide)
          fun _ _ => rfl
      refine .inl ⟨after, (hlang.trans (bind_of_ok heq _)).trans hdeclared, hafter, ?_⟩
      rintro e (hrefuses | htaken)
      · exact hadmits e hrefuses
      · exact hfree htaken
  · exact .inr ⟨e, after, bind_of_error hbuiltins _, .builtins hreason⟩

/-- The builtin `b` is the one that a line of a table stands for. -/
structure Offers (m : Machine) (line : String × CoreFunction × Arity) (b : Builtin) : Prop where
  name : b.name = line.1
  arity : b.arity = line.2.2
  function : m.heap.get? b.function = some (.function (coreCallable none line))

/-- A function has the name and the arity of its builtin. -/
theorem Intact.offers (hi : m.Intact m.heap) {lines : List (String × CoreFunction × Arity)}
    {added : List Builtin} (hadded : ∀ b ∈ added, b ∈ m.builtins)
    (hp : m.heap.Provides none lines (added.map (·.function))) :
    List.Forall₂ m.Offers lines added := by
  induction added generalizing lines with
  | nil =>
    cases hp
    exact .nil
  | cons b added ih =>
    obtain _ | ⟨hf, hp⟩ := hp
    obtain ⟨entry, hf'⟩ := hi.builtin b (hadded b (.head _))
    have hsame := hf.symm.trans hf'
    simp only [coreCallable, Option.some.injEq, Object.function.injEq, Callable.mk.injEq] at hsame
    obtain ⟨hname, -, harity, -⟩ := hsame
    exact .cons ⟨hname.symm, harity.symm, hf⟩ (ih (fun c hc => hadded c (.tail _ hc)) hp)

/-- The machine `after` is `m` with the core library, and has all that was registered before. -/
structure CoreAdded (m after : Machine) : Prop where
  /-- The builtins of the core library come after those that there were. -/
  builtins : ∃ added, after.builtins.toList = m.builtins.toList ++ added ∧
    List.Forall₂ after.Offers coreBuiltins added
  /-- The core module has its functions and nothing else. -/
  lang : ∃ owner script, after.modules = (langName, owner) :: m.modules ∧
    after.heap.get? owner = some (.script script) ∧
    script = { Script.ofName langName with functions := script.functions } ∧
    after.heap.Provides (some owner) langFunctions script.functions.toList
  keptBuiltins : ∀ b ∈ m.builtins, ∃ entry,
    after.heap.get? b.function = some (.function ⟨b.name, none, b.arity, .native entry⟩)
  /-- A module is there, and so are the functions on it. -/
  keptModules : ∀ name owner, (name, owner) ∈ m.modules → ∃ script script',
    m.heap.get? owner = some (.script script) ∧ after.heap.get? owner = some (.script script') ∧
    ∀ h ∈ script.functions.toList, after.heap.isLive h = true ∧
      after.heap.get? h = m.heap.get? h

theorem Sound.coreAdded (hs : m.Sound held) (h : installCore m = .ok () after)
    (hafter : after.Sound held) : m.CoreAdded after := by
  have hcore := coreInstalled_of_ok hs.tidy h
  obtain ⟨hbuiltins, hmodules, -⟩ := hs.intact.reaches hs.registered_subset
  refine ⟨?_, hcore.lang, fun b hb => ?_, fun name owner ho => ?_⟩
  · obtain ⟨added, hadded, hp⟩ := hcore.builtins
    refine ⟨added, hadded, hafter.intact.offers (fun b hb => ?_) hp⟩
    rw [← Array.mem_toList_iff, hadded]
    exact List.mem_append_right _ hb
  · obtain ⟨entry, hf⟩ := hs.intact.builtin b hb
    exact ⟨entry, hcore.grows.function (hbuiltins b hb) hf⟩
  · obtain ⟨script, hscript, -, hproper⟩ := hs.intact.module name owner ho
    obtain ⟨o, ho', hkind, -⟩ := hcore.grows.kept owner _ (hmodules name owner ho) hscript
    cases o <;> cases hkind
    refine ⟨script, _, hscript, ho', fun k hk => ?_⟩
    obtain ⟨f, hf, -⟩ := hproper.functions k hk
    have hreached := hs.intact.reaches_function hs.registered_subset ho hscript hk
      (Heap.isLive_iff.mpr ⟨_, hf⟩)
    have hkept := hcore.grows.function hreached hf
    exact ⟨Heap.isLive_iff.mpr ⟨_, hkept⟩, hkept.trans hf.symm⟩

end Machine

/-- On every machine that a host comes to, the core library can be installed if its names are free
and there is room for its builtins, and not otherwise. Then it is all there, and so is all that was
registered before. Whatever stops an installation is one of these reasons. -/
theorem Hosted.Managed.core_admission {host : String → Option (NativeM Unit)}
    {settings : Settings} {s : Hosted} (h : Managed host settings s) :
    ((∃ after, installCore s.machine = .ok () after) ↔ s.machine.AdmitsCore) ∧
    (∀ after, installCore s.machine = .ok () after → s.machine.CoreAdded after) ∧
    ∀ failure after, installCore s.machine = .error failure after →
      ∃ e, failure = .error e ∧ s.machine.RefusesCore e := by
  rw [Machine.admitsCore_iff]
  obtain ⟨after, hok, hsound, hadmits⟩ | ⟨e, after, herror, hreason⟩ :=
    Machine.installCore_outcome h.sound
  · rw [hok]
    refine ⟨iff_of_true ⟨after, rfl⟩ hadmits, ?_, nofun⟩
    rintro _ ⟨⟩
    exact h.sound.coreAdded hok hsound
  · rw [herror]
    refine ⟨iff_of_false nofun fun hadmits => hadmits e hreason, nofun, ?_⟩
    rintro _ _ ⟨⟩
    exact ⟨e, rfl, hreason⟩

/-- A host has a builtin and a module of its own, and just enough room. The heap has no room for
another object, so the installation begins with a collection. -/
theorem Hosted.Managed.core_admission_of_host :
    let settings : Settings := ⟨none, ⟨300, 0, 0, false⟩, 18⟩
    let host : String → Option (NativeM Unit) := fun _ => none
    let s : Hosted := (HostOp.register (.createModule "geometry")).after host
      ((HostOp.register (.registerBuiltin "area" (.host "area") (.fixed 2))).after host
        (.fresh settings))
    Managed host settings s ∧ s.machine.heap.needsCollection 80 = true ∧
      ∃ after, installCore s.machine = .ok () after ∧ s.machine.CoreAdded after := by
  intro settings host s
  have hs : Managed host settings s := .step _ (.step _ .fresh trivial) trivial
  obtain ⟨hiff, hadded, -⟩ := hs.core_admission
  have hadmits : s.machine.AdmitsCore := ⟨by decide +kernel, by decide +kernel, by decide +kernel⟩
  obtain ⟨after, hok⟩ := hiff.mpr hadmits
  exact ⟨hs, by decide +kernel, after, hok, hadded after hok⟩

end ScriptMachine
