import ScriptMachine.Machine.Core
import ScriptMachine.Proofs.Machine.Refusal

/-!
# The core library on a machine

The core library is installed by registrations, one after the other, each of which may collect.
What was registered before stays, the lines of the two tables among themselves included: a new
builtin has a root, and a new function of the core module is held by the module, which has one.

Main definitions:
- `Heap.Grows`: what the roots lead to stays, functions as they are, and more may be held.
- `Heap.Provides`: handles lead to the functions that lines of a table stand for.
- `Machine.CoreInstalled`: a machine after the installation, compared with the one before.

Results:
1. `Machine.Registers.grows`: a registration takes nothing away.
2. `registerBuiltins_provides`, `declareFunctions_provides`: a table is registered line by line.
3. `coreInstalled_of_ok`, `Machine.create_provides`: the core library is there, all of it.
-/

namespace ScriptMachine

/-! ## 1. What stays -/

namespace Heap

/-- What the roots lead to is there still, of its kind, and holds what it held; functions are as
they were. -/
structure Grows (heap after : Heap) : Prop where
  roots : heap.roots ⊆ after.roots
  kept : ∀ h o, heap.Reaches heap.roots h → heap.get? h = some o →
    ∃ o', after.get? h = some o' ∧ o'.kind = o.kind ∧ o.children ⊆ o'.children ∧
      (o.kind = .function → o' = o)

variable {heap after last : Heap}

/-- The ways by which something is reached stay if no object on them loses what it holds. -/
theorem Reaches.grow {start start' : List Handle} {h : Handle} (hsub : start ⊆ start')
    (hkept : ∀ k o, heap.Reaches start k → heap.get? k = some o →
      ∃ o', after.get? k = some o' ∧ o.children ⊆ o'.children)
    (hr : heap.Reaches start h) : after.Reaches start' h := by
  have hlive : ∀ {k : Handle}, heap.Reaches start k → after.isLive k = true := by
    intro k hk
    obtain ⟨o, ho⟩ := isLive_iff.mp hk.isLive
    obtain ⟨o', ho', -⟩ := hkept k o hk ho
    exact isLive_iff.mpr ⟨o', ho'⟩
  induction hr with
  | start hmem hl => exact .start (hsub hmem) (hlive (.start hmem hl))
  | @child h k o hr ho hk hl ih =>
    obtain ⟨o', ho', hchildren⟩ := hkept h o hr ho
    exact .child ih ho' (hchildren hk) (hlive (.child hr ho hk hl))

namespace Grows

theorem refl (heap : Heap) : heap.Grows heap :=
  ⟨List.Subset.refl _, fun _ o _ ho => ⟨o, ho, rfl, List.Subset.refl _, fun _ => rfl⟩⟩

theorem reaches (hg : heap.Grows after) {h : Handle} (hr : heap.Reaches heap.roots h) :
    after.Reaches after.roots h := by
  refine hr.grow hg.roots fun k o hk ho => ?_
  obtain ⟨o', ho', -, hchildren, -⟩ := hg.kept k o hk ho
  exact ⟨o', ho', hchildren⟩

theorem trans (hg : heap.Grows after) (hg' : after.Grows last) : heap.Grows last := by
  refine ⟨List.Subset.trans hg.roots hg'.roots, fun h o hr ho => ?_⟩
  obtain ⟨p, hp, hkind, hchildren, hsame⟩ := hg.kept h o hr ho
  obtain ⟨q, hq, hkind', hchildren', hsame'⟩ := hg'.kept h p (hg.reaches hr) hp
  refine ⟨q, hq, hkind'.trans hkind, List.Subset.trans hchildren hchildren', fun hfunction => ?_⟩
  obtain rfl := hsame hfunction
  exact hsame' hfunction

theorem function (hg : heap.Grows after) {h : Handle} {f : Callable}
    (hr : heap.Reaches heap.roots h) (hf : heap.get? h = some (.function f)) :
    after.get? h = some (.function f) := by
  obtain ⟨o, ho, -, -, hsame⟩ := hg.kept h _ hr hf
  rw [ho, hsame rfl]

theorem fiber (hg : heap.Grows after) {h : Handle} {f : Fiber} (hr : heap.Reaches heap.roots h)
    (hf : heap.get? h = some (.fiber f)) : ∃ f', after.get? h = some (.fiber f') := by
  obtain ⟨o, ho, hkind, -⟩ := hg.kept h _ hr hf
  cases o with
  | fiber f' => exact ⟨f', ho⟩
  | _ => cases hkind

/-- The objects stay as they are. -/
theorem of_get? (hroots : heap.roots ⊆ after.roots)
    (hv : ∀ h o, heap.Reaches heap.roots h → heap.get? h = some o → after.get? h = some o) :
    heap.Grows after :=
  ⟨hroots, fun h o hr ho => ⟨o, hv h o hr ho, rfl, List.Subset.refl _, fun _ => rfl⟩⟩

theorem alloc (ht : heap.Tidy) (x : Object) : heap.Grows (heap.alloc x).2 := by
  refine .of_get? ?_ fun h o hr ho => ?_
  · rw [alloc_roots]
    exact List.Subset.refl _
  · exact get?_alloc_of_reaches ht x (hr.mono (List.subset_append_left _ _)) ho

theorem addRoot (heap : Heap) (h : Handle) : heap.Grows (heap.addRoot h) :=
  .of_get? (List.subset_append_left _ _) fun _ _ _ ho => ho

theorem remeasure (heap : Heap) (h : Handle) : heap.Grows (heap.remeasure h) := by
  refine .of_get? ?_ fun k o _ ho => ?_
  · rw [remeasure_roots]
    exact List.Subset.refl _
  · rw [get?_remeasure, ho]

/-- A module is written, and still holds what it held. -/
theorem script {h : Handle} {script script' : Script}
    (hs : heap.get? h = some (.script script))
    (hchildren : (Object.script script).children ⊆ (Object.script script').children) :
    heap.Grows (heap.replace h (.script script')) := by
  refine ⟨?_, fun k o _ ho => ?_⟩
  · rw [replace_roots]
    exact List.Subset.refl _
  · rw [get?_replace hs]
    split
    · next hk =>
      subst hk
      cases hs.symm.trans ho
      exact ⟨_, rfl, rfl, hchildren, nofun⟩
    · exact ⟨o, ho, rfl, List.Subset.refl _, fun _ => rfl⟩

end Grows

theorem children_pushFunction (script : Script) (function : Handle) :
    (Object.script script).children ⊆
      (Object.script { script with functions := script.functions.push function }).children := by
  simp [Object.children]

theorem children_pushGlobal (script : Script) (global : Global) :
    (Object.script script).children ⊆
      (Object.script { script with globals := script.globals.push global }).children := by
  simp [Object.children]

end Heap

/-- A registration takes away nothing that the roots lead to. -/
theorem Machine.Registers.grows {m after : Machine} (hr : m.Registers after) (ht : m.heap.Tidy) :
    m.heap.Grows after.heap := by
  cases hr with
  | nothing => exact .refl _
  | builtin _ _ ha =>
    obtain ⟨rfl, rfl⟩ := Prod.mk.inj ha
    exact (Heap.Grows.alloc ht _).trans (.addRoot _ _)
  | module _ ha =>
    obtain ⟨rfl, rfl⟩ := Prod.mk.inj ha
    exact (Heap.Grows.alloc ht _).trans (.addRoot _ _)
  | function _ _ ha hkept =>
    obtain ⟨rfl, rfl⟩ := Prod.mk.inj ha
    exact ((Heap.Grows.alloc ht _).trans (.script hkept (Heap.children_pushFunction _ _))).trans
      (.remeasure _ _)
  | global hs _ =>
    exact (Heap.Grows.script hs (Heap.children_pushGlobal _ _)).trans (.remeasure _ _)

theorem Machine.Registers.tidy {m after : Machine} (hr : m.Registers after) (ht : m.heap.Tidy) :
    after.heap.Tidy := by
  have hmoves := hr.moves
  generalize after.heap = heap at hmoves
  induction hmoves with
  | refl => exact ht
  | tail _ hmove ih => exact hmove.tidy ih

/-! ## 2. Tables -/

/-- The function that a line of a table stands for. -/
def coreCallable (owner : Option Handle) (line : String × CoreFunction × Arity) : Callable :=
  ⟨line.1, owner, line.2.2, .native (.core line.2.1)⟩

/-- The handles lead to the functions of the lines, one by one. -/
def Heap.Provides (heap : Heap) (owner : Option Handle)
    (lines : List (String × CoreFunction × Arity)) (handles : List Handle) : Prop :=
  List.Forall₂ (fun line h => heap.get? h = some (.function (coreCallable owner line))) lines
    handles

theorem Heap.Provides.of_get? {heap after : Heap} {owner : Option Handle}
    {lines : List (String × CoreFunction × Arity)} {handles : List Handle}
    (hp : heap.Provides owner lines handles)
    (hkept : ∀ h ∈ handles, ∀ f, heap.get? h = some (.function f) →
      after.get? h = some (.function f)) : after.Provides owner lines handles := by
  induction hp with
  | nil => exact .nil
  | cons hline _ ih =>
    exact .cons (hkept _ (.head _) _ hline) (ih fun h hh => hkept h (.tail _ hh))

theorem Heap.Provides.grows {heap after : Heap} {owner : Option Handle}
    {lines : List (String × CoreFunction × Arity)} {handles : List Handle}
    (hp : heap.Provides owner lines handles) (hg : heap.Grows after)
    (hr : ∀ h ∈ handles, heap.Reaches heap.roots h) : after.Provides owner lines handles :=
  hp.of_get? fun h hh _ hf => hg.function (hr h hh) hf

/-- Each of the handles leads to the function of a line. -/
theorem Heap.Provides.exists_line {heap : Heap} {owner : Option Handle}
    {lines : List (String × CoreFunction × Arity)} {handles : List Handle}
    (hp : heap.Provides owner lines handles) {h : Handle} (hh : h ∈ handles) :
    ∃ line ∈ lines, heap.get? h = some (.function (coreCallable owner line)) := by
  induction hp with
  | nil => cases hh
  | @cons line _ _ _ hline _ ih =>
    cases hh with
    | head => exact ⟨line, .head _, hline⟩
    | tail _ hh =>
      obtain ⟨other, hmem, hother⟩ := ih hh
      exact ⟨other, .tail _ hmem, hother⟩

section Tables

variable {m after : Machine} {lines : List (String × CoreFunction × Arity)}

theorem bind_eq_ok {ε σ α β : Type} {body : EStateM ε σ α} {f : α → EStateM ε σ β} {s t : σ}
    {b : β} (h : (body >>= f) s = .ok b t) : ∃ a u, body s = .ok a u ∧ f a u = .ok b t := by
  have hbind : (body >>= f) s = EStateM.bind body f s := rfl
  rw [hbind] at h
  unfold EStateM.bind at h
  cases hbody : body s with
  | ok a u =>
    rw [hbody] at h
    exact ⟨a, u, rfl, h⟩
  | error e u =>
    rw [hbody] at h
    cases h

/-- The machine `after` is `m` after registrations that have left the fiber alone. -/
structure Machine.Extends (m after : Machine) : Prop where
  tidy : after.heap.Tidy
  grows : m.heap.Grows after.heap
  fiber : after.fiber = m.fiber

theorem Machine.Extends.refl (ht : m.heap.Tidy) : m.Extends m :=
  ⟨ht, .refl _, rfl⟩

theorem Machine.Extends.trans {last : Machine} (h : m.Extends after) (h' : after.Extends last) :
    m.Extends last :=
  ⟨h'.tidy, h.grows.trans h'.grows, h'.fiber.trans h.fiber⟩

theorem Machine.Registers.extends (hr : m.Registers after) (ht : m.heap.Tidy) :
    m.Extends after := by
  refine ⟨hr.tidy ht, hr.grows ht, ?_⟩
  cases hr <;> rfl

/-- One more builtin, at the end. -/
theorem registerBuiltin_provides (ht : m.heap.Tidy) {line : String × CoreFunction × Arity} {i : Nat}
    (h : registerBuiltin line.1 (.core line.2.1) line.2.2 m = .ok i after) :
    m.Extends after ∧ after.modules = m.modules ∧
      ∃ function, after.builtins.toList = m.builtins.toList ++ [⟨line.1, line.2.2, function⟩] ∧
        function ∈ after.heap.roots ∧
        after.heap.get? function = some (.function (coreCallable none line)) := by
  have hr := Machine.registerBuiltin_registers (m := m) line.1 (.core line.2.1) line.2.2
  rw [stateAfter_of_ok h] at hr
  refine ⟨hr.extends ht, ?_⟩
  rw [Machine.registerBuiltin_eq] at h
  split at h
  · cases h
  · split at h
    · cases h
    · cases h
      exact ⟨rfl, _, by simp, Heap.mem_addRoot _ _, Heap.get?_alloc_new ht _⟩

/-- A table of builtins is registered line by line, each after the last. -/
theorem registerBuiltins_provides (ht : m.heap.Tidy)
    (h : (lines.forM fun (name, function, arity) => do
      let _ ← registerBuiltin name (.core function) arity : SetupM Unit) m = .ok () after) :
    m.Extends after ∧ after.modules = m.modules ∧
      ∃ added : List Builtin, after.builtins.toList = m.builtins.toList ++ added ∧
        after.heap.Provides none lines (added.map (·.function)) ∧
        ∀ h ∈ added.map (·.function), after.heap.Reaches after.heap.roots h := by
  induction lines generalizing m with
  | nil =>
    cases h
    exact ⟨.refl ht, rfl, [], (List.append_nil _).symm, .nil, nofun⟩
  | cons line lines ih =>
    obtain ⟨⟨⟩, s, hbody, hlines⟩ := bind_eq_ok h
    obtain ⟨i, t, hline, ⟨⟩⟩ := bind_eq_ok hbody
    obtain ⟨hext, hmodules, function, hbuiltins, hroot, hf⟩ := registerBuiltin_provides ht hline
    obtain ⟨hext', hmodules', added, hbuiltins', hp, hreached⟩ := ih hext.tidy hlines
    -- The new builtin has a root, so it is there when all the others have come.
    have hreach : s.heap.Reaches s.heap.roots function :=
      .start hroot (Heap.isLive_iff.mpr ⟨_, hf⟩)
    refine ⟨hext.trans hext', hmodules'.trans hmodules, ⟨line.1, line.2.2, function⟩ :: added, ?_,
      .cons (hext'.grows.function hreach hf) hp,
      List.forall_mem_cons.mpr ⟨hext'.grows.reaches hreach, hreached⟩⟩
    rw [hbuiltins', hbuiltins, List.append_assoc]
    rfl

/-- One more function on the module, at the end. -/
theorem declareFunction_provides (ht : m.heap.Tidy) {owner function : Handle} {script : Script}
    (hs : m.heap.get? owner = some (.script script)) {line : String × CoreFunction × Arity}
    (h : declareFunction owner line.1 (.native (.core line.2.1)) line.2.2 m = .ok function after) :
    m.Extends after ∧ after.builtins = m.builtins ∧ after.modules = m.modules ∧
      after.heap.get? owner =
        some (.script { script with functions := script.functions.push function }) ∧
      after.heap.get? function = some (.function (coreCallable (some owner) line)) := by
  have hr := Machine.declareFunction_registers ht owner line.1 (.native (.core line.2.1)) line.2.2
  rw [stateAfter_of_ok h] at hr
  refine ⟨hr.extends ht, ?_⟩
  cases hfree : m.heap.scriptWithout owner line.1 with
  | error e => cases h.symm.trans (Machine.declareFunction_of_refused hfree _ _)
  | ok found =>
    cases hs.symm.trans (Heap.scriptWithout_eq_ok hfree).1
    obtain ⟨function', after', hok, hattached⟩ :=
      Machine.declareFunction_attached ht hfree (.native (.core line.2.1)) line.2.2
    cases h.symm.trans hok
    rw [hattached.rest]
    exact ⟨rfl, rfl, hattached.owner, hattached.stored⟩

/-- A table of functions is declared line by line on a module that has a root. -/
theorem declareFunctions_provides (ht : m.heap.Tidy) {owner : Handle} {script : Script}
    (hs : m.heap.get? owner = some (.script script)) (hroot : owner ∈ m.heap.roots)
    (h : (lines.forM fun (name, function, arity) => do
      let _ ← declareFunction owner name (.native (.core function)) arity : SetupM Unit) m =
        .ok () after) :
    m.Extends after ∧ after.builtins = m.builtins ∧ after.modules = m.modules ∧
      ∃ script', after.heap.get? owner = some (.script script') ∧
        script' = { script with functions := script'.functions } ∧
        ∃ added, script'.functions.toList = script.functions.toList ++ added ∧
          after.heap.Provides (some owner) lines added := by
  induction lines generalizing m script with
  | nil =>
    cases h
    exact ⟨.refl ht, rfl, rfl, script, hs, rfl, [], (List.append_nil _).symm, .nil⟩
  | cons line lines ih =>
    obtain ⟨⟨⟩, s, hbody, hlines⟩ := bind_eq_ok h
    obtain ⟨function, t, hline, ⟨⟩⟩ := bind_eq_ok hbody
    obtain ⟨hext, hbuiltins, hmodules, howner, hf⟩ := declareFunction_provides ht hs hline
    have hroot' := hext.grows.roots hroot
    obtain ⟨hext', hbuiltins', hmodules', script', hs', hrest, added, hfunctions, hp⟩ :=
      ih hext.tidy howner hroot' hlines
    -- The new function is held by the module, which has a root.
    have hmodule : s.heap.Reaches s.heap.roots owner :=
      .start hroot' (Heap.isLive_iff.mpr ⟨_, howner⟩)
    have hreach : s.heap.Reaches s.heap.roots function :=
      .child hmodule howner (by simp [Object.children]) (Heap.isLive_iff.mpr ⟨_, hf⟩)
    refine ⟨hext.trans hext', hbuiltins'.trans hbuiltins, hmodules'.trans hmodules, script', hs',
      hrest, function :: added, ?_, .cons (hext'.grows.function hreach hf) hp⟩
    rw [hfunctions, Buffer.toList_push, List.append_assoc]
    rfl

end Tables

/-! ## 3. The core library -/

/-- The machine `after` is `m` with the core library: the builtins after those it had, and the core
module with its functions. -/
structure Machine.CoreInstalled (m after : Machine) : Prop extends m.Extends after where
  builtins : ∃ added : List Builtin, after.builtins.toList = m.builtins.toList ++ added ∧
    after.heap.Provides none coreBuiltins (added.map (·.function))
  lang : ∃ owner script, after.modules = (langName, owner) :: m.modules ∧
    after.heap.get? owner = some (.script script) ∧
    script = { Script.ofName langName with functions := script.functions } ∧
    after.heap.Provides (some owner) langFunctions script.functions.toList

theorem createModule_eq_ok {m after : Machine} (ht : m.heap.Tidy) {name : String} {owner : Handle}
    (h : createModule name m = .ok owner after) :
    m.Extends after ∧ after.builtins = m.builtins ∧ after.modules = (name, owner) :: m.modules ∧
      after.heap.get? owner = some (.script (.ofName name)) ∧ owner ∈ after.heap.roots := by
  have hr := Machine.createModule_registers (m := m) name
  rw [stateAfter_of_ok h] at hr
  refine ⟨hr.extends ht, ?_⟩
  rw [Machine.createModule_eq] at h
  split at h
  · cases h
  · cases h
    exact ⟨rfl, rfl, Heap.get?_alloc_new ht _, Heap.mem_addRoot _ _⟩

/-- An installation that comes to an end has installed everything. -/
theorem coreInstalled_of_ok {m after : Machine} (ht : m.heap.Tidy)
    (h : installCore m = .ok () after) : m.CoreInstalled after := by
  obtain ⟨⟨⟩, s, hbuiltins, hlang⟩ := bind_eq_ok h
  obtain ⟨owner, t, hmodule, hfunctions⟩ := bind_eq_ok hlang
  obtain ⟨hs, hmodules, added, hadded, hp, hreached⟩ := registerBuiltins_provides ht hbuiltins
  obtain ⟨ht, hsame, hnew, howner, hroot⟩ := createModule_eq_ok hs.tidy hmodule
  obtain ⟨hafter, hsame', hnew', script, hscript, hrest, functions, hlist, hp'⟩ :=
    declareFunctions_provides ht.tidy howner hroot hfunctions
  refine ⟨(hs.trans ht).trans hafter, ⟨added, ?_, ?_⟩, owner, script, ?_, hscript, hrest, ?_⟩
  · rw [hsame', hsame, hadded]
  · exact hp.grows (ht.grows.trans hafter.grows) hreached
  · rw [hnew', hnew, hmodules]
  · rw [hlist]
    exact hp'

namespace Machine

/-- The functions of the core module. -/
def langHandles (m : Machine) : List Handle :=
  match (m.findModule? langName).bind m.heap.get? with
  | some (.script script) => script.functions.toList
  | _ => []

/-- The core functions of a machine that has been created: its builtins, and the functions of the
core module. -/
def coreHandles (m : Machine) : List Handle :=
  m.builtins.toList.map (·.function) ++ m.langHandles

theorem installCore_of_create {settings : Settings} {m : Machine} (h : create settings = .ok m) :
    installCore (bare settings) = .ok () m := by
  unfold create at h
  split at h
  · next after hok =>
    cases h
    exact hok
  · cases h

/-- A machine that has been created has a fiber, and offers all core functions. -/
theorem create_provides {settings : Settings} {m : Machine} (h : create settings = .ok m) :
    m.heap.Tidy ∧ (∃ f, m.heap.get? m.fiber = some (.fiber f)) ∧ ∃ owner,
      m.heap.Provides none coreBuiltins (m.builtins.toList.map (·.function)) ∧
      m.heap.Provides (some owner) langFunctions m.langHandles := by
  have hcore :=
    coreInstalled_of_ok (bare_comesAbout settings).balanced.1 (installCore_of_create h)
  obtain ⟨added, hbuiltins, hp⟩ := hcore.builtins
  obtain ⟨owner, script, hmodules, hs, -, hp'⟩ := hcore.lang
  have hlang : m.langHandles = script.functions.toList := by
    simp [langHandles, findModule?, hmodules, hs]
  have hfiber := bare_fiber settings
  have hreach : (bare settings).heap.Reaches (bare settings).heap.roots (bare settings).fiber :=
    .start (Heap.mem_addRoot _ _) (Heap.isLive_iff.mpr ⟨_, hfiber⟩)
  refine ⟨hcore.tidy, hcore.fiber ▸ hcore.grows.fiber hreach hfiber, owner, ?_, hlang ▸ hp'⟩
  rw [hbuiltins]
  exact hp

end Machine

end ScriptMachine
