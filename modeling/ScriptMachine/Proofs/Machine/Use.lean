import ScriptMachine.Proofs.Machine.CoreAdmission
import ScriptMachine.Proofs.Machine.Window

/-!
# Machines in use

A machine that was created is used: objects come and go, the host registers what it likes and
writes over what it likes, native code runs. A use goes on for as long as the machine has its fiber
and its core functions. Nothing else is asked of it: every elementary change of the heap that leaves
those is a step of a use. Operations, registrations and calls of native code are made of elementary
changes (`HeapOp.moves`, `Machine.Registers.moves`, `callNative_honest`). What the registry holds
roots of cannot be lost, so every life of a machine in the hands of a host is a use of it.

Main definitions:
- `Machine.Step`, `Machine.Becomes`: what is done to a machine, and what it becomes by it.
- `Machine.InUse`: the invariant.
- `Machine.Declares`: a function is declared on a module of the machine.
- `Machine.CoreKept`: the core functions are where they were registered, after any use.

Results:
1. `InUse.step`, `Becomes.inUse`: the core functions stay what they are.
2. `becomes_iff`: a use is any number of elementary changes that leave the fiber and the core
   functions.
3. `Becomes.operation`: an operation on the heap belongs to the use if it leaves them.
4. `Becomes.of_life`: so does all that may happen in a life of the machine, and it does leave them.
-/

namespace ScriptMachine

namespace Machine

/-! ## 1. Uses -/

/-- One thing that is done to a machine: an elementary change of its heap that writes over no core
function, and over the fiber by a fiber only, or a change of all the rest. -/
inductive Step (core : List Handle) (m : Machine) : Machine → Prop
  | alloc (o : Object) : Step core m { m with heap := (m.heap.alloc o).2 }
  | collect : Step core m { m with heap := m.heap.collect.2 }
  | anchor (roots pins : List Handle) :
      Step core m { m with heap := { m.heap with roots := roots, pins := pins } }
  | remeasure (h : Handle) : Step core m { m with heap := m.heap.remeasure h }
  /-- Any object may be written over, but the core functions. The fiber stays a fiber. -/
  | rewrite (h : Handle) (o : Object) : h ∉ core → (h = m.fiber → o.kind = .fiber) →
      Step core m { m with heap := m.heap.replace h o }
  /-- The tables, the clock and what was printed may change at will. -/
  | rest (other : Machine) : Step core m { other with heap := m.heap, fiber := m.fiber }

/-- What a machine becomes in use, while its fiber and its core functions are kept. -/
inductive Becomes (created : Machine) : Machine → Prop
  | created : Becomes created created
  | step {m after : Machine} : Becomes created m → Step created.coreHandles m after →
      after.heap.isLive after.fiber = true →
      (∀ h ∈ created.coreHandles, after.heap.isLive h = true) → Becomes created after

namespace Step

variable {core : List Handle} {m after : Machine}

theorem heapMove (hstep : Step core m after) : m.HeapMove after := by
  cases hstep with
  | alloc o => exact .inr (.alloc o)
  | collect => exact .inr .collect
  | anchor roots pins => exact .inr (.anchor roots pins)
  | remeasure h => exact .inr (.remeasure h)
  | rewrite h o _ _ => exact .inr (.replace h o)
  | rest other => exact .inl rfl

theorem fiber_eq (hstep : Step core m after) : after.fiber = m.fiber := by
  cases hstep <;> rfl

/-- What is there after a step is what it was, unless it was written over. -/
theorem get?_cases (hstep : Step core m after) (ht : m.heap.Tidy) {h : Handle} {o : Object}
    (ho : m.heap.get? h = some o) (hl : after.heap.isLive h = true) :
    after.heap.get? h = some o ∨
      h ∉ core ∧ ∃ o', after.heap.get? h = some o' ∧ (h = m.fiber → o'.kind = .fiber) := by
  cases hstep with
  | alloc x => exact .inl (Heap.get?_alloc_of_isLive ht x ho hl).1
  | collect => exact .inl ((Heap.get?_collect ht).mpr ⟨ho, (Heap.isLive_collect ht).mp hl⟩)
  | anchor roots pins => exact .inl ho
  | remeasure k => exact .inl ((Heap.get?_remeasure _ _ _).trans ho)
  | rewrite k x hk hkind =>
    by_cases heq : h = k
    · subst heq
      refine .inr ⟨hk, x, ?_, hkind⟩
      rw [Heap.get?_replace ho, if_pos rfl]
    · refine .inl ?_
      cases hget : m.heap.get? k with
      | none => rw [Heap.replace_of_dead hget, ho]
      | some p => rw [Heap.get?_replace hget, if_neg heq, ho]
  | rest other => exact .inl ho

end Step

/-- What holds of a machine in use: it has its fiber, and its core functions are those that were
installed. -/
structure InUse (created m : Machine) : Prop extends m.Ready where
  core : ∀ h ∈ created.coreHandles, ∀ o, created.heap.get? h = some o → m.heap.get? h = some o

theorem InUse.step {created m after : Machine} (hi : InUse created m)
    (hstep : Step created.coreHandles m after) (hfiber : after.heap.isLive after.fiber = true)
    (hcore : ∀ h ∈ created.coreHandles, after.heap.isLive h = true) : InUse created after := by
  refine ⟨⟨hstep.heapMove.tidy hi.tidy, ?_⟩, fun h hh o ho => ?_⟩
  · obtain ⟨f, hf⟩ := hi.fiber
    rw [hstep.fiber_eq] at hfiber ⊢
    obtain hsame | ⟨-, o, ho, hkind⟩ := hstep.get?_cases hi.tidy hf hfiber
    · exact ⟨f, hsame⟩
    · cases o with
      | fiber g => exact ⟨g, ho⟩
      | _ => cases hkind rfl
  · obtain hsame | ⟨hnot, -⟩ := hstep.get?_cases hi.tidy (hi.core h hh o ho) (hcore h hh)
    · exact hsame
    · exact absurd hh hnot

theorem Becomes.inUse {created m : Machine} (h : created.Becomes m) (hcreated : created.Ready) :
    InUse created m := by
  induction h with
  | created => exact ⟨hcreated, fun _ _ _ ho => ho⟩
  | step _ hstep hfiber hcore ih => exact ih.step hstep hfiber hcore

end Machine

/-! ## 2. Elementary changes -/

/-- An object is written over by itself. -/
theorem Heap.replace_self {heap : Heap} {h : Handle} {o : Object} (ho : heap.get? h = some o) :
    heap.replace h o = heap := by
  obtain ⟨e, he, rfl⟩ := get?_eq_some_iff.mp ho
  obtain ⟨hi, hcell⟩ := Array.getElem?_eq_some_iff.mp (entryAt?_eq_some_iff.mp he)
  have hsame : heap.cells.setIfInBounds h.index ⟨h.generation, some e⟩ = heap.cells := by
    rw [← hcell, Array.setIfInBounds_def, dif_pos hi, Array.set_getElem_self]
  unfold replace
  rw [he]
  exact congrArg (fun cells => { heap with cells := cells }) hsame

namespace Machine

variable {created m after : Machine}

/-- A machine in use stays in use if its heap changes and leaves it the fiber and the core
functions. -/
theorem InUse.of_kept (hi : InUse created m) (ht : after.heap.Tidy) (hsame : after.fiber = m.fiber)
    (hfiber : ∀ f, m.heap.get? m.fiber = some (.fiber f) →
      ∃ f', after.heap.get? m.fiber = some (.fiber f'))
    (hcore : ∀ h ∈ created.coreHandles, ∀ o, m.heap.get? h = some o → after.heap.get? h = some o) :
    InUse created after := by
  obtain ⟨f, hf⟩ := hi.fiber
  exact ⟨⟨ht, hsame ▸ hfiber f hf⟩, fun h hh o ho => hcore h hh o (hi.core h hh o ho)⟩

theorem InUse.isLive (hi : InUse created m)
    (hthere : ∀ h ∈ created.coreHandles, created.heap.isLive h = true) :
    m.heap.isLive m.fiber = true ∧ ∀ h ∈ created.coreHandles, m.heap.isLive h = true := by
  obtain ⟨f, hf⟩ := hi.fiber
  refine ⟨Heap.isLive_iff.mpr ⟨_, hf⟩, fun h hh => ?_⟩
  obtain ⟨o, ho⟩ := Heap.isLive_iff.mp (hthere h hh)
  exact Heap.isLive_iff.mpr ⟨o, hi.core h hh o ho⟩

/-- An elementary change that leaves a machine in use is one step, or none if a core function was
written over by itself. -/
theorem Becomes.move {heap : Heap} (hb : created.Becomes m) (hi : InUse created m)
    (hthere : ∀ h ∈ created.coreHandles, created.heap.isLive h = true) (hmove : m.heap.Move heap)
    (hi' : InUse created { m with heap := heap }) : created.Becomes { m with heap := heap } := by
  obtain ⟨hfiber, hcore⟩ := hi'.isLive hthere
  cases hmove with
  | alloc o => exact .step hb (.alloc o) hfiber hcore
  | collect => exact .step hb .collect hfiber hcore
  | anchor roots pins => exact .step hb (.anchor roots pins) hfiber hcore
  | remeasure h => exact .step hb (.remeasure h) hfiber hcore
  | replace h o =>
    by_cases hh : h ∈ created.coreHandles
    · obtain ⟨c, hc⟩ := Heap.isLive_iff.mp (hthere h hh)
      have hnew := hi'.core h hh c hc
      rw [Heap.get?_replace (hi.core h hh c hc), if_pos rfl] at hnew
      obtain rfl := Option.some.inj hnew
      rwa [Heap.replace_self (hi.core h hh _ hc)]
    · refine .step hb (.rewrite h o hh fun heq => ?_) hfiber hcore
      obtain ⟨f, hf⟩ := hi.fiber
      obtain ⟨f', hf'⟩ := hi'.fiber
      subst heq
      rw [Heap.get?_replace hf, if_pos rfl] at hf'
      cases hf'
      rfl

/-- Besides its heap a machine may change at will. -/
theorem Becomes.heapMove (hb : created.Becomes m) (hi : InUse created m)
    (hthere : ∀ h ∈ created.coreHandles, created.heap.isLive h = true) (hmove : m.HeapMove after)
    (hfiber : after.fiber = m.fiber) (hi' : InUse created after) : created.Becomes after := by
  have hmid : InUse created { m with heap := after.heap } :=
    ⟨⟨hi'.tidy, hfiber ▸ hi'.fiber⟩, hi'.core⟩
  have hheap : created.Becomes { m with heap := after.heap } := by
    obtain hsame | hmove := hmove
    · rwa [hsame]
    · exact hb.move hi hthere hmove hmid
  have hrest : Step created.coreHandles { m with heap := after.heap }
      { after with heap := after.heap, fiber := m.fiber } := .rest after
  have hsame : { after with heap := after.heap, fiber := m.fiber } = after := by rw [← hfiber]
  rw [hsame] at hrest
  obtain ⟨hlive, hcore⟩ := hi'.isLive hthere
  exact .step hheap hrest hlive hcore

/-- What a machine becomes in use is what it becomes by elementary changes of its heap, and any
changes of the rest, that leave it in use. -/
theorem becomes_iff (hready : created.Ready)
    (hthere : ∀ h ∈ created.coreHandles, created.heap.isLive h = true) :
    created.Becomes m ↔ Relation.ReflTransGen (fun m after =>
      m.HeapMove after ∧ after.fiber = m.fiber ∧ InUse created after) created m := by
  constructor
  · intro hb
    induction hb with
    | created => exact .refl
    | step hb hstep hfiber hcore ih =>
      exact ih.tail ⟨hstep.heapMove, hstep.fiber_eq, (hb.inUse hready).step hstep hfiber hcore⟩
  · intro hmoves
    induction hmoves with
    | refl => exact .created
    | tail _ hstep ih =>
      exact ih.heapMove (ih.inUse hready) hthere hstep.1 hstep.2.1 hstep.2.2

/-! ## 3. Operations on the heap -/

/-- A machine may be looked at through its handles only. -/
theorem InUse.of_get? (hi : InUse created m) {heap : Heap} (ht : heap.Tidy)
    (hv : ∀ h, heap.get? h = m.heap.get? h) : InUse created { m with heap := heap } :=
  hi.of_kept ht rfl (fun f hf => ⟨f, (hv _).trans hf⟩) fun h _ _ ho => (hv h).trans ho

theorem Becomes.change {given : List Handle} {target : Option Handle} {heap : Heap}
    (hb : created.Becomes m) (hi : InUse created m)
    (hthere : ∀ h ∈ created.coreHandles, created.heap.isLive h = true)
    (hc : Change given target m.heap heap) (hi' : InUse created { m with heap := heap }) :
    created.Becomes { m with heap := heap } := by
  cases hc with
  | none => exact hb
  | alloc o _ _ => exact hb.move hi hthere (.alloc o) hi'
  | write _ _ _ => exact hb.move hi hthere (.replace _ _) hi'
  | @writeMeasured h o o' _ _ _ =>
    -- What is measured is not another object.
    have hmid : InUse created { m with heap := m.heap.replace h o' } :=
      hi'.of_get? (Heap.replace_tidy hi.tidy h o') fun k => (Heap.get?_remeasure _ h k).symm
    exact (hb.move hi hthere (.replace h o') hmid).move hmid hthere (.remeasure h) hi'
  | anchor roots pins => exact hb.move hi hthere (.anchor roots pins) hi'
  | collect => exact hb.move hi hthere .collect hi'

/-- Any operation on the heap belongs to a use, if the machine has its fiber and its core functions
after it. -/
theorem Becomes.operation (hb : created.Becomes m) (hi : InUse created m)
    (hthere : ∀ h ∈ created.coreHandles, created.heap.isLive h = true) (op : HeapOp)
    (hi' : InUse created { m with heap := op.after m.heap }) :
    created.Becomes { m with heap := op.after m.heap } := by
  rcases op.after_cases m.heap with ⟨a, -, hc⟩ | ⟨o, -, ha⟩ |
    ⟨h, o', -, ha | ⟨o, -, -, ha⟩⟩ | ⟨h, -, ha⟩
  · exact hb.change hi hthere hc hi'
  · rw [ha] at hi' ⊢
    exact hb.move hi hthere (.alloc o) hi'
  · rwa [ha]
  · rw [ha] at hi' ⊢
    exact hb.move hi hthere (.replace h o') hi'
  · rw [ha] at hi' ⊢
    exact hb.move hi hthere (.remeasure h) hi'

/-! ## 4. Lives -/

/-- A function is declared on a module of the machine. -/
def Declares (m : Machine) (h : Handle) : Prop :=
  ∃ name owner script, (name, owner) ∈ m.modules ∧
    m.heap.get? owner = some (.script script) ∧ h ∈ script.functions.toList

/-- A machine that has been in use since it was created, and that has the core functions where they
were registered. -/
structure CoreKept (created m : Machine) : Prop where
  becomes : created.Becomes m
  builtin : ∀ b ∈ created.builtins, b ∈ m.builtins
  declared : ∀ h ∈ created.langHandles, m.Declares h

section Created

variable {settings : Settings} {held : List Handle}

theorem sound_of_create (hcreate : create settings = .ok created) :
    created.Sound [] ∧ (bare settings).CoreAdded created := by
  have hinstall := installCore_of_create hcreate
  obtain ⟨after, hok, hsound, -⟩ | ⟨e, after, herror, -⟩ :=
    installCore_outcome (Sound.bare settings)
  · cases hinstall.symm.trans hok
    exact ⟨hsound, (Sound.bare settings).coreAdded hok hsound⟩
  · cases hinstall.symm.trans herror

/-- Each core function stands for a line of one of the two tables. -/
theorem exists_core_line (hcreate : create settings = .ok created) {h : Handle}
    (hh : h ∈ created.coreHandles) : ∃ owner, ∃ line ∈ coreBuiltins ++ langFunctions,
      created.heap.get? h = some (.function (coreCallable owner line)) := by
  obtain ⟨-, -, owner, hbuiltins, hlang⟩ := create_provides hcreate
  rcases List.mem_append.mp hh with hh | hh
  · obtain ⟨line, hline, hf⟩ := hbuiltins.exists_line hh
    exact ⟨_, line, List.mem_append_left _ hline, hf⟩
  · obtain ⟨line, hline, hf⟩ := hlang.exists_line hh
    exact ⟨_, line, List.mem_append_right _ hline, hf⟩

/-- The registry's roots lead to the core functions. -/
theorem CoreKept.reaches (hk : CoreKept created m) (hs : m.Sound held) {h : Handle}
    (hh : h ∈ created.coreHandles) : m.heap.Reaches m.heap.roots h := by
  rcases List.mem_append.mp hh with hh | hh
  · obtain ⟨b, hb, rfl⟩ := List.mem_map.mp hh
    exact (hs.intact.reaches hs.registered_subset).1 b (hk.builtin b (Array.mem_toList_iff.mp hb))
  · obtain ⟨name, owner, script, howner, hscript, hmem⟩ := hk.declared h hh
    obtain ⟨f, hf, -⟩ := (hs.proper howner hscript).functions h hmem
    exact hs.intact.reaches_function hs.registered_subset howner hscript hmem
      (Heap.isLive_iff.mpr ⟨_, hf⟩)

variable (hcreate : create settings = .ok created)
include hcreate

theorem core_isLive : ∀ h ∈ created.coreHandles, created.heap.isLive h = true := by
  intro h hh
  obtain ⟨owner, line, -, hf⟩ := exists_core_line hcreate hh
  exact Heap.isLive_iff.mpr ⟨_, hf⟩

/-- An elementary change keeps the machine in use if it is known of functions and of the fiber that
they stay. -/
theorem Becomes.heapMove_of_kept (hb : created.Becomes m) (hmove : m.HeapMove after)
    (ht : after.heap.Tidy) (hsame : after.fiber = m.fiber)
    (hfiber : ∀ f, m.heap.get? m.fiber = some (.fiber f) →
      ∃ f', after.heap.get? m.fiber = some (.fiber f'))
    (hcore : ∀ h ∈ created.coreHandles, ∀ f, m.heap.get? h = some (.function f) →
      after.heap.get? h = some (.function f)) : created.Becomes after := by
  obtain ⟨htidy, hready, -⟩ := create_provides hcreate
  have hi := hb.inUse ⟨htidy, hready⟩
  refine hb.heapMove hi (core_isLive hcreate) hmove hsame
    (hi.of_kept ht hsame hfiber fun h hh o ho => ?_)
  obtain ⟨owner, line, -, hf⟩ := exists_core_line hcreate hh
  cases (hi.core h hh _ hf).symm.trans ho
  exact hcore h hh _ ho

namespace CoreKept

theorem start : CoreKept created created where
  becomes := .created
  builtin := fun _ hb => hb
  declared := by
    intro h hh
    obtain ⟨-, hcore⟩ := sound_of_create hcreate
    obtain ⟨owner, script, hmodules, hs, -⟩ := hcore.lang
    have hlang : created.langHandles = script.functions.toList := by
      simp [langHandles, findModule?, hmodules, hs]
    exact ⟨langName, owner, script, hmodules ▸ .head _, hs, hlang ▸ hh⟩

theorem quiet (hk : CoreKept created m) (hs : m.Sound held) (hq : m.QuietMove after) :
    CoreKept created after := by
  have hmove := hq.heapMove
  obtain ⟨heap, written, rfl, ht, hroots, hkeep⟩ := hq.undisturbed hs.tidy
  have hreaches := hs.intact.reaches hs.registered_subset
  refine ⟨hk.becomes.heapMove_of_kept hcreate hmove ht rfl (fun f hf => ?_) fun h hh f hf => ?_,
    hk.builtin, fun h hh => ?_⟩
  · obtain ⟨o, ho, hkind, -⟩ := hkeep _ _ hreaches.2.2 hf
    cases o <;> cases hkind
    exact ⟨_, ho⟩
  · exact hkeep.function (hk.reaches hs hh) hf
  · obtain ⟨name, owner, script, howner, hscript, hmem⟩ := hk.declared h hh
    exact ⟨name, owner, script, howner, hkeep.script (hreaches.2.1 name owner howner) hscript, hmem⟩

/-- A change that is not about objects. The tables may become longer. -/
theorem of_get? (hk : CoreKept created m) (hmove : m.HeapMove after) (ht : after.heap.Tidy)
    (hsame : after.fiber = m.fiber) (hv : ∀ h, after.heap.get? h = m.heap.get? h)
    (hbuiltins : ∀ b ∈ m.builtins, b ∈ after.builtins) (hmodules : m.modules ⊆ after.modules) :
    CoreKept created after := by
  refine ⟨hk.becomes.heapMove_of_kept hcreate hmove ht hsame (fun f hf => ⟨f, (hv _).trans hf⟩)
    fun h _ f hf => (hv h).trans hf, fun b hb => hbuiltins b (hk.builtin b hb), fun h hh => ?_⟩
  obtain ⟨name, owner, script, howner, hscript, hmem⟩ := hk.declared h hh
  exact ⟨name, owner, script, hmodules howner, (hv owner).trans hscript, hmem⟩

/-- A module is written, and has the functions still that it had. -/
theorem replace_script (hk : CoreKept created m) (ht : m.heap.Tidy) {owner : Handle}
    {script script' : Script} (hget : m.heap.get? owner = some (.script script))
    (hsub : script.functions.toList ⊆ script'.functions.toList) :
    CoreKept created { m with heap := m.heap.replace owner (.script script') } := by
  have hother : ∀ {h : Handle} {o : Object}, m.heap.get? h = some o → o.kind ≠ .script →
      (m.heap.replace owner (.script script')).get? h = some o := by
    intro h o ho hkind
    have hne : h ≠ owner := by
      rintro rfl
      cases hget.symm.trans ho
      exact hkind rfl
    rw [Heap.get?_replace hget, if_neg hne, ho]
  refine ⟨hk.becomes.heapMove_of_kept hcreate (.inr (.replace owner _))
    (Heap.replace_tidy ht owner _) rfl (fun f hf => ⟨f, hother hf (by simp [Object.kind])⟩)
    fun h _ f hf => hother hf (by simp [Object.kind]), hk.builtin, fun h hh => ?_⟩
  obtain ⟨name, k, found, hmodule, hfound, hmem⟩ := hk.declared h hh
  by_cases heq : k = owner
  · subst heq
    cases hget.symm.trans hfound
    exact ⟨name, k, script', hmodule, by rw [Heap.get?_replace hget, if_pos rfl], hsub hmem⟩
  · exact ⟨name, k, found, hmodule, by rw [Heap.get?_replace hget, if_neg heq, hfound], hmem⟩

theorem registers (hk : CoreKept created m) (hs : m.Sound held) (hr : m.Registers after) :
    CoreKept created after := by
  -- All but one begin with an allocation, which is quiet.
  have halloc : ∀ {o : Object} {h : Handle} {heap : Heap}, m.heap.alloc o = (h, heap) →
      CoreKept created { m with heap := heap } ∧ heap.Tidy := by
    intro o h heap ha
    obtain rfl : (m.heap.alloc o).2 = heap := by rw [ha]
    exact ⟨hk.quiet hcreate hs (.heap (.alloc o)), Heap.alloc_tidy hs.tidy o⟩
  have htidy := hr.tidy hs.tidy
  cases hr with
  | nothing => exact hk
  | builtin _ _ ha =>
    exact (halloc ha).1.of_get? hcreate (.inr (.anchor _ _)) htidy rfl (fun _ => rfl)
      (fun _ hb => Array.mem_push.mpr (.inl hb)) (List.Subset.refl _)
  | module _ ha =>
    exact (halloc ha).1.of_get? hcreate (.inr (.anchor _ _)) htidy rfl (fun _ => rfl)
      (fun _ hb => hb) (List.subset_cons_self _ _)
  | @function owner function script _ _ _ heap _ _ ha hkept =>
    have hw : CoreKept created { m with heap := heap.replace owner (.script { script with
        functions := script.functions.push function }) } :=
      (halloc ha).1.replace_script hcreate (halloc ha).2 hkept (by simp)
    exact hw.of_get? hcreate (.inr (.remeasure owner)) htidy rfl
      (fun k => Heap.get?_remeasure _ owner k) (fun _ hb => hb) (List.Subset.refl _)
  | @global owner script name value hget _ =>
    have hw : CoreKept created { m with heap := m.heap.replace owner (.script { script with
        globals := script.globals.push ⟨name, value⟩ }) } :=
      hk.replace_script hcreate hs.tidy hget (List.Subset.refl _)
    exact hw.of_get? hcreate (.inr (.remeasure owner)) htidy rfl
      (fun k => Heap.get?_remeasure _ owner k) (fun _ hb => hb) (List.Subset.refl _)

end CoreKept

end Created

end Machine

namespace Hosted

variable {settings : Settings} {created : Machine}

theorem Effect.coreKept {s t : Hosted} (he : Effect s t)
    (hcreate : Machine.create settings = .ok created) (hk : created.CoreKept s.machine)
    (hs : s.machine.Sound s.held) : created.CoreKept t.machine := by
  have ht := (he.sound hs).tidy
  cases he with
  | quiet hq => exact hk.quiet hcreate hs hq
  | registers hr => exact hk.registers hcreate hs hr
  | write index value hget =>
    refine hk.replace_script hcreate hs.tidy hget ?_
    unfold Script.setGlobal
    split <;> exact List.Subset.refl _
  | addRoot h | removeRoot hh =>
    exact hk.of_get? hcreate (.inr (.anchor _ _)) ht rfl (fun _ => rfl) (fun _ hb => hb)
      (List.Subset.refl _)

theorem coreKept_of_effects {s t : Hosted} (h : Relation.ReflTransGen Effect s t)
    (hcreate : Machine.create settings = .ok created) (hk : created.CoreKept s.machine)
    (hs : s.machine.Sound s.held) : created.CoreKept t.machine := by
  induction h with
  | refl => exact hk
  | tail heffects he ih => exact he.coreKept hcreate ih (sound_of_effects heffects hs).1

end Hosted

/-- In every life of a machine that was created it is used, and nothing that may happen in it takes
the fiber or a core function away. -/
theorem Machine.Becomes.of_life {settings : Settings} {created m : Machine} {held : List Handle}
    {host : String → Option (NativeM Unit)} (hcreate : create settings = .ok created)
    (hlife : Hosted.Life host ⟨created, []⟩ ⟨m, held⟩) : created.Becomes m := by
  obtain ⟨hsound, -⟩ := sound_of_create hcreate
  have hkept : ∀ s, Hosted.Life host ⟨created, []⟩ s → created.CoreKept s.machine := by
    intro s hs
    induction hs with
    | refl => exact .start hcreate
    | tail hlife hstep ih =>
      have hs := (Hosted.Life.sound hlife hsound).1
      exact Hosted.coreKept_of_effects (hstep.effects hs.tidy) hcreate ih hs
  exact (hkept _ hlife).becomes

end ScriptMachine
