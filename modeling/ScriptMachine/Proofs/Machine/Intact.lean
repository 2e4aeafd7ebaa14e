import ScriptMachine.Attribute
import ScriptMachine.Proofs.Machine.Registration

/-!
# The objects behind the registry

A machine's registry is names; behind them are functions and modules on the heap. Two things can
happen to those: something else goes on, and they stay because they are reached from the roots; or
a module is written, and stays in order because of what is written.

Main definitions:
- `Heap.Proper`: a module with all that is declared on it.
- `Machine.Intact`: everything behind the registry of a machine.
- `Heap.Keeps`: what is reached stays.

Results:
1. `Heap.QuietMove.undisturbed`, `Machine.QuietMove.undisturbed`: quiet moves keep what is reached.
2. `Proper.pushFunction`, `Proper.pushGlobal`, `Proper.setGlobal`: declarations and written
   variables leave a module in order.
3. `Intact.of_keeps`, `Intact.replace_script`: what is behind the registry stays.
-/

namespace ScriptMachine

/-- The objects of a module are in order: all names on it are distinct, and its functions are there
and know it as their owner. -/
structure Heap.Proper (heap : Heap) (owner : Handle) (script : Script) : Prop where
  names : (heap.declaredNames script).Nodup
  functions : ∀ h ∈ script.functions.toList,
    ∃ f, heap.get? h = some (.function f) ∧ f.owner = some owner

/-- The objects of a machine's registry are there on the heap. -/
structure Machine.Intact (m : Machine) (heap : Heap) : Prop where
  builtin : ∀ b ∈ m.builtins, ∃ entry,
    heap.get? b.function = some (.function ⟨b.name, none, b.arity, .native entry⟩)
  module : ∀ name owner, (name, owner) ∈ m.modules → ∃ script,
    heap.get? owner = some (.script script) ∧ script.name = name ∧ heap.Proper owner script
  fiber : ∃ f, heap.get? m.fiber = some (.fiber f)

/-- The objects that the registry holds roots of. -/
def Machine.registered (m : Machine) : List Handle :=
  m.fiber :: (m.builtins.toList.map (·.function) ++ m.modules.map (·.2))

/-! ## 1. What is left alone -/

/-- What is reached stays, as an object of its kind; functions and modules stay as they are. -/
def Heap.Keeps (heap after : Heap) : Prop :=
  ∀ h o, heap.Reaches heap.roots h → heap.get? h = some o →
    ∃ o', after.get? h = some o' ∧ o'.kind = o.kind ∧
      (o.kind = .function ∨ o.kind = .script → o' = o)

namespace Heap

variable {heap after : Heap}

theorem Keeps.of_get? (hk : ∀ h o, heap.Reaches heap.roots h → heap.get? h = some o →
    after.get? h = some o) : heap.Keeps after :=
  fun h o hr ho => ⟨o, hk h o hr ho, rfl, fun _ => rfl⟩

theorem Keeps.function {h : Handle} {f : Callable} (hk : heap.Keeps after)
    (hr : heap.Reaches heap.roots h) (hf : heap.get? h = some (.function f)) :
    after.get? h = some (.function f) := by
  obtain ⟨o, ho, -, hsame⟩ := hk h _ hr hf
  rw [ho, hsame (.inl rfl)]

theorem Keeps.script {h : Handle} {s : Script} (hk : heap.Keeps after)
    (hr : heap.Reaches heap.roots h) (hs : heap.get? h = some (.script s)) :
    after.get? h = some (.script s) := by
  obtain ⟨o, ho, -, hsame⟩ := hk h _ hr hs
  rw [ho, hsame (.inr rfl)]

/-- An object that is neither a function nor a module may be written. -/
theorem keeps_replace {h : Handle} {o o' : Object} (ho : heap.get? h = some o)
    (hkind : o'.kind = o.kind) (hother : ¬ (o.kind = .function ∨ o.kind = .script)) :
    heap.Keeps (heap.replace h o') := by
  intro k p _ hp
  rw [get?_replace ho]
  split
  · next hk =>
    subst hk
    cases ho.symm.trans hp
    exact ⟨o', rfl, hkind, fun h => absurd h hother⟩
  · exact ⟨p, hp, rfl, fun _ => rfl⟩

theorem QuietMove.undisturbed (hq : heap.QuietMove after) (ht : heap.Tidy) :
    after.Tidy ∧ after.roots = heap.roots ∧ heap.Keeps after := by
  cases hq with
  | alloc o =>
    refine ⟨alloc_tidy ht o, alloc_roots heap o, .of_get? fun h p hr hp => ?_⟩
    exact get?_alloc_of_reaches ht o (hr.mono (List.subset_append_left _ _)) hp
  | collect =>
    refine ⟨collect_tidy ht, rfl, .of_get? fun h p hr hp => ?_⟩
    exact (get?_collect ht).mpr ⟨hp, hr.mono (List.subset_append_left _ _)⟩
  | list new hold =>
    exact ⟨replace_tidy ht _ _, replace_roots _ _ _,
      keeps_replace hold rfl (by simp [Object.kind])⟩
  | measure h =>
    refine ⟨remeasure_tidy ht h, remeasure_roots heap h, .of_get? fun k p _ hp => ?_⟩
    rw [get?_remeasure, hp]
  | pin pins => exact ⟨ht.of_cells rfl rfl, rfl, .of_get? fun _ _ _ hp => hp⟩

end Heap

/-- A quiet move of a machine is one of its heap, besides what it prints. -/
theorem Machine.QuietMove.undisturbed {m after : Machine} (hq : m.QuietMove after)
    (ht : m.heap.Tidy) : ∃ heap written, after = { m with heap := heap, written := written } ∧
      heap.Tidy ∧ heap.roots = m.heap.roots ∧ m.heap.Keeps heap := by
  cases hq with
  | heap hq => exact ⟨_, m.written, rfl, hq.undisturbed ht⟩
  | stack stack hf =>
    exact ⟨_, m.written, rfl, Heap.replace_tidy ht _ _, Heap.replace_roots _ _ _,
      Heap.keeps_replace hf rfl (by simp [Object.kind])⟩
  | write text =>
    have hsame : m.heap.Keeps m.heap := .of_get? fun _ _ _ hp => hp
    unfold Machine.write
    split
    · exact ⟨m.heap, _, rfl, ht, rfl, hsame⟩
    · exact ⟨m.heap, m.written, rfl, ht, rfl, hsame⟩

/-! ## 2. Modules in order -/

namespace Heap

variable {heap after : Heap}

theorem declaredNames_congr {script : Script}
    (hf : ∀ h ∈ script.functions.toList, after.functionName? h = heap.functionName? h) :
    after.declaredNames script = heap.declaredNames script := by
  unfold declaredNames
  rw [List.map_congr_left hf]

theorem functionName?_of_get? {h : Handle} {f : Callable}
    (hf : heap.get? h = some (.function f)) : heap.functionName? h = some f.name := by
  simp [functionName?, hf]

namespace Proper

variable {owner : Handle} {script : Script}

/-- The names on a module depend on its functions only. -/
theorem declaredNames_eq (hp : heap.Proper owner script)
    (hkeep : ∀ h f, h ∈ script.functions.toList → heap.get? h = some (.function f) →
      after.get? h = some (.function f)) :
    after.declaredNames script = heap.declaredNames script := by
  refine declaredNames_congr fun h hh => ?_
  obtain ⟨f, hf, -⟩ := hp.functions h hh
  rw [functionName?_of_get? hf, functionName?_of_get? (hkeep h f hh hf)]

theorem of_functions (hp : heap.Proper owner script)
    (hkeep : ∀ h f, h ∈ script.functions.toList → heap.get? h = some (.function f) →
      after.get? h = some (.function f)) : after.Proper owner script where
  names := by
    rw [hp.declaredNames_eq hkeep]
    exact hp.names
  functions := by
    intro h hh
    obtain ⟨f, hf, ho⟩ := hp.functions h hh
    exact ⟨f, hkeep h f hh hf, ho⟩

theorem pushFunction (hp : heap.Proper owner script) {function : Handle} {f : Callable}
    (hf : heap.get? function = some (.function f)) (ho : f.owner = some owner)
    (hname : some f.name ∉ heap.declaredNames script) :
    heap.Proper owner { script with functions := script.functions.push function } where
  names := by
    have hperm : (heap.declaredNames
        { script with functions := script.functions.push function }).Perm
        (some f.name :: heap.declaredNames script) := by
      simp only [declaredNames, Buffer.toList_push, List.map_append, List.map_cons, List.map_nil,
        functionName?_of_get? hf, List.append_assoc, List.singleton_append]
      exact List.perm_middle
    exact hperm.nodup_iff.mpr (List.nodup_cons.mpr ⟨hname, hp.names⟩)
  functions := by
    intro h hh
    simp only [Buffer.toList_push, List.mem_append, List.mem_singleton] at hh
    rcases hh with hh | rfl
    · exact hp.functions h hh
    · exact ⟨f, hf, ho⟩

theorem pushGlobal (hp : heap.Proper owner script) {global : Global}
    (hname : some global.name ∉ heap.declaredNames script) :
    heap.Proper owner { script with globals := script.globals.push global } where
  names := by
    have heq : heap.declaredNames { script with globals := script.globals.push global } =
        heap.declaredNames script ++ [some global.name] := by
      simp [declaredNames]
    rw [heq, List.nodup_append_comm]
    exact List.nodup_cons.mpr ⟨hname, hp.names⟩
  functions := hp.functions

theorem setGlobal (hp : heap.Proper owner script) (index : Nat) (value : Value) :
    heap.Proper owner (script.setGlobal index value) := by
  unfold Script.setGlobal
  split
  · next global hg =>
    rw [← Buffer.getElem?_toList] at hg
    obtain ⟨hi, hg⟩ := List.getElem?_eq_some_iff.mp hg
    have heq : heap.declaredNames
        { script with globals := script.globals.set index { global with value } } =
        heap.declaredNames script := by
      have hlen : index < (script.globals.toList.map fun g => some g.name).length := by
        simpa using hi
      have hname : some global.name = (script.globals.toList.map fun g => some g.name)[index] := by
        simp [hg]
      unfold declaredNames
      rw [Buffer.toList_set, List.map_set]
      dsimp only
      rw [hname, List.set_getElem_self]
    refine ⟨?_, hp.functions⟩
    rw [heq]
    exact hp.names
  · exact hp

end Proper

end Heap

/-! ## 3. The objects of the registry -/

namespace Machine

variable {m : Machine} {heap after : Heap}

theorem Intact.reaches (hi : m.Intact heap) (hroots : m.registered ⊆ heap.roots) :
    (∀ b ∈ m.builtins, heap.Reaches heap.roots b.function) ∧
      (∀ name owner, (name, owner) ∈ m.modules → heap.Reaches heap.roots owner) ∧
      heap.Reaches heap.roots m.fiber := by
  refine ⟨fun b hb => .start (hroots ?_) ?_, fun name owner ho => .start (hroots ?_) ?_,
    .start (hroots ?_) ?_⟩
  · exact .tail _ (List.mem_append_left _ (List.mem_map_of_mem (by simpa using hb)))
  · obtain ⟨entry, hf⟩ := hi.builtin b hb
    exact Heap.isLive_iff.mpr ⟨_, hf⟩
  · exact .tail _ (List.mem_append_right _ (List.mem_map_of_mem (f := (·.2)) ho))
  · obtain ⟨script, hs, -⟩ := hi.module name owner ho
    exact Heap.isLive_iff.mpr ⟨_, hs⟩
  · exact .head _
  · obtain ⟨f, hf⟩ := hi.fiber
    exact Heap.isLive_iff.mpr ⟨_, hf⟩

/-- The functions of a module are reached through it. -/
theorem Intact.reaches_function (hi : m.Intact heap) (hroots : m.registered ⊆ heap.roots)
    {name : String} {owner h : Handle} {script : Script} (ho : (name, owner) ∈ m.modules)
    (hs : heap.get? owner = some (.script script)) (hh : h ∈ script.functions.toList)
    (hl : heap.isLive h = true) : heap.Reaches heap.roots h :=
  .child ((hi.reaches hroots).2.1 name owner ho) hs (List.mem_append_left _ hh) hl

/-- What is registered is reached, and so it is there after anything that keeps what is reached. -/
theorem Intact.of_keeps (hi : m.Intact heap) (hroots : m.registered ⊆ heap.roots)
    (hk : heap.Keeps after) : m.Intact after where
  builtin := by
    intro b hb
    obtain ⟨entry, hf⟩ := hi.builtin b hb
    exact ⟨entry, hk.function ((hi.reaches hroots).1 b hb) hf⟩
  module := by
    intro name owner ho
    obtain ⟨script, hs, hname, hp⟩ := hi.module name owner ho
    refine ⟨script, hk.script ((hi.reaches hroots).2.1 name owner ho) hs, hname, ?_⟩
    refine hp.of_functions fun h f hh hf => hk.function ?_ hf
    exact hi.reaches_function hroots ho hs hh (Heap.isLive_iff.mpr ⟨_, hf⟩)
  fiber := by
    obtain ⟨f, hf⟩ := hi.fiber
    obtain ⟨o, ho, hkind, -⟩ := hk m.fiber _ (hi.reaches hroots).2.2 hf
    cases o <;> cases hkind
    exact ⟨_, ho⟩

/-- The registry asks for objects, and not for roots or pins. -/
theorem Intact.of_get? (hi : m.Intact heap) (hv : ∀ h, after.get? h = heap.get? h) :
    m.Intact after where
  builtin := by
    intro b hb
    obtain ⟨entry, hf⟩ := hi.builtin b hb
    exact ⟨entry, (hv _).trans hf⟩
  module := by
    intro name owner ho
    obtain ⟨script, hs, hname, hp⟩ := hi.module name owner ho
    exact ⟨script, (hv _).trans hs, hname, hp.of_functions fun h f _ hf => (hv h).trans hf⟩
  fiber := by
    obtain ⟨f, hf⟩ := hi.fiber
    exact ⟨f, (hv _).trans hf⟩

/-- A module is written. It stays the module it was if it keeps its name, and if what is on it
stays in order in case it is registered. -/
theorem Intact.replace_script (hi : m.Intact heap) {owner : Handle} {script script' : Script}
    (hs : heap.get? owner = some (.script script)) (hname : script'.name = script.name)
    (hproper : ∀ name, (name, owner) ∈ m.modules → heap.Proper owner script') :
    m.Intact (heap.replace owner (.script script')) := by
  have hfunction : ∀ {h : Handle} {f : Callable}, heap.get? h = some (.function f) →
      (heap.replace owner (.script script')).get? h = some (.function f) := by
    intro h f hf
    have hne : h ≠ owner := by
      rintro rfl
      cases hs.symm.trans hf
    rw [Heap.get?_replace hs, if_neg hne, hf]
  refine ⟨fun b hb => ?_, fun name k hk => ?_, ?_⟩
  · obtain ⟨entry, hf⟩ := hi.builtin b hb
    exact ⟨entry, hfunction hf⟩
  · obtain ⟨s, hs', hsname, hp⟩ := hi.module name k hk
    rw [Heap.get?_replace hs]
    split
    · next heq =>
      subst heq
      cases hs.symm.trans hs'
      exact ⟨script', rfl, hname.trans hsname,
        (hproper name hk).of_functions fun _ _ _ hf => hfunction hf⟩
    · exact ⟨s, hs', hsname, hp.of_functions fun _ _ _ hf => hfunction hf⟩
  · obtain ⟨f, hf⟩ := hi.fiber
    have hne : m.fiber ≠ owner := by
      intro heq
      rw [heq] at hf
      cases hs.symm.trans hf
    exact ⟨f, by rw [Heap.get?_replace hs, if_neg hne, hf]⟩

end Machine

end ScriptMachine
