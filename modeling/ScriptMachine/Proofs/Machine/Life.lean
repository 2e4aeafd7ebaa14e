import ScriptMachine.Proofs.Machine.Intact

/-!
# The registry over the life of a machine

What is registered stays: names are given once, an index is kept for good, and the objects behind
the names live as long as the machine, through collections at any moment. The registry holds a root
for each of its objects, and a host that takes away only the roots it added itself never takes away
one of those, even where both have registered the same object.

Main definitions:
- `Hosted`, `Hosted.Step`, `Hosted.Life`: a machine in the hands of a host, and what may happen.
- `Machine.Registry`: what holds of names, indices and objects.
- `Hosted.Effect`: what a step comes down to.
- `Machine.Sound`: the invariant.

Results:
1. `Step.effects`: every step comes down to a few ways of changing a machine.
2. `Effect.sound`, `Effect.extends`: each of them keeps the invariant, and the builtins.
3. `Hosted.registry_of_life`: the registry is in order throughout.
-/

namespace ScriptMachine

/-! ## 1. Lives -/

/-- A machine, and the roots that its host has added and not taken away. -/
structure Hosted where
  machine : Machine
  held : List Handle

namespace Hosted

/-- A new machine. -/
def fresh (settings : Settings) : Hosted :=
  ⟨.bare settings, []⟩

/-- What may happen to a machine. Each operation may be carried out or fail. Of the native
functions the core ones are called; those of the host are there to be registered. -/
inductive Step (host : String → Option (NativeM Unit)) : Hosted → Hosted → Prop
  | register {m : Machine} {held : List Handle} (op : SetupOp) :
      Step host ⟨m, held⟩ ⟨op.after m, held⟩
  | alloc {m : Machine} {held : List Handle} (o : Object) :
      Step host ⟨m, held⟩ ⟨(m.alloc o).2, held⟩
  | newStringList {m : Machine} {held : List Handle} (items : List String) :
      Step host ⟨m, held⟩ ⟨stateAfter (onHeap (ScriptMachine.newStringList items)) m, held⟩
  | setAttribute {m : Machine} {held : List Handle} (receiver : Value) (name : String)
      (value : Value) : Step host ⟨m, held⟩
        ⟨stateAfter (onHeap (ScriptMachine.setAttribute receiver name value)) m, held⟩
  | collect {m : Machine} {held : List Handle} :
      Step host ⟨m, held⟩ ⟨{ m with heap := m.heap.collect.2 }, held⟩
  | call {m : Machine} {held : List Handle} (depth : Nat) (function : Value) (args : List Value) :
      (∀ name, m.heap.entryPoint function args.length ≠ .ok (.host name)) →
      Step host ⟨m, held⟩
        ⟨stateAfter (callNative (.withHost host) depth function args) m, held⟩
  | addRoot {m : Machine} {held : List Handle} (h : Handle) :
      Step host ⟨m, held⟩ ⟨{ m with heap := m.heap.addRoot h }, h :: held⟩
  /-- The host takes away a root that it added. -/
  | removeRoot {m : Machine} {held : List Handle} {h : Handle} : h ∈ held →
      Step host ⟨m, held⟩ ⟨{ m with heap := m.heap.removeRoot h }, held.erase h⟩

/-- Any number of steps. -/
abbrev Life (host : String → Option (NativeM Unit)) : Hosted → Hosted → Prop :=
  Relation.ReflTransGen (Step host)

end Hosted

/-- What holds of a machine that has room for `capacity` builtins. -/
structure Machine.Registry (m : Machine) (capacity : Nat) : Prop where
  distinct : (m.builtins.toList.map (·.name)).Nodup
  room : m.builtins.size ≤ capacity
  /-- A builtin is found at its index, and nothing else is found. -/
  find : ∀ name i, m.findBuiltin? name = some i ↔ ∃ b, m.builtins[i]? = some b ∧ b.name = name
  /-- The index that a registration gives is that of the new builtin. -/
  index : ∀ name entry arity i after, registerBuiltin name entry arity m = .ok i after →
    ∃ function, after.builtins[i]? = some ⟨name, arity, function⟩
  builtin : ∀ b ∈ m.builtins, ∃ entry,
    m.heap.get? b.function = some (.function ⟨b.name, none, b.arity, .native entry⟩)
  module : ∀ name owner, m.findModule? name = some owner → ∃ script,
    m.heap.get? owner = some (.script script) ∧ script.name = name ∧ m.heap.Proper owner script
  fiber : ∃ f, m.heap.get? m.fiber = some (.fiber f)

/-! ## 2. What a step does -/

/-- What a step of a life comes down to. -/
inductive Hosted.Effect : Hosted → Hosted → Prop
  | quiet {m after : Machine} {held : List Handle} : m.QuietMove after →
      Effect ⟨m, held⟩ ⟨after, held⟩
  | registers {m after : Machine} {held : List Handle} : m.Registers after →
      Effect ⟨m, held⟩ ⟨after, held⟩
  | write {m : Machine} {held : List Handle} {h : Handle} {script : Script} (index : Nat)
      (value : Value) : m.heap.get? h = some (.script script) → Effect ⟨m, held⟩
        ⟨{ m with heap := m.heap.replace h (.script (script.setGlobal index value)) }, held⟩
  | addRoot {m : Machine} {held : List Handle} (h : Handle) :
      Effect ⟨m, held⟩ ⟨{ m with heap := m.heap.addRoot h }, h :: held⟩
  | removeRoot {m : Machine} {held : List Handle} {h : Handle} : h ∈ held →
      Effect ⟨m, held⟩ ⟨{ m with heap := m.heap.removeRoot h }, held.erase h⟩

theorem stateAfter_eq_heapAfter {α : Type} (body : HeapM α) (heap : Heap) :
    stateAfter body heap = heapAfter body heap := by
  unfold stateAfter heapAfter
  cases body heap <;> rfl

/-- Of all attributes, only the variables of modules are written. -/
theorem setAttribute_writes (receiver : Value) (name : String) (value : Value) (heap : Heap) :
    stateAfter (setAttribute receiver name value) heap = heap ∨
      ∃ h script index, receiver = .object h ∧ heap.get? h = some (.script script) ∧
        stateAfter (setAttribute receiver name value) heap =
          heap.replace h (.script (script.setGlobal index value)) := by
  have hends : Ends (setAttribute receiver name value) heap (.always fun after => after = heap ∨
      ∃ h script index, receiver = .object h ∧ heap.get? h = some (.script script) ∧
        after = heap.replace h (.script (script.setGlobal index value))) := by
    refine .get ?_
    cases receiver with
    | object h =>
      refine .read (fun o ho => ?_) fun e he => .inl rfl
      cases o with
      | string s | list l =>
        dsimp only
        split <;> exact .throw (.inl rfl)
      | script s =>
        refine .read (fun f hf => ?_) fun e he => .inl rfl
        cases f with
        | some f => exact .throw (.inl rfl)
        | none =>
          dsimp only
          split
          · next index _ =>
            exact .set (.inr ⟨h, s, index, rfl, Heap.get_eq_ok_iff.mp ho, rfl⟩)
          · exact .throw (.inl rfl)
      | _ => exact .throw (.inl rfl)
    | _ => exact .read (fun n hn => .throw (.inl rfl)) fun e he => .inl rfl
  rw [stateAfter_eq_heapAfter]
  exact hends.heapAfter

/-- A call of a core function makes quiet moves. -/
theorem callNative_quiet {host : String → Option (NativeM Unit)} {m : Machine} {function : Value}
    {args : List Value}
    (hcore : ∀ name, m.heap.entryPoint function args.length ≠ .ok (.host name)) (depth : Nat) :
    Goes Machine.QuietMove (callNative (.withHost host) depth function args) m := by
  cases depth with
  | zero => exact .refl
  | succ depth =>
    refine callNative_goes (fun _ _ h => h) fun entry base hentry => ?_
    cases entry with
    | core function => exact function.run_quiet _
    | host name => exact absurd hentry (hcore name)

namespace Hosted

theorem effects_of_quietMoves {m after : Machine} (held : List Handle)
    (h : Relation.ReflTransGen Machine.QuietMove m after) :
    Relation.ReflTransGen Effect ⟨m, held⟩ ⟨after, held⟩ := by
  induction h with
  | refl => exact .refl
  | tail _ hmove ih => exact ih.tail (.quiet hmove)

theorem Step.effects {host : String → Option (NativeM Unit)} {s t : Hosted} (h : Step host s t)
    (ht : s.machine.heap.Tidy) : Relation.ReflTransGen Effect s t := by
  cases h with
  | register op => exact .single (.registers (op.registers ht))
  | alloc o => exact .single (.quiet (.heap (.alloc o)))
  | newStringList items =>
    exact effects_of_quietMoves _ ((newStringList_quiet items).onHeap _)
  | @setAttribute m held receiver name value =>
    rw [stateAfter_onHeap]
    rcases setAttribute_writes receiver name value m.heap with
      hsame | ⟨h, script, index, -, hs, hw⟩
    · rw [hsame]
    · rw [hw]
      exact .single (.write index value hs)
  | collect => exact .single (.quiet (.heap .collect))
  | call depth function args hcore => exact effects_of_quietMoves _ (callNative_quiet hcore depth)
  | addRoot h => exact .single (.addRoot h)
  | removeRoot hh => exact .single (.removeRoot hh)

end Hosted

/-! ## 3. The invariant -/

/-- The invariant: every root is the registry's or one that the host holds, and each has its own. -/
structure Machine.Sound (m : Machine) (held : List Handle) : Prop where
  tidy : m.heap.Tidy
  roots : m.heap.roots.Perm (held ++ m.registered)
  distinct : (m.builtins.toList.map (·.name)).Nodup
  room : m.builtins.size ≤ m.builtinCapacity
  intact : m.Intact m.heap

namespace Machine.Sound

variable {m : Machine} {held : List Handle}

theorem registered_subset (hs : m.Sound held) : m.registered ⊆ m.heap.roots :=
  fun _ hh => hs.roots.symm.subset (List.mem_append_right _ hh)

/-- A change of the heap that leaves what is registered alone. -/
theorem of_keeps (hs : m.Sound held) {heap : Heap} (ht : heap.Tidy)
    (hroots : heap.roots = m.heap.roots) (hk : m.heap.Keeps heap) (written : String) :
    Machine.Sound { m with heap := heap, written := written } held := by
  have hi := hs.intact.of_keeps hs.registered_subset hk
  exact ⟨ht, hroots ▸ hs.roots, hs.distinct, hs.room, ⟨hi.builtin, hi.module, hi.fiber⟩⟩

theorem quiet (hs : m.Sound held) {after : Machine} (hq : m.QuietMove after) :
    after.Sound held := by
  obtain ⟨heap, written, rfl, ht, hroots, hk⟩ := hq.undisturbed hs.tidy
  exact hs.of_keeps ht hroots hk written

/-- A module is written. -/
theorem replace_script (hs : m.Sound held) {owner : Handle} {script script' : Script}
    (hget : m.heap.get? owner = some (.script script)) (hname : script'.name = script.name)
    (hproper : ∀ name, (name, owner) ∈ m.modules → m.heap.Proper owner script') :
    Machine.Sound { m with heap := m.heap.replace owner (.script script') } held := by
  have hi := hs.intact.replace_script hget hname hproper
  have hroots := m.heap.replace_roots owner (.script script')
  exact ⟨Heap.replace_tidy hs.tidy _ _, hroots ▸ hs.roots, hs.distinct, hs.room,
    ⟨hi.builtin, hi.module, hi.fiber⟩⟩

theorem proper (hs : m.Sound held) {name : String} {owner : Handle} {script : Script}
    (ho : (name, owner) ∈ m.modules) (hget : m.heap.get? owner = some (.script script)) :
    m.heap.Proper owner script := by
  obtain ⟨s, hs', -, hp⟩ := hs.intact.module name owner ho
  cases hget.symm.trans hs'
  exact hp

/-- With a new entry of the registry goes a new root. -/
theorem roots_insert {fiber h : Handle} {roots front back : List Handle}
    (hp : roots.Perm (held ++ fiber :: (front ++ back))) :
    (roots ++ [h]).Perm (held ++ fiber :: (front ++ h :: back)) := by
  have hold : held ++ fiber :: (front ++ back) = (held ++ fiber :: front) ++ back := by simp
  have hnew : held ++ fiber :: (front ++ h :: back) = (held ++ fiber :: front) ++ h :: back := by
    simp
  rw [hnew]
  exact (List.perm_append_singleton h roots).trans
    (((hold ▸ hp).cons h).trans List.perm_middle.symm)

theorem builtin_name_ne {name : String} (hname : m.findBuiltin? name = none) {b : Builtin}
    (hb : b ∈ m.builtins) : b.name ≠ name := by
  have hmiss := Array.findIdx?_eq_none_iff.mp hname b hb
  simpa using hmiss

/-- A native function that is there becomes a builtin. -/
theorem pushBuiltin (hs : m.Sound held) {function : Handle} {name : String} {arity : Arity}
    {entry : Symbol} (hname : m.findBuiltin? name = none)
    (hroom : m.builtins.size < m.builtinCapacity)
    (hf : m.heap.get? function = some (.function ⟨name, none, arity, .native entry⟩)) :
    Machine.Sound { m with
      heap := m.heap.addRoot function, builtins := m.builtins.push ⟨name, arity, function⟩ }
      held := by
  have hi : m.Intact (m.heap.addRoot function) := hs.intact.of_get? fun _ => rfl
  refine ⟨hs.tidy.of_cells rfl rfl, ?_, ?_, ?_, ⟨fun b hb => ?_, hi.module, hi.fiber⟩⟩
  · simpa [registered, Heap.addRoot] using roots_insert (h := function) hs.roots
  · simpa [List.nodup_append, hs.distinct] using fun b hb => builtin_name_ne hname hb
  · simpa using Nat.succ_le_of_lt hroom
  · rcases Array.mem_push.mp hb with hb | rfl
    · exact hi.builtin b hb
    · exact ⟨entry, hf⟩

/-- A module that is there and has nothing on it is registered. -/
theorem consModule (hs : m.Sound held) {owner : Handle} {name : String}
    (hget : m.heap.get? owner = some (.script (.ofName name))) :
    Machine.Sound { m with
      heap := m.heap.addRoot owner, modules := (name, owner) :: m.modules } held := by
  have hi : m.Intact (m.heap.addRoot owner) := hs.intact.of_get? fun _ => rfl
  refine ⟨hs.tidy.of_cells rfl rfl, roots_insert hs.roots, hs.distinct, hs.room,
    ⟨hi.builtin, fun k h hk => ?_, hi.fiber⟩⟩
  rcases List.mem_cons.mp hk with heq | hk
  · cases heq
    exact ⟨.ofName name, hget, rfl, List.nodup_nil, by simp [Script.ofName]⟩
  · exact hi.module k h hk

theorem registers (hs : m.Sound held) {after : Machine} (hr : m.Registers after) :
    after.Sound held := by
  -- All but one begin with an allocation, which is quiet.
  have halloc : ∀ {o : Object} {h : Handle} {heap : Heap}, m.heap.alloc o = (h, heap) →
      m.heap.QuietMove heap ∧ heap.get? h = some o := by
    intro o h heap ha
    have hmove : m.heap.QuietMove (m.heap.alloc o).2 := .alloc o
    have hnew := Heap.get?_alloc_new hs.tidy o
    rw [ha] at hmove hnew
    exact ⟨hmove, hnew⟩
  cases hr with
  | nothing => exact hs
  | builtin hname hroom ha =>
    obtain ⟨hmove, hnew⟩ := halloc ha
    exact (hs.quiet (.heap hmove)).pushBuiltin hname hroom hnew
  | module _ ha =>
    obtain ⟨hmove, hnew⟩ := halloc ha
    exact (hs.quiet (.heap hmove)).consModule hnew
  | @function owner function script name body arity heap hget hname ha hkept =>
    obtain ⟨hmove, hnew⟩ := halloc ha
    have hw : Machine.Sound { m with heap := heap.replace owner (.script { script with
        functions := script.functions.push function }) } held := by
      refine (hs.quiet (.heap hmove)).replace_script hkept rfl fun k hk => ?_
      -- The functions that were there outlive the allocation, and so do their names.
      have hkeep : ∀ h f, h ∈ script.functions.toList → m.heap.get? h = some (.function f) →
          heap.get? h = some (.function f) := by
        intro h f hh hf
        refine (hmove.undisturbed hs.tidy).2.2.function ?_ hf
        exact hs.intact.reaches_function hs.registered_subset hk hget hh
          (Heap.isLive_iff.mpr ⟨_, hf⟩)
      have hp := hs.proper hk hget
      refine (hp.of_functions hkeep).pushFunction hnew rfl ?_
      rw [hp.declaredNames_eq hkeep]
      exact hname
    exact hw.quiet (.heap (.measure owner))
  | @global owner script name value hget hname =>
    have hw : Machine.Sound { m with heap := m.heap.replace owner (.script { script with
        globals := script.globals.push ⟨name, value⟩ }) } held :=
      hs.replace_script hget rfl fun k hk => (hs.proper hk hget).pushGlobal hname
    exact hw.quiet (.heap (.measure owner))

theorem addRoot (hs : m.Sound held) (h : Handle) :
    Machine.Sound { m with heap := m.heap.addRoot h } (h :: held) := by
  have hi : m.Intact (m.heap.addRoot h) := hs.intact.of_get? fun _ => rfl
  have hroots := (List.perm_append_singleton h m.heap.roots).trans (hs.roots.cons h)
  exact ⟨hs.tidy.of_cells rfl rfl, hroots, hs.distinct, hs.room,
    ⟨hi.builtin, hi.module, hi.fiber⟩⟩

/-- A root of the host's is taken away, and the registry's roots stay. -/
theorem removeRoot (hs : m.Sound held) {h : Handle} (hh : h ∈ held) :
    Machine.Sound { m with heap := m.heap.removeRoot h } (held.erase h) := by
  have hi : m.Intact (m.heap.removeRoot h) := hs.intact.of_get? fun _ => rfl
  refine ⟨hs.tidy.of_cells rfl rfl, ?_, hs.distinct, hs.room, ⟨hi.builtin, hi.module, hi.fiber⟩⟩
  refine (m.heap.removeRoot_perm h).trans ?_
  show (m.heap.roots.erase h).Perm (held.erase h ++ m.registered)
  rw [← List.erase_append_left _ hh]
  exact hs.roots.erase h

theorem bare (settings : Settings) : (Machine.bare settings).Sound [] := by
  have ht := Heap.empty_tidy settings.tuning
  have hnew := Heap.get?_alloc_new ht (.fiber ⟨.empty, none⟩)
  have hroots := Heap.alloc_roots (.empty settings.tuning) (.fiber ⟨.empty, none⟩)
  refine ⟨(Heap.alloc_tidy ht _).of_cells rfl rfl, ?_, List.nodup_nil, Nat.zero_le _, ?_⟩
  · have hnone : (Heap.empty settings.tuning).roots = [] := rfl
    simp [Machine.bare, registered, Heap.addRoot, hroots, hnone]
  · exact ⟨by simp [Machine.bare], by simp [Machine.bare], ⟨_, hnew⟩⟩

end Machine.Sound

namespace Hosted

variable {host : String → Option (NativeM Unit)} {s t : Hosted}

theorem Effect.sound (h : Effect s t) (hs : s.machine.Sound s.held) :
    t.machine.Sound t.held := by
  cases h with
  | quiet hq => exact hs.quiet hq
  | registers hr => exact hs.registers hr
  | write index value hget =>
    refine hs.replace_script hget ?_ fun name ho => (hs.proper ho hget).setGlobal index value
    unfold Script.setGlobal
    split <;> rfl
  | addRoot h => exact hs.addRoot h
  | removeRoot hh => exact hs.removeRoot hh

/-- The room for builtins is as before, and so is every builtin at its index. -/
def Extends (s t : Hosted) : Prop :=
  t.machine.builtinCapacity = s.machine.builtinCapacity ∧
    ∀ (i : Nat) b, s.machine.builtins[i]? = some b → t.machine.builtins[i]? = some b

theorem Extends.refl (s : Hosted) : Extends s s :=
  ⟨rfl, fun _ _ hb => hb⟩

theorem Extends.trans {u : Hosted} (h : Extends s t) (h' : Extends t u) : Extends s u :=
  ⟨h'.1.trans h.1, fun i b hb => h'.2 i b (h.2 i b hb)⟩

theorem Effect.extends (h : Effect s t) : Extends s t := by
  cases h with
  | quiet hq =>
    cases hq with
    | heap _ => exact ⟨rfl, fun _ _ hb => hb⟩
    | stack _ _ => exact ⟨rfl, fun _ _ hb => hb⟩
    | write text =>
      unfold Machine.write
      split <;> exact ⟨rfl, fun _ _ hb => hb⟩
  | registers hr =>
    cases hr with
    | builtin _ _ _ =>
      refine ⟨rfl, fun i b hb => ?_⟩
      obtain ⟨hi, -⟩ := Array.getElem?_eq_some_iff.mp hb
      rw [Array.getElem?_push, if_neg (Nat.ne_of_lt hi), hb]
    | _ => exact ⟨rfl, fun _ _ hb => hb⟩
  | _ => exact ⟨rfl, fun _ _ hb => hb⟩

theorem sound_of_effects (h : Relation.ReflTransGen Effect s t) (hs : s.machine.Sound s.held) :
    t.machine.Sound t.held ∧ Extends s t := by
  induction h with
  | refl => exact ⟨hs, .refl s⟩
  | tail _ heffect ih => exact ⟨heffect.sound ih.1, ih.2.trans heffect.extends⟩

theorem Life.sound (h : Life host s t) (hs : s.machine.Sound s.held) :
    t.machine.Sound t.held ∧ Extends s t := by
  induction h with
  | refl => exact ⟨hs, .refl s⟩
  | tail _ hstep ih =>
    obtain ⟨hsound, hnext⟩ := sound_of_effects (hstep.effects ih.1.tidy) ih.1
    exact ⟨hsound, ih.2.trans hnext⟩

end Hosted

/-! ## 4. The registry is in order -/

namespace Machine

variable {m : Machine}

/-- Under distinct names a builtin is found exactly where it is. -/
theorem findBuiltin?_eq_some_iff (hd : (m.builtins.toList.map (·.name)).Nodup) {name : String}
    {i : Nat} : m.findBuiltin? name = some i ↔ ∃ b, m.builtins[i]? = some b ∧ b.name = name := by
  unfold findBuiltin?
  rw [Array.findIdx?_eq_some_iff_getElem]
  constructor
  · rintro ⟨hi, hname, -⟩
    exact ⟨m.builtins[i], Array.getElem?_eq_getElem hi, by simpa using hname⟩
  · rintro ⟨b, hb, rfl⟩
    obtain ⟨hi, rfl⟩ := Array.getElem?_eq_some_iff.mp hb
    refine ⟨hi, by simp, fun j hj hname => ?_⟩
    have hsame : (m.builtins.toList.map (·.name))[j]? = (m.builtins.toList.map (·.name))[i]? := by
      simpa [hi, Nat.lt_trans hj hi] using hname
    have hlt : j < (m.builtins.toList.map (·.name)).length := by simpa using Nat.lt_trans hj hi
    exact Nat.ne_of_lt hj ((List.getElem?_inj hlt hd).mp hsame)

theorem registerBuiltin_index {name : String} {entry : Symbol} {arity : Arity} {i : Nat}
    {after : Machine} (h : registerBuiltin name entry arity m = .ok i after) :
    ∃ function, after.builtins[i]? = some ⟨name, arity, function⟩ := by
  rw [registerBuiltin_eq] at h
  split at h
  · cases h
  · split at h
    · cases h
    · cases h
      exact ⟨_, Array.getElem?_push_size⟩

theorem Sound.registry {held : List Handle} (hs : m.Sound held) :
    m.Registry m.builtinCapacity where
  distinct := hs.distinct
  room := hs.room
  find := fun _ _ => findBuiltin?_eq_some_iff hs.distinct
  index := fun _ _ _ _ _ => registerBuiltin_index
  builtin := hs.intact.builtin
  module := by
    intro name owner ho
    obtain ⟨front, back, hsplit, -⟩ := List.lookup_eq_some_iff.mp ho
    exact hs.intact.module name owner (by simp [hsplit])
  fiber := hs.intact.fiber

end Machine

/-- In every life of a machine, whatever its settings are, the registry is in order at every moment,
and a builtin stays at its index from then on. -/
theorem Hosted.registry_of_life {host : String → Option (NativeM Unit)} {settings : Settings}
    {s : Hosted} (h : Life host (.fresh settings) s) :
    s.machine.Registry settings.builtinCapacity ∧
      ∀ t, Life host s t → ∀ (i : Nat) b, s.machine.builtins[i]? = some b →
        t.machine.builtins[i]? = some b := by
  obtain ⟨hs, hcapacity, -⟩ := h.sound (.bare settings)
  have hroom : s.machine.builtinCapacity = settings.builtinCapacity := hcapacity
  exact ⟨hroom ▸ hs.registry, fun t ht => (ht.sound hs).2.2⟩

/-- Registrations carried out and refused, a root that host and registry both have, of which the
host takes away its own, a call, and a collection. -/
theorem Hosted.registry_of_life_mixed :
    let settings : Settings := ⟨none, .standard, 1⟩
    let host : String → Option (NativeM Unit) := fun _ => none
    let setup : List SetupOp :=
      [ .registerBuiltin "is_null" (.core (.isKind .null)) (.fixed 1),
        .registerBuiltin "is_null" (.host "other") .variadic,
        .registerBuiltin "is_bool" (.core (.isKind .bool)) (.fixed 1),
        .createModule "geometry",
        .declareFunction ⟨2, 0⟩ "area" (.code [1, 2]) (.fixed 2),
        .declareGlobal ⟨2, 0⟩ "area" .null,
        .declareGlobal ⟨2, 0⟩ "unit" .null ]
    let m := setup.foldl (fun m op => op.after m) (.bare settings)
    let called := stateAfter (callNative (.withHost host) 1 (.object ⟨1, 0⟩) [.null]) m
    let s : Hosted := ⟨{ called with
      heap := ((called.heap.addRoot ⟨2, 0⟩).removeRoot ⟨2, 0⟩).collect.2 }, []⟩
    Life host (.fresh settings) s ∧ s.machine.builtins = #[⟨"is_null", .fixed 1, ⟨1, 0⟩⟩] ∧
      s.machine.modules = [("geometry", ⟨2, 0⟩)] ∧ s.machine.Registry 1 ∧
      ∀ t, Life host s t → ∀ (i : Nat) b, s.machine.builtins[i]? = some b →
        t.machine.builtins[i]? = some b := by
  intro settings host setup m called s
  have hentry : m.heap.entryPoint (.object ⟨1, 0⟩) 1 = .ok (.core (.isKind .null)) := by
    decide +kernel
  have hsetup : ∀ (ops : List SetupOp) (m : Machine),
      Life host ⟨m, []⟩ ⟨ops.foldl (fun m op => op.after m) m, []⟩ := by
    intro ops
    induction ops with
    | nil => exact fun m => .refl
    | cons op ops ih => exact fun m => (ih (op.after m)).head (.register op)
  have hcalled : Life host (.fresh settings) ⟨called, []⟩ := by
    refine (hsetup setup (.bare settings)).tail (.call 1 _ _ fun name hname => ?_)
    cases hentry.symm.trans hname
  have hroot : ∀ (m : Machine) (h : Handle), Life host ⟨m, []⟩ ⟨{ m with
      heap := ((m.heap.addRoot h).removeRoot h).collect.2 }, []⟩ := by
    intro m h
    have hremove : Step host ⟨{ m with heap := m.heap.addRoot h }, [h]⟩
        ⟨{ m with heap := (m.heap.addRoot h).removeRoot h }, [h].erase h⟩ :=
      .removeRoot (List.mem_singleton_self h)
    rw [List.erase_cons_head] at hremove
    exact ((Relation.ReflTransGen.single (.addRoot h)).tail hremove).tail .collect
  have hlife : Life host (.fresh settings) s := hcalled.trans (hroot called ⟨2, 0⟩)
  exact ⟨hlife, by decide +kernel, by decide +kernel, registry_of_life hlife⟩

end ScriptMachine
