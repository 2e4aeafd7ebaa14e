import ScriptMachine.Proofs.Machine.Life
import ScriptMachine.Proofs.Machine.Window

/-!
# The discipline of native calls

A machine that nobody has tampered with holds the root of its fiber. On such a machine native code
that keeps to its window can allocate and collect as it likes, and so can the code that it calls.
The core functions and the functions of a session are of this kind.

Main definitions:
- `Machine.Held`: a machine that is ready and holds the root of its fiber.
- `Careful`: native code that keeps to its window, whatever it is called for and wherever it calls.

Results:
1. `Hosted.Life.held`: a machine is held throughout its life.
2. `wellBehaved_of_careful`, `careful_sessionLinkage`: on such a machine every call of careful code
   is well-behaved, and the functions of a session are careful.
3. `callNative_discipline`: what the two sides of a well-behaved call can count on.
-/

namespace ScriptMachine

open Machine

/-! ## 1. Machines that hold their fiber -/

/-- The machine has a fiber to call on, and holds a root of it. -/
structure Machine.Held (m : Machine) : Prop where
  ready : m.Ready
  rooted : m.fiber ∈ m.heap.roots

theorem Machine.Sound.held {m : Machine} {held : List Handle} (hs : m.Sound held) : m.Held where
  ready := ⟨hs.tidy, hs.intact.fiber⟩
  rooted := hs.registered_subset List.mem_cons_self

/-- From its beginning and whatever happens, a machine is ready for calls. -/
theorem Hosted.Life.held {host : String → Option (NativeM Unit)} {settings : Settings} {s : Hosted}
    (h : Life host (.fresh settings) s) : s.machine.Held :=
  (h.sound (.bare settings)).1.held

section Moves

variable {m after : Machine}

theorem Machine.QuietMove.held (hq : m.QuietMove after) (hm : m.Held) : after.Held := by
  obtain ⟨f, hf⟩ := hm.ready.fiber
  cases hq with
  | heap hq =>
    obtain ⟨ht, hroots, hkeeps⟩ := hq.undisturbed hm.ready.tidy
    have hlive : m.heap.isLive m.fiber = true := Heap.isLive_iff.mpr ⟨_, hf⟩
    obtain ⟨o, ho, hkind, -⟩ := hkeeps m.fiber _ (.start hm.rooted hlive) hf
    cases o with
    | fiber g => exact ⟨⟨ht, g, ho⟩, hroots ▸ hm.rooted⟩
    | _ => cases hkind
  | stack stack hg =>
    refine ⟨hm.ready.withStack hg stack, ?_⟩
    show m.fiber ∈ (m.heap.replace m.fiber _).roots
    rw [Heap.replace_roots]
    exact hm.rooted
  | write text =>
    unfold Machine.write
    split
    · exact ⟨⟨hm.ready.tidy, hm.ready.fiber⟩, hm.rooted⟩
    · exact hm

theorem Machine.Held.of_quietMoves (hq : Relation.ReflTransGen QuietMove m after) (hm : m.Held) :
    after.Held := by
  induction hq with
  | refl => exact hm
  | tail _ hmove ih => exact hmove.held ih

/-- Only the heap changes, and the fiber on it does not. -/
theorem Machine.Held.ownStep (hm : m.Held) {heap : Heap} (hmove : m.heap.Move heap)
    (hkeep : ∀ o, m.heap.get? m.fiber = some o → heap.get? m.fiber = some o) :
    m.OwnStep { m with heap := heap } where
  fiber := rfl
  heap := .inr hmove
  unwritten := by
    intro _
    obtain ⟨f, hf⟩ := hm.ready.fiber
    rw [stack?_eq hf]
    exact stack?_eq (hkeep _ hf)
  held := .inl hm.rooted

theorem Machine.Held.ownStep_alloc (hm : m.Held) (o : Object) :
    m.OwnStep { m with heap := (m.heap.alloc o).2 } :=
  hm.ownStep (.alloc o) fun _ hget =>
    Heap.get?_alloc_of_anchored hm.ready.tidy o (List.mem_append_left _ hm.rooted) hget

/-- A collection leaves a fiber that is rooted. -/
theorem Machine.Held.ownStep_collect (hm : m.Held) :
    m.OwnStep { m with heap := m.heap.collect.2 } := by
  refine hm.ownStep .collect fun o hget => (Heap.get?_collect hm.ready.tidy).mpr ⟨hget, ?_⟩
  exact .start (List.mem_append_left _ hm.rooted) (Heap.isLive_iff.mpr ⟨o, hget⟩)

theorem Machine.Held.ownStep_write (hm : m.Held) (text : String) : m.OwnStep (m.write text) := by
  unfold Machine.write
  split
  · exact ⟨rfl, .inl rfl, fun _ => rfl, .inl hm.rooted⟩
  · exact ⟨rfl, .inl rfl, fun _ => rfl, .inl hm.rooted⟩

end Moves

/-! ## 2. Careful code -/

/-- The calls that can be made in the window: they are `good`, and the machine is held after them if
it was before. -/
structure Frame.Dependable (good : Value → List Value → Machine → Prop) (frame : Frame) : Prop where
  good : ∀ function args m, m.Held → good function args m
  held : ∀ function args m after, m.Held → Returned (frame.call function args) m after → after.Held

section Code

variable {α β : Type}

/-- On a machine that is held, and with calls that can be depended on, the code keeps to its
window. -/
def Careful (body : NativeM α) : Prop :=
  ∀ good frame m after, frame.Dependable good → m.Held → Returned (body frame) m after →
    after.Held ∧ ∃ puts, NativeRun good frame m puts after

/-- A sequence ends where its first part fails, or where its second part ends. -/
theorem Returned.bind_cases {body : MachineM α} {f : α → MachineM β} {m after : Machine}
    (h : Returned (body >>= f) m after) :
    Returned body m after ∨ ∃ a s, body m = .ok a s ∧ Returned (f a) s after := by
  have hbind : (body >>= f) m = EStateM.bind body f m := rfl
  unfold Returned at h
  rw [hbind] at h
  unfold EStateM.bind at h
  cases hbody : body m with
  | ok a s =>
    rw [hbody] at h
    exact .inr ⟨a, s, rfl, h⟩
  | error e s =>
    rw [hbody] at h
    rcases h with ⟨a, h⟩ | ⟨e, h⟩
    · cases h
    · cases h
      exact .inl (.inr ⟨e, hbody⟩)

theorem Returned.of_attempt {body : MachineM α} {m after : Machine}
    (h : Returned (attempt body) m after) : Returned body m after := by
  have hcaught := h.stateAfter_eq
  unfold Returned attempt at h
  unfold stateAfter attempt at hcaught
  cases hbody : body m with
  | ok a s =>
    rw [hbody] at hcaught
    exact .inl ⟨a, hcaught ▸ hbody⟩
  | error failure s =>
    rw [hbody] at h hcaught
    cases failure with
    | error e => exact .inr ⟨e, hcaught ▸ hbody⟩
    | fault fault => simp at h

theorem NativeRun.trans {good : Value → List Value → Machine → Prop} {frame : Frame}
    {m s t : Machine} {puts more : List Value} (h : NativeRun good frame m puts s)
    (hmore : NativeRun good frame s more t) : NativeRun good frame m (puts ++ more) t := by
  induction hmore with
  | start => rwa [List.append_nil]
  | own _ hstep ih => exact .own ih hstep
  | put v _ hput ih =>
    rw [← List.append_assoc]
    exact .put v ih hput
  | call function args _ hgood hreturned ih => exact .call function args ih hgood hreturned

namespace Careful

/-- Code that leaves the machine as it is. -/
theorem of_unchanged {body : NativeM α}
    (h : ∀ frame m, stateAfter (body frame) m = m) : Careful body := by
  intro good frame m after _ hm hreturned
  rw [← hreturned.stateAfter_eq, h]
  exact ⟨hm, [], .start⟩

/-- Code that takes one step of its own. -/
theorem of_ownStep {body : NativeM α} (hquiet : NativeByMoves QuietMove body)
    (h : ∀ frame (m : Machine), m.Held → m.OwnStep (stateAfter (body frame) m)) : Careful body := by
  intro good frame m after _ hm hreturned
  rw [← hreturned.stateAfter_eq]
  exact ⟨.of_quietMoves (hquiet frame m) hm, [], .own .start (h frame m hm)⟩

theorem bind {body : NativeM α} {f : α → NativeM β} (hb : Careful body)
    (hf : ∀ a, Careful (f a)) : Careful (body >>= f) := by
  intro good frame m after hframe hm hreturned
  rcases Returned.bind_cases hreturned with hfailed | ⟨a, s, hbody, hrest⟩
  · exact hb good frame m after hframe hm hfailed
  · obtain ⟨hs, puts, hrun⟩ := hb good frame m s hframe hm (.inl ⟨a, hbody⟩)
    obtain ⟨hafter, more, hmore⟩ := hf a good frame s after hframe hs hrest
    exact ⟨hafter, puts ++ more, hrun.trans hmore⟩

theorem result (v : Value) : Careful (returnValue v) := by
  intro good frame m after _ hm hreturned
  obtain ⟨f, hf⟩ := hm.ready.fiber
  have hput := returnValue_of_get? hf frame v
  obtain rfl := hreturned.stateAfter_eq
  refine ⟨.of_quietMoves (returnValue_quiet v frame m) hm, [] ++ [v], .put v .start ?_⟩
  rw [stateAfter_of_ok hput, hput]

end Careful

theorem carefulRules : CallRules Careful where
  pure a := .of_unchanged fun _ _ => rfl
  throw e := .of_unchanged fun _ _ => rfl
  bind := .bind
  frame := .of_unchanged fun _ _ => rfl
  get := .of_unchanged fun _ _ => rfl
  read x := .of_unchanged fun _ _ => by cases x <;> rfl
  returnValue := .result
  newObject o := .of_ownStep (quietRules.newObject o) fun _ _ hm => hm.ownStep_alloc o
  collectNow := .of_ownStep quietRules.collectNow fun _ _ hm => hm.ownStep_collect
  print text := .of_ownStep (quietRules.print text) fun _ _ hm => hm.ownStep_write text
  call function args := fun _ _ m after hframe hm hreturned =>
    ⟨hframe.held function args m after hm hreturned, [],
      .call function args .start (hframe.good function args m hm) hreturned⟩
  tryCall function args := fun _ _ m after hframe hm hreturned =>
    ⟨hframe.held function args m after hm hreturned.of_attempt, [],
      .call function args .start (hframe.good function args m hm) hreturned.of_attempt⟩

end Code

/-- The functions of a session are careful. -/
theorem careful_sessionLinkage (entry : Symbol) : Careful (sessionLinkage entry) :=
  carefulRules.sessionLinkage entry

/-- Calls of careful code are well-behaved, and leave the machine held. -/
theorem wellBehaved_of_careful {link : Linkage} (hl : ∀ entry, Careful (link entry)) (depth : Nat) :
    ∀ function args m, m.Held → WellBehaved link depth function args m ∧
      ∀ after, Returned (callNative link depth function args) m after → after.Held := by
  induction depth with
  | zero =>
    refine fun function args m _ => ⟨trivial, ?_⟩
    rintro after (⟨v, h⟩ | ⟨e, h⟩)
    · cases h
    · cases h
  | succ depth ih =>
    intro function args m hm
    have hrun : ∀ entry old s,
        Returned (link entry (callFrame link depth old args)) (m.opened args) s →
        s.Held ∧ ∃ puts, CallRun link depth args old m puts s := by
      intro entry old s hreturned
      refine hl entry _ _ _ _ ⟨?_, ?_⟩ (.of_quietMoves (pushWindow_quiet args m) hm) hreturned
      · exact fun function args m hm => (ih function args m hm).1
      · exact fun function args m after hm => (ih function args m hm).2 after
    refine ⟨fun entry old s _ _ hreturned => (hrun entry old s hreturned).2, ?_⟩
    intro after hreturned
    obtain ⟨f, hf⟩ := hm.ready.fiber
    rcases returned_callNative (stack?_eq hf) hreturned with rfl | ⟨entry, s, -, hbody, rfl⟩
    · exact hm
    · exact .of_quietMoves (popWindow_quiet _ s) (hrun entry _ s hbody).1

/-! ## 3. Calls -/

/-- A well-behaved call on any machine, of any function with any arguments, and with calls inside as
deep as they may go: its arguments are in its window until it returns, its result is the last one
that it has set, and after it the stack is what it was, with or without an error. -/
theorem callNative_discipline {link : Linkage} {depth : Nat} {function : Value} {args : List Value}
    {m : Machine} (hm : m.Ready) (hw : WellBehaved link (depth + 1) function args m) :
    ∃ old, m.stack? = some old ∧ CallDiscipline link depth function args old m := by
  obtain ⟨f, hf⟩ := hm.fiber
  have hinner := callNative_stackKept link depth
  exact ⟨_, stack?_eq hf, callDiscipline_of_keepsStack hinner hm (stack?_eq hf) hw⟩

/-- What a computation gives, unless it fails. -/
def resultOf? {ε σ α : Type} : EStateM.Result ε σ α → Option α
  | .ok a _ => some a
  | .error .. => none

theorem exists_of_resultOf? {ε σ α : Type} {r : EStateM.Result ε σ α} {a : α}
    (h : resultOf? r = some a) : ∃ s, r = .ok a s := by
  cases r with
  | ok b s =>
    cases h
    exact ⟨s, rfl⟩
  | error e s => cases h

/-- A function that catches errors calls one that does not, and this one calls one that sets its
result and fails. Both windows are closed by the error, and the message is the result. -/
theorem callNative_discipline_of_failure :
    let m := (SetupOp.registerBuiltin "fail_late" (.host "fail_late") .variadic).after
      ((SetupOp.registerBuiltin "apply" (.host "apply") .variadic).after
        ((SetupOp.registerBuiltin "try_apply" (.host "try_apply") .variadic).after
          (.bare .standard)))
    let tryApply := Value.object ⟨1, 0⟩
    let args := [Value.object ⟨2, 0⟩, .object ⟨3, 0⟩]
    m.Ready ∧ WellBehaved sessionLinkage 3 tryApply args m ∧
      (∃ after, callNative sessionLinkage 3 tryApply args m = .ok (.object ⟨4, 0⟩) after) ∧
      ∃ old, m.stack? = some old ∧ CallDiscipline sessionLinkage 2 tryApply args old m := by
  intro m tryApply args
  have hlife : Hosted.Life hostFunction? (.fresh .standard) ⟨m, []⟩ :=
    ((Relation.ReflTransGen.single (.register _)).tail (.register _)).tail (.register _)
  have hm : m.Held := hlife.held
  have hw := (wellBehaved_of_careful careful_sessionLinkage 3 tryApply args m hm).1
  refine ⟨hm.ready, hw, ?_, callNative_discipline hm.ready hw⟩
  have hresult : resultOf? (callNative sessionLinkage 3 tryApply args m) =
      some (.object ⟨4, 0⟩) := by
    decide +kernel
  exact exists_of_resultOf? hresult

end ScriptMachine
