import ScriptMachine.Proofs.Machine.Accounting
import ScriptMachine.Proofs.Machine.Intact

/-!
# The windows of native calls

Windows are stacked: a call puts its own on top, works in it, makes further calls that do the same,
and takes it away. Native code could reach the whole stack. What is proved here is about code that
does not: it touches the stack only by setting its result and by calling, and whatever else it does
to the machine, the stack is not what it writes. Collections may run at any moment. They leave the
fiber while the machine holds its root, and with the fiber everything on its stack.

Main definitions:
- `Machine.stack?`, `Machine.Ready`: the values on the stack, and a machine that can be called.
- `Machine.OwnStep`: a step that native code takes on its own account.
- `NativeRun`: what code that keeps to its window may have done so far, with the results it has set.
- `WellBehaved`, `CallRun`: a call whose code does no more than this, nor does that of the calls it
  makes, and how far its code may have come.
- `Machine.StackKept`: the contract of calls. `Window`: the invariant of a run.
- `CallDiscipline`: what the two sides of a call can count on.

Results:
1. `OwnStep.stackKept`: no step that code takes on its own takes anything off the stack.
2. `NativeRun.window`: what holds in the window throughout, if the calls keep their contract.
3. `callNative_stackKept`: calls keep it, however deep they go.
-/

namespace ScriptMachine

/-! ## 1. The stack -/

namespace Machine

/-- The values on the stack of the machine's fiber. -/
def stack? (m : Machine) : Option (List Value) :=
  match m.heap.get? m.fiber with
  | some (.fiber f) => some f.stack.toList
  | _ => none

theorem stack?_eq {m : Machine} {f : Fiber} (hf : m.heap.get? m.fiber = some (.fiber f)) :
    m.stack? = some f.stack.toList := by
  unfold stack?
  rw [hf]

theorem stack?_eq_some {m : Machine} {stack : List Value} (hs : m.stack? = some stack) :
    ∃ f, m.heap.get? m.fiber = some (.fiber f) ∧ f.stack.toList = stack := by
  unfold stack? at hs
  split at hs
  · next f hf => exact ⟨f, hf, Option.some.inj hs⟩
  · cases hs

/-- The machine has a fiber to call on. -/
structure Ready (m : Machine) : Prop where
  tidy : m.heap.Tidy
  fiber : ∃ f, m.heap.get? m.fiber = some (.fiber f)

theorem activeFiber_of_get? {m : Machine} {f : Fiber}
    (hf : m.heap.get? m.fiber = some (.fiber f)) : m.activeFiber = .ok f := by
  unfold activeFiber
  rw [Heap.get_eq_ok_iff.mpr hf]
  rfl

end Machine

namespace Heap

variable {heap after : Heap}

theorem isLive_remeasure (heap : Heap) (h k : Handle) :
    (heap.remeasure h).isLive k = heap.isLive k := by
  unfold isLive
  rw [get?_remeasure]

/-- What has a root survives every elementary change, also one that takes the root away. -/
theorem Move.isLive_of_root (hmove : heap.Move after) (ht : heap.Tidy) {h : Handle}
    (hroot : h ∈ heap.roots) (hl : heap.isLive h = true) : after.isLive h = true := by
  have hanchor : h ∈ heap.anchors := List.mem_append_left _ hroot
  cases hmove with
  | alloc x =>
    obtain ⟨o, ho⟩ := isLive_iff.mp hl
    exact isLive_iff.mpr ⟨o, get?_alloc_of_anchored ht x hanchor ho⟩
  | replace k x => rwa [isLive_replace]
  | remeasure k => rwa [isLive_remeasure]
  | anchor roots pins => exact hl
  | collect => exact (isLive_collect ht).mpr (.start hanchor hl)

/-- What survives an elementary change keeps what it holds. It need not be known what kept it. -/
theorem Move.isLive_child (hmove : heap.Move after) (ht : heap.Tidy) {h k : Handle} {o : Object}
    (ho : heap.get? h = some o) (hl : after.isLive h = true) (hk : k ∈ o.children)
    (hkl : heap.isLive k = true) : after.isLive k = true := by
  cases hmove with
  | alloc x => exact (get?_alloc_of_isLive ht x ho hl).2 k hk hkl
  | replace j x => rwa [isLive_replace]
  | remeasure j => rwa [isLive_remeasure]
  | anchor roots pins => exact hkl
  | collect => exact (isLive_collect ht).mpr (.child ((isLive_collect ht).mp hl) ho hk hkl)

end Heap

/-! ## 2. Steps of native code -/

namespace Machine

/-- A step that native code takes on its own account. It makes any elementary change to the heap, a
collection among them, and does what it likes to the rest of the machine. It does not write the
stack. While the machine holds a root of its fiber that is all; code that has taken this root away
must see to it that the fiber stays. -/
structure OwnStep (m after : Machine) : Prop where
  fiber : after.fiber = m.fiber
  heap : m.HeapMove after
  unwritten : after.heap.isLive m.fiber = true → after.stack? = m.stack?
  held : m.fiber ∈ m.heap.roots ∨ after.heap.isLive m.fiber = true

/-- The contract of calls: the machine is ready again, the stack is what it was, and what was on it
is still there. -/
structure StackKept (m after : Machine) : Prop where
  ready : after.Ready
  fiber : after.fiber = m.fiber
  stack : after.stack? = m.stack?
  live : ∀ stack k, m.stack? = some stack → .object k ∈ stack → m.heap.isLive k = true →
    after.heap.isLive k = true

theorem StackKept.refl {m : Machine} (hm : m.Ready) : m.StackKept m :=
  ⟨hm, rfl, rfl, fun _ _ _ _ hl => hl⟩

theorem HeapMove.tidy {m after : Machine} (hmove : m.HeapMove after) (ht : m.heap.Tidy) :
    after.heap.Tidy := by
  rcases hmove with hsame | hmove
  · rw [hsame]
    exact ht
  · exact hmove.tidy ht

/-- No step of native code takes the fiber away, and what is on the stack stays with it. -/
theorem OwnStep.stackKept {m after : Machine} (hstep : m.OwnStep after) (hm : m.Ready) :
    m.StackKept after := by
  obtain ⟨f, hf⟩ := hm.fiber
  have hlive : after.heap.isLive m.fiber = true := by
    rcases hstep.held, hstep.heap with ⟨hroot | hlive, hsame | hmove⟩
    · rw [hsame]
      exact Heap.isLive_iff.mpr ⟨_, hf⟩
    · exact hmove.isLive_of_root hm.tidy hroot (Heap.isLive_iff.mpr ⟨_, hf⟩)
    · exact hlive
    · exact hlive
  have hstack := hstep.unwritten hlive
  refine ⟨⟨hstep.heap.tidy hm.tidy, ?_⟩, hstep.fiber, hstack, fun stack k hs hk hl => ?_⟩
  · obtain ⟨g, hg, -⟩ := stack?_eq_some (hstack.trans (stack?_eq hf))
    exact ⟨g, hg⟩
  · obtain rfl : f.stack.toList = stack := Option.some.inj ((stack?_eq hf).symm.trans hs)
    have hchild : k ∈ (Object.fiber f).children :=
      List.mem_append_left _ (List.mem_filterMap.mpr ⟨_, hk, rfl⟩)
    rcases hstep.heap with hsame | hmove
    · rwa [hsame]
    · exact hmove.isLive_child hm.tidy hf hlive hchild hl

/-- The machine with a window for these arguments open. -/
def opened (m : Machine) (args : List Value) : Machine :=
  stateAfter (pushWindow args) m

end Machine

open Machine

/-- The operation has come to an end, with a result or with an error. A fault is no end: the
process is gone. -/
def Returned {α : Type} (body : MachineM α) (m after : Machine) : Prop :=
  (∃ a, body m = .ok a after) ∨ ∃ e, body m = .error (.error e) after

/-- `NativeRun good frame opened puts s`: code in the window of `frame`, started on `opened`, may
have come to `s`, having set the results `puts` one after the other. The calls it made were
`good`. -/
inductive NativeRun (good : Value → List Value → Machine → Prop) (frame : Frame)
    (opened : Machine) : List Value → Machine → Prop
  | start : NativeRun good frame opened [] opened
  | own {puts : List Value} {s after : Machine} : NativeRun good frame opened puts s →
      s.OwnStep after → NativeRun good frame opened puts after
  | put {puts : List Value} {s after : Machine} (v : Value) : NativeRun good frame opened puts s →
      returnValue v frame s = .ok () after → NativeRun good frame opened (puts ++ [v]) after
  | call {puts : List Value} {s after : Machine} (function : Value) (args : List Value) :
      NativeRun good frame opened puts s → good function args s →
      Returned (frame.call function args) s after → NativeRun good frame opened puts after

/-- The window of a call that is made while `old` is on the stack. -/
def callFrame (link : Linkage) (depth : Nat) (old args : List Value) : Frame :=
  ⟨old.length, args.length, callNative link depth⟩

/-- A call whose code touches the stack by setting its result and by further such calls only. This
is asked of what the call does on this machine; on another the same code may do otherwise. -/
def WellBehaved (link : Linkage) : Nat → Value → List Value → Machine → Prop
  | 0, _, _, _ => True
  | depth + 1, function, args, m => ∀ entry old s,
      m.heap.entryPoint function args.length = .ok entry → m.stack? = some old →
      Returned (link entry (callFrame link depth old args)) (m.opened args) s →
      ∃ puts, NativeRun (WellBehaved link depth) (callFrame link depth old args) (m.opened args)
        puts s

/-- The code of a call that is made while `old` is on the stack of `m` may have come to `s`, having
set the results `puts`. -/
abbrev CallRun (link : Linkage) (depth : Nat) (args old : List Value) (m : Machine)
    (puts : List Value) (s : Machine) : Prop :=
  NativeRun (WellBehaved link depth) (callFrame link depth old args) (m.opened args) puts s

/-! ## 3. Writes to the stack -/

section Writes

variable {m : Machine} {f : Fiber} (hf : m.heap.get? m.fiber = some (.fiber f))
include hf

theorem get?_withStack (stack : Buffer Value) :
    (m.withStack f stack).heap.get? m.fiber = some (.fiber { f with stack := stack }) := by
  show (m.heap.replace m.fiber _).get? m.fiber = _
  rw [Heap.get?_replace hf, if_pos rfl]

theorem stack?_withStack (stack : Buffer Value) :
    (m.withStack f stack).stack? = some stack.toList :=
  stack?_eq (get?_withStack hf stack)

omit hf in
theorem isLive_withStack (stack : Buffer Value) (k : Handle) :
    (m.withStack f stack).heap.isLive k = m.heap.isLive k :=
  Heap.isLive_replace ..

theorem Machine.Ready.withStack (hm : m.Ready) (stack : Buffer Value) :
    (m.withStack f stack).Ready where
  tidy := Heap.replace_tidy hm.tidy _ _
  fiber := ⟨_, get?_withStack hf stack⟩

theorem returnValue_of_get? (frame : Frame) (v : Value) :
    returnValue v frame m = .ok () (m.withStack f (f.stack.set frame.base v)) := by
  show (liftM m.activeFiber >>= fun f => set (m.withStack f (f.stack.set frame.base v)) :
    MachineM Unit) m = _
  rw [activeFiber_of_get? hf]
  rfl

end Writes

theorem stack?_remeasure (m : Machine) :
    ({ m with heap := m.heap.remeasure m.fiber } : Machine).stack? = m.stack? := by
  unfold Machine.stack?
  dsimp only
  rw [Heap.get?_remeasure]

theorem Machine.Ready.remeasure {m : Machine} (hm : m.Ready) :
    ({ m with heap := m.heap.remeasure m.fiber } : Machine).Ready where
  tidy := Heap.remeasure_tidy hm.tidy _
  fiber := by
    obtain ⟨f, hf⟩ := hm.fiber
    exact ⟨f, by rw [Heap.get?_remeasure, hf]⟩

/-- What holds of a window on top of `old` in the course of a run. -/
structure Window (old args : List Value) (opened : Machine) (puts : List Value) (s : Machine) :
    Prop where
  ready : s.Ready
  fiber : s.fiber = opened.fiber
  stack : s.stack? = some (old ++ puts.getLastD .null :: args)
  live : ∀ k, .object k ∈ old ++ args → opened.heap.isLive k = true → s.heap.isLive k = true

namespace Window

variable {old args puts : List Value} {opened s : Machine}

theorem kept (hw : Window old args opened puts s) {after : Machine} (hk : s.StackKept after) :
    Window old args opened puts after where
  ready := hk.ready
  fiber := hk.fiber.trans hw.fiber
  stack := hk.stack.trans hw.stack
  live := by
    intro k hmem hl
    refine hk.live _ k hw.stack ?_ (hw.live k hmem hl)
    rcases List.mem_append.mp hmem with h | h
    · exact List.mem_append_left _ h
    · exact List.mem_append_right _ (List.mem_cons_of_mem _ h)

theorem put (hw : Window old args opened puts s) {frame : Frame} (hbase : frame.base = old.length)
    {v : Value} {after : Machine} (hput : returnValue v frame s = .ok () after) :
    Window old args opened (puts ++ [v]) after := by
  obtain ⟨f, hf, hstack⟩ := stack?_eq_some hw.stack
  obtain rfl : s.withStack f (f.stack.set frame.base v) = after := by
    rw [returnValue_of_get? hf] at hput
    cases hput
    rfl
  refine ⟨hw.ready.withStack hf _, hw.fiber, ?_, fun k hmem hl => ?_⟩
  · rw [stack?_withStack hf, Buffer.toList_set, hstack, hbase]
    simp
  · rw [isLive_withStack]
    exact hw.live k hmem hl

/-- Arguments are read where they were put. -/
theorem argument (hw : Window old args opened puts s) {frame : Frame}
    (hbase : frame.base = old.length) (hargc : frame.argc = args.length) {i : Nat} {v : Value}
    (hi : args[i]? = some v) : ScriptMachine.argument (i + 1) frame s = .ok v s := by
  obtain ⟨f, hf, hstack⟩ := stack?_eq_some hw.stack
  have hlt : i < args.length := (List.getElem?_eq_some_iff.mp hi).1
  have hread : f.stack.get? (frame.base + (i + 1)) = some v := by
    rw [← Buffer.getElem?_toList, hstack, hbase, List.getElem?_append_right (by omega)]
    simpa using hi
  have hin : 1 ≤ i + 1 ∧ i + 1 ≤ frame.argc := ⟨Nat.succ_pos i, by rw [hargc]; exact hlt⟩
  show (if 1 ≤ i + 1 ∧ i + 1 ≤ frame.argc then _ else _ : NativeM Value) frame s = _
  rw [if_pos hin]
  have hbind : ∀ k : Fiber → MachineM Value, (liftM s.activeFiber >>= k) s = k f s := by
    intro k
    rw [activeFiber_of_get? hf]
    rfl
  refine (hbind _).trans ?_
  dsimp only
  rw [hread]
  rfl

end Window

/-- In the window of code that keeps to it, and whose calls keep their contract, the stack is what
it was when the window was opened, with the last result on the place of the result. -/
theorem NativeRun.window {good : Value → List Value → Machine → Prop} {frame : Frame}
    {old args puts : List Value} {opened s : Machine}
    (hcall : ∀ function args m after, m.Ready → good function args m →
      Returned (frame.call function args) m after → m.StackKept after)
    (hbase : frame.base = old.length) (hopened : Window old args opened [] opened)
    (hr : NativeRun good frame opened puts s) : Window old args opened puts s := by
  induction hr with
  | start => exact hopened
  | own _ hstep ih => exact ih.kept (hstep.stackKept ih.ready)
  | put v _ hput ih => exact ih.put hbase hput
  | call function args _ hgood hreturned ih =>
    exact ih.kept (hcall function args _ _ ih.ready hgood hreturned)

/-! ## 4. Calls -/

theorem pushWindow_of_get? {m : Machine} {f : Fiber}
    (hf : m.heap.get? m.fiber = some (.fiber f)) (args : List Value) :
    let n := m.withStack f ((f.stack.push .null).append args)
    pushWindow args m = .ok f.stack.size { n with heap := n.heap.remeasure n.fiber } := by
  show (do
    let f ← m.activeFiber
    let n := m.withStack f ((f.stack.push .null).append args)
    set { n with heap := n.heap.remeasure n.fiber }
    return f.stack.size : MachineM Nat) m = _
  rw [activeFiber_of_get? hf]
  rfl

theorem popWindow_of_get? {m : Machine} {f : Fiber}
    (hf : m.heap.get? m.fiber = some (.fiber f)) (base : Nat) :
    popWindow base m =
      .ok ((f.stack.get? base).getD .null) (m.withStack f (f.stack.truncate base)) := by
  show (do
    let f ← m.activeFiber
    set (m.withStack f (f.stack.truncate base))
    return (f.stack.get? base).getD .null : MachineM Value) m = _
  rw [activeFiber_of_get? hf]
  rfl

section Call

variable {m : Machine} {old : List Value} (hs : m.stack? = some old)
include hs

theorem pushWindow_eq (args : List Value) :
    pushWindow args m = .ok old.length (m.opened args) := by
  obtain ⟨f, hf, rfl⟩ := stack?_eq_some hs
  unfold Machine.opened stateAfter
  rw [pushWindow_of_get? hf]
  rfl

/-- Opening a window takes nothing away, and puts null on the place of the result. -/
theorem opened_window (hm : m.Ready) (args : List Value) :
    Window old args (m.opened args) [] (m.opened args) ∧ (m.opened args).fiber = m.fiber ∧
      ∀ k, (m.opened args).heap.isLive k = m.heap.isLive k := by
  obtain ⟨f, hf, rfl⟩ := stack?_eq_some hs
  have hready := hm.withStack hf ((f.stack.push .null).append args)
  unfold Machine.opened
  rw [stateAfter_of_ok (pushWindow_of_get? hf args)]
  refine ⟨⟨hready.remeasure, rfl, ?_, fun _ _ hl => hl⟩, rfl, fun k => ?_⟩
  · rw [stack?_remeasure, stack?_withStack hf]
    simp
  · show ((m.withStack f _).heap.remeasure _).isLive k = _
    rw [Heap.isLive_remeasure, isLive_withStack]

end Call

/-- Closing a window leaves what was below it, and gives what is on the place of the result. -/
theorem Window.popWindow_eq {old args puts : List Value} {opened s : Machine}
    (hw : Window old args opened puts s) : ∃ after,
      popWindow old.length s = .ok (puts.getLastD .null) after ∧ after.Ready ∧
        after.fiber = s.fiber ∧ after.stack? = some old ∧
        ∀ k, after.heap.isLive k = s.heap.isLive k := by
  obtain ⟨f, hf, hstack⟩ := stack?_eq_some hw.stack
  have hresult : f.stack.get? old.length = some (puts.getLastD .null) := by
    rw [← Buffer.getElem?_toList, hstack]
    simp
  refine ⟨s.withStack f (f.stack.truncate old.length), ?_, hw.ready.withStack hf _, rfl, ?_,
    isLive_withStack _⟩
  · rw [popWindow_of_get? hf, hresult]
    rfl
  · rw [stack?_withStack hf, Buffer.toList_truncate, hstack]
    simp

/-- A call in stages: the function is looked at, a window is opened, the code runs in it, and the
window is closed unless the code ends in a fault. -/
theorem callNative_eq (link : Linkage) (depth : Nat) (function : Value) (args : List Value)
    {m : Machine} {old : List Value} (hs : m.stack? = some old) :
    callNative link (depth + 1) function args m =
      match m.heap.entryPoint function args.length with
      | .error failure => .error failure m
      | .ok entry =>
        match link entry (callFrame link depth old args) (m.opened args) with
        | .ok () s => popWindow old.length s
        | .error (.error e) s => (popWindow old.length >>= fun _ => throw (.error e)) s
        | .error (.fault fault) s => .error (.fault fault) s := by
  show (liftM (m.heap.entryPoint function args.length) >>= _ : MachineM Value) m = _
  cases hentry : m.heap.entryPoint function args.length with
  | error failure => rfl
  | ok entry =>
    rw [bind_read_of_ok rfl]
    simp only [bind, EStateM.bind, pushWindow_eq hs, attempt, ReaderT.run, callFrame]
    cases hbody : link entry ⟨old.length, args.length, callNative link depth⟩ (m.opened args) with
    | ok _ s =>
      dsimp only
      cases popWindow old.length s <;> rfl
    | error failure s =>
      cases failure with
      | error e => rfl
      | fault fault => rfl

theorem stateAfter_congr {ε σ α : Type} {body other : EStateM ε σ α} {s t : σ}
    (h : body s = other t) : stateAfter body s = stateAfter other t := by
  unfold stateAfter
  rw [h]

theorem bind_throw_eq_error {ε σ α β : Type} (body : EStateM ε σ α) (e : ε) (s : σ) :
    ∃ failure, (body >>= fun _ => (throw e : EStateM ε σ β)) s =
      .error failure (stateAfter body s) := by
  show ∃ failure, EStateM.bind body _ s = _
  unfold stateAfter EStateM.bind
  cases body s with
  | ok a after => exact ⟨e, rfl⟩
  | error failure after => exact ⟨failure, rfl⟩

theorem Returned.stateAfter_eq {α : Type} {body : MachineM α} {m after : Machine}
    (h : Returned body m after) : stateAfter body m = after := by
  rcases h with ⟨a, h⟩ | ⟨e, h⟩
  · exact stateAfter_of_ok h
  · exact stateAfter_of_error h

section Outcome

variable {link : Linkage} {depth : Nat} {function v : Value} {args old : List Value}
  {m s after : Machine} {entry : Symbol} (hs : m.stack? = some old)
include hs

theorem callNative_of_ok (hentry : m.heap.entryPoint function args.length = .ok entry)
    (hbody : link entry (callFrame link depth old args) (m.opened args) = .ok () s)
    (hpop : popWindow old.length s = .ok v after) :
    callNative link (depth + 1) function args m = .ok v after := by
  rw [callNative_eq link depth function args hs, hentry]
  dsimp only
  rw [hbody]
  exact hpop

theorem callNative_of_error (hentry : m.heap.entryPoint function args.length = .ok entry)
    {e : EvalError}
    (hbody : link entry (callFrame link depth old args) (m.opened args) = .error (.error e) s)
    (hpop : popWindow old.length s = .ok v after) :
    callNative link (depth + 1) function args m = .error (.error e) after := by
  rw [callNative_eq link depth function args hs, hentry]
  dsimp only
  rw [hbody]
  show EStateM.bind (popWindow old.length) _ s = _
  unfold EStateM.bind
  rw [hpop]
  rfl

theorem callNative_of_fault (hentry : m.heap.entryPoint function args.length = .ok entry)
    {fault : Fault}
    (hbody : link entry (callFrame link depth old args) (m.opened args) = .error (.fault fault) s) :
    callNative link (depth + 1) function args m = .error (.fault fault) s := by
  rw [callNative_eq link depth function args hs, hentry]
  dsimp only
  rw [hbody]

/-- The ways a call can go. -/
theorem callNative_cases (link : Linkage) (depth : Nat) (function : Value) (args : List Value) :
    (∃ failure, callNative link (depth + 1) function args m = .error failure m) ∨
    ∃ entry, m.heap.entryPoint function args.length = .ok entry ∧
      ((∃ s, link entry (callFrame link depth old args) (m.opened args) = .ok () s ∧
        callNative link (depth + 1) function args m = popWindow old.length s) ∨
      (∃ e s failure,
        link entry (callFrame link depth old args) (m.opened args) = .error (.error e) s ∧
        callNative link (depth + 1) function args m =
          .error failure (stateAfter (popWindow old.length) s)) ∨
      ∃ fault s, callNative link (depth + 1) function args m = .error (.fault fault) s) := by
  rw [callNative_eq link depth function args hs]
  cases m.heap.entryPoint function args.length with
  | error failure => exact .inl ⟨failure, rfl⟩
  | ok entry =>
    refine .inr ⟨entry, rfl, ?_⟩
    dsimp only
    cases link entry (callFrame link depth old args) (m.opened args) with
    | ok a s => exact .inl ⟨s, rfl, rfl⟩
    | error failure s =>
      cases failure with
      | error e =>
        obtain ⟨failure, hthrow⟩ := bind_throw_eq_error (popWindow old.length) (.error e) s
        exact .inr (.inl ⟨e, s, failure, rfl, hthrow⟩)
      | fault fault => exact .inr (.inr ⟨fault, s, rfl⟩)

/-- A call has a result only if it has reached code, and the code succeeded. -/
theorem callNative_eq_ok (h : callNative link (depth + 1) function args m = .ok v after) :
    ∃ entry s, m.heap.entryPoint function args.length = .ok entry ∧
      link entry (callFrame link depth old args) (m.opened args) = .ok () s ∧
      popWindow old.length s = .ok v after := by
  rcases callNative_cases hs link depth function args with
    ⟨failure, hcall⟩ | ⟨entry, hentry,
      ⟨s, hbody, hcall⟩ | ⟨e, s, failure, -, hcall⟩ | ⟨fault, s, hcall⟩⟩
  · rw [hcall] at h
    cases h
  · exact ⟨entry, s, hentry, hbody, hcall ▸ h⟩
  · rw [hcall] at h
    cases h
  · rw [hcall] at h
    cases h

/-- A call that has come to an end has reached no code, or has closed its window. -/
theorem returned_callNative
    (h : Returned (callNative link (depth + 1) function args) m after) :
    after = m ∨ ∃ entry s, m.heap.entryPoint function args.length = .ok entry ∧
      Returned (link entry (callFrame link depth old args)) (m.opened args) s ∧
      after = stateAfter (popWindow old.length) s := by
  obtain rfl := h.stateAfter_eq
  rcases callNative_cases hs link depth function args with
    ⟨failure, hcall⟩ | ⟨entry, hentry,
      ⟨s, hbody, hcall⟩ | ⟨e, s, failure, hbody, hcall⟩ | ⟨fault, s, hcall⟩⟩
  · exact .inl (stateAfter_of_error hcall)
  · exact .inr ⟨entry, s, hentry, .inl ⟨(), hbody⟩, stateAfter_congr hcall⟩
  · exact .inr ⟨entry, s, hentry, .inr ⟨e, hbody⟩, stateAfter_of_error hcall⟩
  · unfold Returned at h
    rw [hcall] at h
    simp at h

end Outcome

/-! ## 5. The contract -/

/-- What the two sides of a call can count on, if it is made while `old` is on the stack. -/
structure CallDiscipline (link : Linkage) (depth : Nat) (function : Value) (args old : List Value)
    (m : Machine) : Prop where
  /-- Whenever the code looks, its arguments are where they were put. The objects on the stack, the
  arguments among them, are there. -/
  during : ∀ puts s, CallRun link depth args old m puts s →
    s.stack? = some (old ++ puts.getLastD .null :: args) ∧
      (∀ i v, args[i]? = some v → argument (i + 1) (callFrame link depth old args) s = .ok v s) ∧
      ∀ k, .object k ∈ old ++ args → m.heap.isLive k = true → s.heap.isLive k = true
  /-- A call that reaches no code does nothing. -/
  rejected : ∀ e, m.heap.entryPoint function args.length = .error (.error e) →
    callNative link (depth + 1) function args m = .error (.error e) m
  /-- A call succeeds if its code does, with the last result that the code has set. -/
  succeeds : ∀ entry s, m.heap.entryPoint function args.length = .ok entry →
    link entry (callFrame link depth old args) (m.opened args) = .ok () s → ∃ puts after,
      CallRun link depth args old m puts s ∧
      callNative link (depth + 1) function args m = .ok (puts.getLastD .null) after
  /-- There is no other way to a result. -/
  result : ∀ v after, callNative link (depth + 1) function args m = .ok v after →
    ∃ entry puts s, m.heap.entryPoint function args.length = .ok entry ∧
      link entry (callFrame link depth old args) (m.opened args) = .ok () s ∧
      CallRun link depth args old m puts s ∧ v = puts.getLastD .null
  /-- An error of the code is one of the call. -/
  fails : ∀ entry e s, m.heap.entryPoint function args.length = .ok entry →
    link entry (callFrame link depth old args) (m.opened args) = .error (.error e) s →
      ∃ after, callNative link (depth + 1) function args m = .error (.error e) after
  /-- However the call has ended, the stack is what it was before. -/
  kept : ∀ after, Returned (callNative link (depth + 1) function args) m after →
    m.StackKept after ∧
      ∀ k, .object k ∈ args → m.heap.isLive k = true → after.heap.isLive k = true

section Contract

variable {link : Linkage} {depth : Nat} {function : Value} {args old : List Value} {m : Machine}

/-- The contract is kept by all calls that are well-behaved, at most `depth` deep. -/
def KeepsStack (link : Linkage) (depth : Nat) : Prop :=
  ∀ function args m after, m.Ready → WellBehaved link depth function args m →
    Returned (callNative link depth function args) m after → m.StackKept after

/-- The window of a call throughout the run of its code. -/
theorem window_of_keepsStack (hinner : KeepsStack link depth) (hm : m.Ready)
    (hs : m.stack? = some old) {puts : List Value} {s : Machine}
    (hr : CallRun link depth args old m puts s) : Window old args (m.opened args) puts s := by
  refine NativeRun.window ?_ rfl (opened_window hs hm args).1 hr
  exact hinner

/-- A window that is closed leaves the stack as it was before the window was opened. -/
theorem Window.stackKept {puts : List Value} {s : Machine}
    (hw : Window old args (m.opened args) puts s) (hm : m.Ready) (hs : m.stack? = some old) :
    ∃ after, popWindow old.length s = .ok (puts.getLastD .null) after ∧ m.StackKept after ∧
      ∀ k, .object k ∈ args → m.heap.isLive k = true → after.heap.isLive k = true := by
  obtain ⟨-, hfiber, hlive⟩ := opened_window hs hm args
  obtain ⟨after, hpop, hready, hsame, hstack, hpopped⟩ := hw.popWindow_eq
  have hstay : ∀ k, .object k ∈ old ++ args → m.heap.isLive k = true →
      after.heap.isLive k = true := by
    intro k hk hl
    rw [hpopped]
    exact hw.live k hk (by rw [hlive, hl])
  refine ⟨after, hpop, ⟨hready, hsame.trans (hw.fiber.trans hfiber), hstack.trans hs.symm, ?_⟩,
    fun k hk => hstay k (List.mem_append_right _ hk)⟩
  intro stack k hstack' hk
  obtain rfl : old = stack := Option.some.inj (hs.symm.trans hstack')
  exact hstay k (List.mem_append_left _ hk)

/-- One level of calls: if the calls that the code makes keep the contract, this one does. -/
theorem callDiscipline_of_keepsStack (hinner : KeepsStack link depth) (hm : m.Ready)
    (hs : m.stack? = some old) (hw : WellBehaved link (depth + 1) function args m) :
    CallDiscipline link depth function args old m := by
  have hran : ∀ entry s, m.heap.entryPoint function args.length = .ok entry →
      Returned (link entry (callFrame link depth old args)) (m.opened args) s → ∃ puts after,
      CallRun link depth args old m puts s ∧
        popWindow old.length s = .ok (puts.getLastD .null) after ∧ m.StackKept after ∧
        ∀ k, .object k ∈ args → m.heap.isLive k = true → after.heap.isLive k = true := by
    intro entry s hentry hreturned
    obtain ⟨puts, hr⟩ := hw entry old s hentry hs hreturned
    obtain ⟨after, hclosed⟩ := (window_of_keepsStack hinner hm hs hr).stackKept hm hs
    exact ⟨puts, after, hr, hclosed⟩
  refine ⟨fun puts s hr => ?_, fun e hentry => ?_, fun entry s hentry hbody => ?_,
    fun v after hresult => ?_, fun entry e s hentry hbody => ?_, fun after hreturned => ?_⟩
  · have hwin := window_of_keepsStack hinner hm hs hr
    refine ⟨hwin.stack, fun i v hi => hwin.argument rfl rfl hi, fun k hk hl => ?_⟩
    exact hwin.live k hk (by rw [(opened_window hs hm args).2.2, hl])
  · rw [callNative_eq link depth function args hs, hentry]
  · obtain ⟨puts, after, hr, hpop, -⟩ := hran entry s hentry (.inl ⟨(), hbody⟩)
    exact ⟨puts, after, hr, callNative_of_ok hs hentry hbody hpop⟩
  · obtain ⟨entry, s, hentry, hbody, hpop⟩ := callNative_eq_ok hs hresult
    obtain ⟨puts, closed, hr, hpop', -⟩ := hran entry s hentry (.inl ⟨(), hbody⟩)
    rw [hpop] at hpop'
    cases hpop'
    exact ⟨entry, puts, s, hentry, hbody, hr, rfl⟩
  · obtain ⟨puts, after, -, hpop, -⟩ := hran entry s hentry (.inr ⟨e, hbody⟩)
    exact ⟨after, callNative_of_error hs hentry hbody hpop⟩
  · rcases returned_callNative hs hreturned with rfl | ⟨entry, s, hentry, hbody, rfl⟩
    · exact ⟨.refl hm, fun _ _ hl => hl⟩
    · obtain ⟨puts, closed, -, hpop, hkept⟩ := hran entry s hentry hbody
      rw [stateAfter_of_ok hpop]
      exact hkept

/-- Calls keep the contract, however deep they go. The induction is on the depth: the contract of
the calls inside is what keeps the window of the one outside. -/
theorem callNative_stackKept (link : Linkage) (depth : Nat) : KeepsStack link depth := by
  induction depth with
  | zero =>
    rintro function args m after - - (⟨v, h⟩ | ⟨e, h⟩)
    · cases h
    · cases h
  | succ depth ih =>
    intro function args m after hm hw hreturned
    obtain ⟨f, hf⟩ := hm.fiber
    exact ((callDiscipline_of_keepsStack ih hm (stack?_eq hf) hw).kept after hreturned).1

end Contract

end ScriptMachine
