import ScriptMachine.Proofs.Heap.Safety
import ScriptMachine.Proofs.Machine.Discipline

/-!
# How core functions end

A core function looks first and acts last. It reads its arguments and checks them, and this is
where it can fail; then it allocates, collects or prints, once and at most, and sets its result. So
an error finds the machine as it was when the window was opened. What can go wrong after that is
one thing only: the fiber was collected, because nothing kept it alive.

Main definitions:
- `Begun`: native code is about to run in its window, with arguments that are there.
- `Settles`: how core functions end.
- `CoreFunction.needs`: the arguments that a function takes for granted.

Results:
1. `Begun.settles_effect`, `Begun.settles_returnValue`, `Begun.settles_print`: the last steps.
2. `CoreFunction.settles`: every core function settles if it has the arguments it needs.
3. `needs_le_least`: the arities in the tables see to that.
-/

namespace ScriptMachine

open Machine

variable {α : Type} {old args : List Value} {frame : Frame} {m : Machine}

/-! ## 1. Endings -/

/-- Native code is about to run: its window on top of `old` holds the arguments, which are there,
and no handle is dangling. -/
structure Begun (old args : List Value) (frame : Frame) (m : Machine) : Prop where
  base : frame.base = old.length
  argc : frame.argc = args.length
  window : Window old args m [] m
  noDangling : m.heap.NoDangling
  has : ∀ v ∈ args, m.heap.Has v

/-- How code in a window may end. It has a result, which is there; or an error, and has done
nothing; or it has lost the fiber, which neither a root nor a pin has kept. -/
def Settles (old args : List Value) (frame : Frame) (m : Machine) (body : NativeM Unit) : Prop :=
  match body frame m with
  | .ok _ s => ∃ puts, Window old args m puts s ∧ s.heap.Has (puts.getLastD .null)
  | .error (.error _) s => s = m
  | .error (.fault _) s => s.heap.isLive m.fiber = false ∧ ¬ m.heap.Reaches m.heap.anchors m.fiber

theorem native_bind_of_ok {body : NativeM α} {a : α} {s : Machine} (hbody : body frame m = .ok a s)
    (f : α → NativeM Unit) : (body >>= f) frame m = f a frame s := by
  show EStateM.bind (body frame) (fun a => f a frame) m = _
  unfold EStateM.bind
  rw [hbody]

namespace Settles

/-- What only looks at the machine comes first. -/
theorem bind {body : NativeM α} {f : α → NativeM Unit} {a : α} (hbody : body frame m = .ok a m)
    (h : Settles old args frame m (f a)) : Settles old args frame m (body >>= f) := by
  unfold Settles
  rw [native_bind_of_ok hbody f]
  exact h

theorem get {f : Machine → NativeM Unit} (h : Settles old args frame m (f m)) :
    Settles old args frame m (get >>= f) :=
  .bind rfl h

theorem read {x : Except Fault α} {a : α} {f : α → NativeM Unit} (hx : x = .ok a)
    (h : Settles old args frame m (f a)) : Settles old args frame m (liftM x >>= f) := by
  subst hx
  exact .bind rfl h

theorem throw (e : EvalError) : Settles old args frame m (throw (.error e)) :=
  rfl

end Settles

/-- A result that is set on a fiber that is gone is a fault. -/
theorem returnValue_of_lost (hl : m.heap.isLive m.fiber = false) (frame : Frame) (v : Value) :
    returnValue v frame m = .error (.fault (.staleHandle m.fiber)) m := by
  have hget : m.heap.get m.fiber = .error (.staleHandle m.fiber) := by
    rw [Heap.isLive, Option.isSome_eq_false_iff, Option.isNone_iff_eq_none] at hl
    rw [Heap.get, hl]
  show (liftM m.activeFiber >>= _ : MachineM Unit) m = _
  rw [Machine.activeFiber, hget]
  rfl

namespace Begun

variable (hb : Begun old args frame m)
include hb

theorem live_fiber : m.heap.isLive m.fiber = true := by
  obtain ⟨f, hf⟩ := hb.window.ready.fiber
  exact Heap.isLive_iff.mpr ⟨_, hf⟩

theorem argument {i : Nat} {v : Value} (hi : args[i]? = some v) :
    ScriptMachine.argument (i + 1) frame m = .ok v m :=
  hb.window.argument hb.base hb.argc hi

theorem arguments : ScriptMachine.arguments frame m = .ok args m := by
  obtain ⟨f, hf, hstack⟩ := stack?_eq_some hb.window.stack
  have hlist : (f.stack.toList.drop (frame.base + 1)).take frame.argc = args := by
    rw [hstack, hb.base, hb.argc]
    simp
  show (liftM m.activeFiber >>= fun f : Fiber =>
    pure ((f.stack.toList.drop (frame.base + 1)).take frame.argc) : MachineM (List Value)) m = _
  rw [activeFiber_of_get? hf]
  show EStateM.Result.ok ((f.stack.toList.drop (frame.base + 1)).take frame.argc) m = _
  rw [hlist]

/-! ## 2. Last steps -/

theorem settles_pure : Settles old args frame m (pure ()) :=
  ⟨[], hb.window, m.heap.has_null⟩

/-- A result is set while the window stands. -/
theorem settles_put {s : Machine} (hw : Window old args m [] s) {v : Value} (hv : s.heap.Has v) :
    ∃ after, returnValue v frame s = .ok () after ∧
      ∃ puts, Window old args m puts after ∧ after.heap.Has (puts.getLastD .null) := by
  obtain ⟨f, hf⟩ := hw.ready.fiber
  have hput := returnValue_of_get? hf frame v
  refine ⟨_, hput, [v], hw.put hb.base hput, fun h hh => ?_⟩
  rw [isLive_withStack]
  exact hv h hh

theorem settles_returnValue {v : Value} (hv : m.heap.Has v) :
    Settles old args frame m (returnValue v) := by
  obtain ⟨after, hput, hsettled⟩ := hb.settles_put hb.window hv
  unfold Settles
  rw [hput]
  exact hsettled

/-- A step that takes nothing away from the fiber, if it leaves it, is followed by the result. -/
theorem settles_effect {body : NativeM α} {a : α} {heap : Heap} (result : α → Value)
    (hbody : body frame m = .ok a { m with heap := heap }) (hmove : m.heap.Move heap)
    (hkept : ∀ o, m.heap.get? m.fiber = some o → heap.isLive m.fiber = true →
      heap.get? m.fiber = some o)
    (hreached : m.heap.Reaches m.heap.anchors m.fiber → heap.isLive m.fiber = true)
    (hv : heap.Has (result a)) :
    Settles old args frame m (body >>= fun a => returnValue (result a)) := by
  unfold Settles
  rw [native_bind_of_ok hbody]
  cases hlive : heap.isLive m.fiber with
  | true =>
    obtain ⟨f, hf⟩ := hb.window.ready.fiber
    have hstep : m.OwnStep { m with heap := heap } :=
      ⟨rfl, .inr hmove, fun _ => (stack?_eq (hkept _ hf hlive)).trans (stack?_eq hf).symm,
        .inr hlive⟩
    have hw := hb.window.kept (hstep.stackKept hb.window.ready)
    obtain ⟨after, hput, hsettled⟩ := hb.settles_put hw hv
    rw [hput]
    exact hsettled
  | false =>
    -- The step was a collection, and nothing led to the fiber.
    rw [returnValue_of_lost (m := { m with heap := heap }) hlive]
    refine ⟨hlive, fun hr => ?_⟩
    rw [hreached hr] at hlive
    cases hlive

theorem settles_newObject (o : Object) :
    Settles old args frame m (do returnValue (← nativeHeap (newObject o))) := by
  have ht := hb.window.ready.tidy
  have hbody : nativeHeap (newObject o) frame m =
      .ok (.object (m.heap.alloc o).1) { m with heap := (m.heap.alloc o).2 } := rfl
  refine hb.settles_effect id hbody (.alloc o) (fun p hp hl => ?_) (fun hr => ?_) ?_
  · exact (Heap.get?_alloc_of_isLive ht o hp hl).1
  · rw [Heap.isLive, Heap.get?_alloc_of_reached ht o (hr.mono (List.subset_append_left _ _))]
    exact hr.isLive
  · exact Heap.has_object.mpr (Heap.isLive_alloc m.heap ht o)

theorem settles_collectNow (result : Nat → Double) :
    Settles old args frame m (do returnValue (.number (result (← nativeHeap collectNow)))) := by
  have ht := hb.window.ready.tidy
  refine hb.settles_effect (fun n => .number (result n)) rfl .collect (fun p hp hl => ?_)
    (fun hr => ?_) (Heap.has_number _ _)
  · exact (Heap.get?_collect ht).mpr ⟨hp, (Heap.isLive_collect ht).mp hl⟩
  · exact (Heap.isLive_collect ht).mpr hr

theorem settles_print (text : String) :
    Settles old args frame m (modify fun s : Machine => s.write text) := by
  have hstep : m.OwnStep (m.write text) := by
    unfold Machine.write
    split
    · exact ⟨rfl, .inl rfl, fun _ => rfl, .inr hb.live_fiber⟩
    · exact ⟨rfl, .inl rfl, fun _ => rfl, .inr hb.live_fiber⟩
  exact ⟨[], hb.window.kept (hstep.stackKept hb.window.ready), Heap.has_null _⟩

/-! ## 3. The core functions -/

/-- Code that goes on with an argument settles if it does so with any value that is there. -/
theorem settles_argument {i : Nat} (hi : i < args.length) {f : Value → NativeM Unit}
    (h : ∀ v, m.heap.Has v → Settles old args frame m (f v)) :
    Settles old args frame m (ScriptMachine.argument (i + 1) >>= f) := by
  obtain ⟨v, hv⟩ : ∃ v, args[i]? = some v := ⟨_, List.getElem?_eq_getElem hi⟩
  exact .bind (hb.argument hv) (h v (hb.has v (List.mem_of_getElem? hv)))

theorem settles_stringArgument (hi : 0 < args.length) {f : List UInt8 → NativeM Unit}
    (h : ∀ bytes, Settles old args frame m (f bytes)) :
    Settles old args frame m (stringArgument >>= f) := by
  unfold stringArgument kindArgument
  simp only [bind_assoc]
  refine hb.settles_argument hi fun v hv => .get ?_
  obtain ⟨kind, hkind⟩ := Heap.kindOf_ok hv
  refine .read hkind ?_
  split
  · obtain ⟨s, hs⟩ := Heap.asString_ok hv
    rw [pure_bind]
    refine .get (.read hs ?_)
    cases s with
    | some s => exact h s.bytes
    | none => exact h []
  · exact Settles.throw _

theorem settles_returnMapped (hi : 0 < args.length) (change : List UInt8 → List UInt8) :
    Settles old args frame m (returnMapped change) :=
  hb.settles_stringArgument hi fun _ => hb.settles_newObject _

theorem settles_printArguments (separator terminator : String) :
    Settles old args frame m (printArguments separator terminator) := by
  refine .get ?_
  split
  · obtain ⟨texts, htexts⟩ :=
      Heap.mapM_ok fun v hv => Heap.render_ok hb.noDangling (hb.has v hv) false
    unfold joinedArguments
    simp only [bind_assoc]
    exact .bind hb.arguments (.get (.read htexts (hb.settles_print _)))
  · exact hb.settles_pure

theorem settles_runAssert : Settles old args frame m runAssert := by
  refine .bind (a := frame) rfl ?_
  dsimp only
  split
  · next hargc =>
    rw [hb.argc] at hargc
    unfold truthArgument
    rw [bind_assoc]
    refine hb.settles_argument (by omega) fun v hv => ?_
    rw [pure_bind]
    cases v.isTruthy with
    | true => exact hb.settles_pure
    | false =>
      show Settles old args frame m (if frame.argc = 2 then _ else _)
      split
      · next htwo =>
        rw [hb.argc] at htwo
        refine hb.settles_argument (by omega) fun v hv => .get ?_
        obtain ⟨text, htext⟩ := Heap.render_ok hb.noDangling hv false
        exact .read htext (Settles.throw _)
      · exact Settles.throw _
  · exact Settles.throw _

theorem settles_runText (hi : 0 < args.length) : Settles old args frame m runText := by
  refine hb.settles_argument hi fun v hv => .get ?_
  obtain ⟨s, hs⟩ := Heap.asString_ok hv
  refine .read hs ?_
  cases s with
  | some s => exact hb.settles_returnValue hv
  | none =>
    obtain ⟨text, htext⟩ := Heap.render_ok hb.noDangling hv false
    exact .read htext (hb.settles_newObject _)

end Begun

/-- The number of arguments that a core function reads without asking how many there are. -/
def CoreFunction.needs : CoreFunction → Nat
  | isKind _ | hash | text | lower | upper | strip => 1
  | assert | print | clock | collect | write => 0

/-- Every core function settles if it has the arguments it needs. -/
theorem CoreFunction.settles (function : CoreFunction) (hb : Begun old args frame m)
    (hn : function.needs ≤ args.length) : Settles old args frame m function.run := by
  cases function with
  | isKind kind =>
    refine hb.settles_argument hn fun v hv => .get ?_
    obtain ⟨k, hk⟩ := Heap.kindOf_ok hv
    exact .read hk (hb.settles_returnValue (Heap.has_bool _ _))
  | assert => exact hb.settles_runAssert
  | hash =>
    refine hb.settles_argument hn fun v hv => .get ?_
    obtain ⟨hash, hhash⟩ := Heap.hashOf_ok hv
    refine .read hhash (hb.settles_returnValue ?_)
    cases hash with
    | some _ => exact Heap.has_number _ _
    | none => exact Heap.has_null _
  | text => exact hb.settles_runText hn
  | print => exact hb.settles_printArguments " " "\n"
  | lower => exact hb.settles_returnMapped hn Ascii.lower
  | upper => exact hb.settles_returnMapped hn Ascii.upper
  | strip => exact hb.settles_returnMapped hn Ascii.strip
  | clock => exact .get (hb.settles_returnValue (Heap.has_number _ _))
  | collect => exact hb.settles_collectNow .ofNat
  | write => exact hb.settles_printArguments "" ""

/-- The least number of arguments that a call has to pass. -/
def Arity.least : Arity → Nat
  | .fixed expected => expected
  | .variadic => 0

/-- Whoever passes the arguments that the tables ask for passes those that are needed. -/
theorem needs_le_least :
    ∀ line ∈ coreBuiltins ++ langFunctions, line.2.1.needs ≤ line.2.2.least := by
  decide

end ScriptMachine
