import ScriptMachine.Session.Natives

/-!
# Properties of native code

Native code is put together from few kinds of steps. It looks at its window and at the machine,
fails, sets its result, allocates, collects, prints and calls. A property of code that all of these
have, and that sequences keep, is one of every core function and of every function of a session.

Main definitions:
- `NativeRules`: such a property, of code that makes no calls.
- `CallRules`: such a property, which calls have too.

Results:
1. `NativeRules.run`, `NativeRules.withHost`: it holds of the core functions.
2. `CallRules.sessionLinkage`: it holds of the functions of a session.
-/

namespace ScriptMachine

/-- `P` holds of the steps that native code is made of, and of code if it holds of its steps. -/
structure NativeRules (P : {α : Type} → NativeM α → Prop) : Prop where
  pure : ∀ {α : Type} (a : α), P (pure a)
  throw : ∀ {α : Type} (e : Failure EvalError), P (throw e : NativeM α)
  bind : ∀ {α β : Type} {body : NativeM α} {f : α → NativeM β}, P body → (∀ a, P (f a)) →
    P (body >>= f)
  frame : P (read : NativeM Frame)
  get : P (get : NativeM Machine)
  read : ∀ {α : Type} (x : Except Fault α), P (liftM x : NativeM α)
  returnValue : ∀ v, P (returnValue v)
  newObject : ∀ o, P (nativeHeap (newObject o))
  collectNow : P (nativeHeap collectNow)
  print : ∀ text : String, P (modify fun m : Machine => m.write text)

/-- `P` also holds of calls, of those whose errors are passed on and of those whose errors are
caught. -/
structure CallRules (P : {α : Type} → NativeM α → Prop) : Prop extends NativeRules P where
  call : ∀ function args, P (callFrom function args)
  tryCall : ∀ function args,
    P (fun frame => attempt (frame.call function args) : NativeM (Except EvalError Value))

namespace NativeRules

variable {P : {α : Type} → NativeM α → Prop} (h : NativeRules P)
include h

/-! ## 1. Access to the window -/

theorem argument (index : Nat) : P (argument index) := by
  refine h.bind h.frame fun frame => ?_
  dsimp only
  split
  · refine h.bind h.get fun m => h.bind (h.read _) fun f => ?_
    split
    · exact h.pure _
    · exact h.throw _
  · exact h.throw _

theorem arguments : P arguments :=
  h.bind h.frame fun _ => h.bind h.get fun _ => h.bind (h.read _) fun _ => h.pure _

theorem numberArgument (index : Nat) : P (numberArgument index) := by
  refine h.bind (h.argument index) fun value => ?_
  split
  · exact h.pure _
  · exact h.throw _

theorem truthArgument (index : Nat) : P (truthArgument index) :=
  h.bind (h.argument index) fun _ => h.pure _

theorem kindArgument (index : Nat) (kind : Kind) : P (kindArgument index kind) := by
  refine h.bind (h.argument index) fun value => h.bind h.get fun m => h.bind (h.read _) fun k => ?_
  split
  · exact h.pure _
  · exact h.throw _

theorem returned {body : NativeM Value} (hb : P body) :
    P (do ScriptMachine.returnValue (← body)) :=
  h.bind hb fun v => h.returnValue v

/-! ## 2. The core functions -/

theorem stringArgument : P stringArgument := by
  refine h.bind (h.kindArgument 1 .string) fun value => h.bind h.get fun m =>
    h.bind (h.read _) fun s => ?_
  split
  · exact h.pure _
  · exact h.pure _

theorem returnMapped (change : List UInt8 → List UInt8) : P (returnMapped change) :=
  h.bind h.stringArgument fun _ => h.returned (h.newObject _)

theorem printArguments (separator terminator : String) :
    P (printArguments separator terminator) := by
  refine h.bind h.get fun m => ?_
  split
  · refine h.bind ?_ fun text => h.print _
    exact h.bind h.arguments fun _ => h.bind h.get fun _ => h.bind (h.read _) fun _ => h.pure _
  · exact h.pure _

theorem runAssert : P runAssert := by
  refine h.bind h.frame fun frame => ?_
  dsimp only
  split
  · refine h.bind (h.truthArgument 1) fun b => ?_
    cases b with
    | true => exact h.pure _
    | false =>
      show P (if frame.argc = 2 then _ else _)
      split
      · exact h.bind (h.argument 2) fun _ => h.bind h.get fun _ => h.bind (h.read _) fun _ =>
          h.throw _
      · exact h.throw _
  · exact h.throw _

theorem runText : P runText := by
  refine h.bind (h.argument 1) fun value => h.bind h.get fun m => h.bind (h.read _) fun s => ?_
  cases s with
  | some s => exact h.returnValue value
  | none => exact h.bind (h.read _) fun _ => h.returned (h.newObject _)

/-- The property holds of the core functions. -/
theorem run (function : CoreFunction) : P function.run := by
  cases function with
  | isKind kind =>
    exact h.bind (h.argument 1) fun _ => h.bind h.get fun _ => h.bind (h.read _) fun _ =>
      h.returnValue _
  | assert => exact h.runAssert
  | hash =>
    exact h.bind (h.argument 1) fun _ => h.bind h.get fun _ => h.bind (h.read _) fun _ =>
      h.returnValue _
  | text => exact h.runText
  | print => exact h.printArguments " " "\n"
  | lower => exact h.returnMapped Ascii.lower
  | upper => exact h.returnMapped Ascii.upper
  | strip => exact h.returnMapped Ascii.strip
  | clock => exact h.bind h.get fun _ => h.returnValue _
  | collect => exact h.bind h.collectNow fun _ => h.returnValue _
  | write => exact h.printArguments "" ""

/-- It holds of all code behind a linkage if it holds of the host's functions. -/
theorem withHost {host : String → Option (NativeM Unit)}
    (hhost : ∀ name body, host name = some body → P body) (entry : Symbol) :
    P (Linkage.withHost host entry) := by
  cases entry with
  | core function => exact h.run function
  | host name =>
    show P ((host name).getD (Pure.pure ()))
    cases hbody : host name with
    | none => exact h.pure ()
    | some body => exact hhost name body hbody

theorem sumArguments : P sumArguments := by
  refine h.bind h.frame fun frame => h.bind ?_ fun _ => h.returnValue _
  generalize (0.0 : Double) = total
  generalize List.range frame.argc = indices
  induction indices generalizing total with
  | nil => exact h.pure _
  | cons i indices ih =>
    rw [List.foldlM_cons]
    exact h.bind (h.bind (h.numberArgument _) fun _ => h.pure _) fun total => ih total

theorem allocThenLook : P allocThenLook :=
  h.bind (h.newObject _) fun _ => h.bind (h.argument 1) fun _ => h.bind h.get fun _ =>
    h.bind (h.read _) fun _ => h.returnValue _

end NativeRules

namespace CallRules

variable {P : {α : Type} → NativeM α → Prop} (h : CallRules P)
include h

/-! ## 3. The functions of a session -/

theorem applyFirst : P applyFirst :=
  h.bind (h.argument 1) fun function => h.bind h.arguments fun args => h.call function (args.drop 1)

theorem tryApplyFirst : P tryApplyFirst := by
  refine h.bind (h.argument 1) fun function => h.bind h.arguments fun args => ?_
  show P ((fun frame => attempt (frame.call function (args.drop 1)) :
    NativeM (Except EvalError Value)) >>= _)
  refine h.bind (h.tryCall function (args.drop 1)) fun outcome => ?_
  cases outcome with
  | ok value => exact h.pure value
  | error e => exact h.newObject _

theorem hostFunction {name : String} {body : NativeM Unit}
    (hbody : hostFunction? name = some body) : P body := by
  unfold hostFunction? at hbody
  split at hbody
  case h_17 =>
    obtain ⟨kind, -, rfl⟩ := Option.map_eq_some_iff.mp hbody
    exact h.returned (h.kindArgument 1 kind)
  all_goals cases hbody
  · exact h.pure ()
  · exact h.sumArguments
  · exact h.bind (h.numberArgument 1) fun _ => h.returnValue _
  · exact h.bind (h.truthArgument 2) fun _ => h.returnValue _
  · exact h.bind h.frame fun _ => h.returned (h.argument _)
  · exact h.returned (h.argument 0)
  · exact h.allocThenLook
  · exact h.bind h.frame fun _ => h.returnValue _
  · refine h.bind h.frame fun frame => ?_
    dsimp only
    split
    · exact h.returned (h.pure _)
    · exact h.returned (h.argument _)
  · exact h.bind (h.returnValue _) fun _ => h.returnValue _
  · exact h.bind (h.returnValue _) fun _ => h.throw _
  · exact h.returned h.applyFirst
  · exact h.returned h.tryApplyFirst
  · exact h.bind h.get fun _ => h.bind (h.read _) fun _ => h.returnValue _
  · exact h.bind h.collectNow fun _ => h.returned (h.argument 1)
  · exact h.bind h.arguments fun _ => h.returned (h.newObject _)

/-- The property holds of all code behind the linkage of a session. -/
theorem sessionLinkage (entry : Symbol) : P (sessionLinkage entry) :=
  h.withHost (fun _ _ => h.hostFunction) entry

end CallRules

end ScriptMachine
