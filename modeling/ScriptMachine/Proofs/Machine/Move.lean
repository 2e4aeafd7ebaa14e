import Mathlib.Logic.Relation
import ScriptMachine.Heap.Sequence
import ScriptMachine.Proofs.Heap.Arena
import ScriptMachine.Proofs.Machine.Rules

/-!
# What operations do to a machine

An operation on a machine is a program that can stop early. What it does to the machine is said
here by moves: an operation goes `ByMoves M` if the machine it leaves, however it ends, is reached
by moves of the kind `M`. The rules take a program apart; a function that only reads makes no move
at all.

Main definitions:
- `stateAfter`, `Goes`, `ByMoves`: the state an operation leaves, and how it gets there.
- `Heap.QuietMove`, `Machine.QuietMove`: moves that leave functions and modules alone.

Results:
1. `CoreFunction.run_quiet`: the core functions make quiet moves only. They allocate, collect, print
   and work on the stack of the fiber.
2. `callNative_goes`: a call makes the moves of its function, and those of its window.
-/

namespace ScriptMachine

/-! ## 1. Moves of an operation -/

section Rules

variable {ε σ α β : Type}

/-- The state that an operation leaves, however it ends. -/
def stateAfter (body : EStateM ε σ α) (s : σ) : σ :=
  match body s with
  | .ok _ after => after
  | .error _ after => after

/-- Started in `s`, the operation leaves a state that moves `M` lead to. -/
def Goes (M : σ → σ → Prop) (body : EStateM ε σ α) (s : σ) : Prop :=
  Relation.ReflTransGen M s (stateAfter body s)

/-- The operation changes the state by moves `M` only, wherever it is started. -/
def ByMoves (M : σ → σ → Prop) (body : EStateM ε σ α) : Prop :=
  ∀ s, Goes M body s

variable {M : σ → σ → Prop} {s : σ}

theorem stateAfter_of_ok {body : EStateM ε σ α} {a : α} {after : σ} (h : body s = .ok a after) :
    stateAfter body s = after := by
  simp [stateAfter, h]

theorem stateAfter_of_error {body : EStateM ε σ α} {e : ε} {after : σ}
    (h : body s = .error e after) : stateAfter body s = after := by
  simp [stateAfter, h]

/-- What comes first succeeds. -/
theorem bind_of_ok {body : EStateM ε σ α} {a : α} {after : σ} (h : body s = .ok a after)
    (f : α → EStateM ε σ β) : (body >>= f) s = f a after := by
  show EStateM.bind body f s = _
  rw [EStateM.bind, h]

/-- What comes first fails, and nothing comes after it. -/
theorem bind_of_error {body : EStateM ε σ α} {e : ε} {after : σ} (h : body s = .error e after)
    (f : α → EStateM ε σ β) : (body >>= f) s = .error e after := by
  show EStateM.bind body f s = _
  rw [EStateM.bind, h]

theorem bind_read_of_ok {x : Except (Failure ε) α} {a : α} (hx : x = .ok a)
    (f : α → EStateM (Failure ε) σ β) (s : σ) : (liftM x >>= f) s = f a s := by
  subst hx
  rfl

theorem bind_read_of_error {x : Except (Failure ε) α} {e : Failure ε} (hx : x = .error e)
    (f : α → EStateM (Failure ε) σ β) (s : σ) : (liftM x >>= f) s = .error e s := by
  subst hx
  rfl

theorem Goes.pure (a : α) : Goes M (pure a : EStateM ε σ α) s :=
  .refl

theorem Goes.throw (e : ε) : Goes M (throw e : EStateM ε σ α) s :=
  .refl

theorem Goes.bind {body : EStateM ε σ α} {f : α → EStateM ε σ β} (hb : Goes M body s)
    (hf : ∀ a, Goes M (f a) (stateAfter body s)) : Goes M (body >>= f) s := by
  show Relation.ReflTransGen M s (stateAfter (EStateM.bind body f) s)
  unfold Goes stateAfter at hb hf
  unfold stateAfter EStateM.bind
  cases h : body s with
  | ok a after =>
    simp only [h] at hb hf ⊢
    exact hb.trans (hf a)
  | error e after =>
    simp only [h] at hb ⊢
    exact hb

theorem Goes.get {f : σ → EStateM ε σ β} (hf : Goes M (f s) s) : Goes M (get >>= f) s :=
  hf

theorem Goes.set {after : σ} (h : Relation.ReflTransGen M s after) :
    Goes M (set after : EStateM ε σ PUnit) s :=
  h

/-- A read of the state makes no move. -/
theorem Goes.read {x : Except (Failure ε) α} {f : α → EStateM (Failure ε) σ β}
    (hf : ∀ a, x = .ok a → Goes M (f a) s) : Goes M (liftM x >>= f) s := by
  cases x with
  | ok a => exact hf a rfl
  | error e => exact .refl

theorem Goes.read_fault {x : Except Fault α} {f : α → EStateM (Failure ε) σ β}
    (hf : ∀ a, x = .ok a → Goes M (f a) s) : Goes M (liftM x >>= f) s := by
  cases x with
  | ok a => exact hf a rfl
  | error e => exact .refl

theorem Goes.mono {N : σ → σ → Prop} {body : EStateM ε σ α} (hb : Goes M body s)
    (h : ∀ a b, M a b → N a b) : Goes N body s :=
  Relation.ReflTransGen.mono h _ _ hb

theorem ByMoves.pure (a : α) : ByMoves M (pure a : EStateM ε σ α) :=
  fun _ => .pure a

theorem ByMoves.throw (e : ε) : ByMoves M (throw e : EStateM ε σ α) :=
  fun _ => .throw e

theorem ByMoves.bind {body : EStateM ε σ α} {f : α → EStateM ε σ β} (hb : ByMoves M body)
    (hf : ∀ a, ByMoves M (f a)) : ByMoves M (body >>= f) :=
  fun s => .bind (hb s) fun a => hf a _

theorem ByMoves.attempt {body : EStateM (Failure ε) σ α} (hb : ByMoves M body) :
    ByMoves M (attempt body) := by
  intro s
  have hs := hb s
  unfold Goes stateAfter at hs ⊢
  unfold ScriptMachine.attempt
  cases h : body s with
  | ok a after => simpa [h] using hs
  | error e after => cases e <;> simpa [h] using hs

end Rules

/-! ## 2. Quiet moves -/

/-- A move after which the objects that were reached are as before, except for lists. -/
inductive Heap.QuietMove (heap : Heap) : Heap → Prop
  | alloc (o : Object) : QuietMove heap (heap.alloc o).2
  | collect : QuietMove heap heap.collect.2
  | list {h : Handle} {old : Buffer Value} (new : Buffer Value) :
      heap.get? h = some (.list old) → QuietMove heap (heap.replace h (.list new))
  | measure (h : Handle) : QuietMove heap (heap.remeasure h)
  | pin (pins : List Handle) : QuietMove heap { heap with pins := pins }

/-- A quiet move of the heap, or one that prints or works on the stack of the machine's fiber. -/
inductive Machine.QuietMove (m : Machine) : Machine → Prop
  | heap {heap : Heap} : m.heap.QuietMove heap → QuietMove m { m with heap := heap }
  | stack {f : Fiber} (stack : Buffer Value) : m.heap.get? m.fiber = some (.fiber f) →
      QuietMove m (m.withStack f stack)
  | write (text : String) : QuietMove m (m.write text)

theorem onHeap_eq {ε α : Type} (body : EStateM (Failure ε) Heap α) (m : Machine) :
    onHeap body m = match body m.heap with
      | .ok a heap => .ok a { m with heap := heap }
      | .error e heap => .error e { m with heap := heap } :=
  rfl

theorem stateAfter_onHeap {ε α : Type} (body : EStateM (Failure ε) Heap α) (m : Machine) :
    stateAfter (onHeap body) m = { m with heap := stateAfter body m.heap } := by
  unfold stateAfter
  rw [onHeap_eq]
  cases body m.heap <;> rfl

/-- What an operation does to the heap it does to the heap of a machine. -/
theorem ByMoves.onHeap {ε α : Type} {body : EStateM (Failure ε) Heap α}
    (hb : ByMoves Heap.QuietMove body) : ByMoves Machine.QuietMove (onHeap body) := by
  intro m
  have hm := hb m.heap
  unfold Goes at hm ⊢
  rw [stateAfter_onHeap]
  generalize stateAfter body m.heap = after at hm
  induction hm with
  | refl => exact .refl
  | tail _ hmove ih => exact ih.tail (.heap hmove)

theorem newObject_quiet (o : Object) : ByMoves Heap.QuietMove (newObject o) :=
  fun _ => .single (.alloc o)

theorem listPush_quiet (list element : Value) :
    ByMoves Heap.QuietMove (listPush list element) := by
  intro heap
  cases list with
  | object h =>
    refine .get (.read_fault fun o ho => ?_)
    cases o with
    | list old =>
      exact .bind (.set (.single (.list _ (Heap.get_eq_ok_iff.mp ho)))) fun _ => .pure _
    | _ => exact .pure _
  | _ => exact .pure _

theorem pinned_quiet {α : Type} (values : List Value) {body : HeapM α}
    (hb : ByMoves Heap.QuietMove body) : ByMoves Heap.QuietMove (pinned values body) := by
  intro heap
  have hin : Relation.ReflTransGen Heap.QuietMove heap (heap.pin values) := .single (.pin _)
  have hbody := hin.trans (hb (heap.pin values))
  unfold Goes
  unfold stateAfter at hbody ⊢
  unfold pinned
  cases h : body (heap.pin values) with
  | ok a after =>
    rw [h] at hbody
    exact hbody.tail (.pin _)
  | error e after =>
    rw [h] at hbody
    exact hbody.tail (.pin _)

theorem newStringList_quiet (items : List String) :
    ByMoves Heap.QuietMove (newStringList items) := by
  refine .bind (newObject_quiet _) fun list => .bind (pinned_quiet _ ?_) fun _ => .pure _
  induction items with
  | nil => exact .pure _
  | cons item items ih =>
    exact .bind (.bind (newObject_quiet _) fun string => .bind (listPush_quiet _ _) fun _ =>
      .pure _) fun _ => ih

namespace Machine

@[simp] theorem write_heap (m : Machine) (text : String) : (m.write text).heap = m.heap := by
  unfold write
  split <;> rfl

theorem activeFiber_eq_ok {m : Machine} {f : Fiber} (h : m.activeFiber = .ok f) :
    m.heap.get? m.fiber = some (.fiber f) := by
  unfold activeFiber at h
  cases hg : m.heap.get m.fiber with
  | error e => simp [hg, bind, Except.bind] at h
  | ok o =>
    cases o with
    | fiber g =>
      simp only [hg, bind, Except.bind, pure, Except.pure, Except.ok.injEq] at h
      rw [Heap.get_eq_ok_iff.mp hg, h]
    | _ => simp [hg, bind, Except.bind] at h

end Machine

/-! ## 3. Native code -/

/-- The native code makes moves `M` only, whatever its window is. It makes no calls. -/
def NativeByMoves {α : Type} (M : Machine → Machine → Prop) (body : NativeM α) : Prop :=
  ∀ frame, ByMoves M (body frame)

section Core

open Machine

theorem returnValue_quiet (v : Value) : NativeByMoves QuietMove (returnValue v) := by
  intro frame m
  refine .get (.read_fault fun f hf => ?_)
  exact .set (.single (.stack _ (activeFiber_eq_ok hf)))

theorem collectNow_quiet : ByMoves Heap.QuietMove collectNow :=
  fun _ => .single .collect

theorem quietRules : NativeRules (NativeByMoves QuietMove) where
  pure a := fun _ => .pure a
  throw e := fun _ => .throw e
  bind hb hf := fun frame => .bind (hb frame) fun a => hf a frame
  frame := fun _ _ => .refl
  get := fun _ _ => .refl
  read x := by
    intro frame m
    cases x <;> exact .refl
  returnValue := returnValue_quiet
  newObject o := fun _ => (newObject_quiet o).onHeap
  collectNow := fun _ => collectNow_quiet.onHeap
  print text := fun _ _ => .single (.write text)

/-- A core function makes quiet moves only, and no calls. -/
theorem CoreFunction.run_quiet (function : CoreFunction) :
    NativeByMoves QuietMove function.run :=
  quietRules.run function

theorem pushWindow_quiet (args : List Value) : ByMoves QuietMove (pushWindow args) := by
  intro m
  refine .get (.read_fault fun f hf => ?_)
  refine .bind (.set ?_) fun _ => .pure _
  exact (Relation.ReflTransGen.single (.stack _ (activeFiber_eq_ok hf))).tail
    (.heap (.measure _))

theorem popWindow_quiet (base : Nat) : ByMoves QuietMove (popWindow base) := by
  intro m
  refine .get (.read_fault fun f hf => ?_)
  exact .bind (.set (.single (.stack _ (activeFiber_eq_ok hf)))) fun _ => .pure _

/-- A call makes the moves of the function it reaches, and quiet ones for its window. -/
theorem callNative_goes {M : Machine → Machine → Prop} (hquiet : ∀ a b, QuietMove a b → M a b)
    {link : Linkage} {depth : Nat} {m : Machine} {function : Value} {args : List Value}
    (hbody : ∀ entry base, m.heap.entryPoint function args.length = .ok entry →
      ByMoves M ((link entry).run ⟨base, args.length, callNative link depth⟩)) :
    Goes M (callNative link (depth + 1) function args) m := by
  refine .get (.read fun entry hentry => ?_)
  refine .bind ((pushWindow_quiet args m).mono hquiet) fun base => ?_
  refine .bind ((hbody entry base hentry).attempt _) fun outcome => ?_
  refine .bind ((popWindow_quiet base _).mono hquiet) fun returned => ?_
  cases outcome with
  | ok _ => exact .pure _
  | error e => exact .throw _

end Core

end ScriptMachine
