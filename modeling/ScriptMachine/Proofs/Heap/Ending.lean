import ScriptMachine.Heap.Alloc

/-!
# How operations end

An operation on the heap ends with a result, with an error for the script, or with a fault.
`Ends m heap Q` says that `m`, started on `heap`, meets what `Q` asks of the ending it has. The
rules below take an operation apart in the order in which it runs: a step that reads or checks
leaves the heap alone and splits the proof in two, and what is known about the step goes to the
side that needs it.
-/

namespace ScriptMachine

/-- What is asked of each ending of an operation, and of the heap it leaves. -/
structure Endings (α : Type) where
  ok : α → Heap → Prop
  error : EvalError → Heap → Prop
  fault : Fault → Heap → Prop

/-- The same is asked of the heap, however the operation ends. -/
def Endings.always {α : Type} (P : Heap → Prop) : Endings α :=
  ⟨fun _ => P, fun _ => P, fun _ => P⟩

/-- A result is asked for, with the heap it leaves; errors and faults are ruled out. -/
def Endings.returns {α : Type} (P : α → Heap → Prop) : Endings α :=
  ⟨P, fun _ _ => False, fun _ _ => False⟩

/-- The operation reports this error and leaves the heap as it was. -/
def Endings.refuses {α : Type} (heap : Heap) (e : EvalError) : Endings α :=
  ⟨fun _ _ => False, fun e' after => e' = e ∧ after = heap, fun _ _ => False⟩

/-- The operation meets what is asked of its ending. -/
def Ends {α : Type} (m : HeapM α) (heap : Heap) (Q : Endings α) : Prop :=
  match m heap with
  | .ok a after => Q.ok a after
  | .error (.error e) after => Q.error e after
  | .error (.fault f) after => Q.fault f after

/-- The heap that an operation leaves, however it ends. -/
def heapAfter {α : Type} (m : HeapM α) (heap : Heap) : Heap :=
  match m heap with
  | .ok _ after => after
  | .error _ after => after

variable {α β : Type} {heap : Heap}

theorem Ends.heapAfter {m : HeapM α} {P : Heap → Prop} (h : Ends m heap (.always P)) :
    P (heapAfter m heap) := by
  unfold ScriptMachine.heapAfter
  unfold Ends at h
  cases hm : m heap with
  | ok a after =>
    rw [hm] at h
    exact h
  | error e after =>
    rw [hm] at h
    cases e <;> exact h

theorem Ends.mono {m : HeapM α} {Q R : Endings α} (h : Ends m heap Q)
    (hok : ∀ a after, Q.ok a after → R.ok a after)
    (herror : ∀ e after, Q.error e after → R.error e after)
    (hfault : ∀ f after, Q.fault f after → R.fault f after) : Ends m heap R := by
  unfold Ends at h ⊢
  cases hm : m heap with
  | ok a after =>
    rw [hm] at h
    exact hok _ _ h
  | error e after =>
    rw [hm] at h
    cases e with
    | error e => exact herror _ _ h
    | fault f => exact hfault _ _ h

theorem Ends.exists_ok {m : HeapM α} {P : α → Heap → Prop} (h : Ends m heap (.returns P)) :
    ∃ a, m heap = .ok a (ScriptMachine.heapAfter m heap) ∧
      P a (ScriptMachine.heapAfter m heap) := by
  unfold ScriptMachine.heapAfter
  unfold Ends at h
  cases hm : m heap with
  | ok a after =>
    rw [hm] at h
    exact ⟨a, rfl, h⟩
  | error e after =>
    rw [hm] at h
    cases e <;> exact h.elim

theorem Ends.eq_error {m : HeapM α} {e : EvalError} (h : Ends m heap (.refuses heap e)) :
    m heap = .error (.error e) heap := by
  unfold Ends at h
  cases hm : m heap with
  | ok a after =>
    rw [hm] at h
    exact h.elim
  | error failure after =>
    rw [hm] at h
    cases failure with
    | error e' =>
      obtain ⟨rfl, rfl⟩ := h
      rfl
    | fault f => exact h.elim

/-! ## Sequences -/

theorem Ends.bind {m : HeapM α} {f : α → HeapM β} {Q : Endings β}
    (h : Ends m heap ⟨fun a after => Ends (f a) after Q, Q.error, Q.fault⟩) :
    Ends (m >>= f) heap Q := by
  show Ends (EStateM.bind m f) heap Q
  unfold Ends EStateM.bind
  unfold Ends at h
  cases hm : m heap with
  | ok a after => simpa [hm] using h
  | error e after => cases e <;> simpa [hm] using h

theorem Ends.get {f : Heap → HeapM β} {Q : Endings β} (h : Ends (f heap) heap Q) :
    Ends (get >>= f) heap Q :=
  .bind h

/-- A read of the heap: it gives a value, or it meets a fault. -/
theorem Ends.read {x : Except Fault α} {f : α → HeapM β} {Q : Endings β}
    (hok : ∀ a, x = .ok a → Ends (f a) heap Q) (hfault : ∀ e, x = .error e → Q.fault e heap) :
    Ends (liftM x >>= f) heap Q := by
  refine .bind ?_
  cases x with
  | ok a => exact hok a rfl
  | error e => exact hfault e rfl

/-- A read that is known to succeed. -/
theorem Ends.read_ok {x : Except Fault α} {a : α} {f : α → HeapM β}
    {Q : Endings β} (hx : x = .ok a) (h : Ends (f a) heap Q) : Ends (liftM x >>= f) heap Q := by
  refine .read (fun b hb => ?_) fun e he => ?_
  · rw [hx] at hb
    cases hb
    exact h
  · rw [hx] at he
    cases he

/-- A check of an operand: it gives a value, or an error for the script. -/
theorem Ends.check {x : Except EvalError α} {f : α → HeapM β} {Q : Endings β}
    (hok : ∀ a, x = .ok a → Ends (f a) heap Q) (herror : ∀ e, x = .error e → Q.error e heap) :
    Ends (liftM x >>= f) heap Q := by
  refine .bind ?_
  cases x with
  | ok a => exact hok a rfl
  | error e => exact herror e rfl

/-- A check that is known to succeed. -/
theorem Ends.check_ok {x : Except EvalError α} {a : α} {f : α → HeapM β} {Q : Endings β}
    (hx : x = .ok a) (h : Ends (f a) heap Q) : Ends (liftM x >>= f) heap Q := by
  subst hx
  exact .bind h

/-- A read that can also be refused, at the end of an operation. -/
theorem Ends.query {x : Except (Failure EvalError) α} {Q : Endings α}
    (hok : ∀ a, x = .ok a → Q.ok a heap) (herror : ∀ e, x = .error (.error e) → Q.error e heap)
    (hfault : ∀ f, x = .error (.fault f) → Q.fault f heap) :
    Ends (liftM x) heap Q := by
  cases x with
  | ok a => exact hok a rfl
  | error e =>
    cases e with
    | error e => exact herror e rfl
    | fault f => exact hfault f rfl

/-! ## Last steps -/

theorem Ends.pure {a : α} {Q : Endings α} (h : Q.ok a heap) : Ends (pure a) heap Q := h

theorem Ends.set {after : Heap} {Q : Endings PUnit} (h : Q.ok ⟨⟩ after) :
    Ends (set after) heap Q := h

theorem Ends.throw {e : EvalError} {Q : Endings α} (h : Q.error e heap) :
    Ends (throw (.error e)) heap Q := h

theorem Ends.newObject {o : Object} {Q : Endings Value}
    (h : Q.ok (.object (heap.alloc o).1) (heap.alloc o).2) : Ends (newObject o) heap Q := h

end ScriptMachine
