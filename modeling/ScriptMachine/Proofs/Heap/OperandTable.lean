import ScriptMachine.Proofs.Heap.Allocation
import ScriptMachine.Proofs.Heap.KeyClass
import ScriptMachine.Proofs.Heap.Safety
import ScriptMachine.Proofs.Number.Remainder

/-!
# The operand table

What an operator does is settled by the kinds of its operands. Numbers and booleans are calculated
with, two strings are joined by `+`, and any other pair of kinds is refused. Only the joining of
strings touches the heap. It has read its operands by then, and so it makes no difference to the sum
if room for it is made by a collection that takes them.

Main definitions:
- `Operator.Computes`: what each operator makes of two numbers.
- `Operator.refusal`: the error for a pair of kinds that an operator does not take.
- `Heap.Tabulated`: what an operator makes of operands of two kinds.

Results:
1. `Operator.category_refusal`: the class of the error.
2. `evaluate_numbers`, `evaluate_strings`, `evaluate_refused`: the three parts of the table.
3. `Reachable.tabulated`: all operators keep to the table.
-/

namespace ScriptMachine

/-! ## 1. Kinds of operands -/

/-- The kinds that are calculated with. -/
def Kind.isNumeric : Kind → Bool
  | .bool | .number => true
  | .null | .string | .list | .map | .range | .function | .script | .fiber | .foreign => false

/-- `v.CountsAs x`: as an operand, `v` is the number `x`. -/
inductive Value.CountsAs : Value → Double → Prop
  | number (x : Double) : CountsAs (.number x) x
  | truth : CountsAs (.bool true) 1
  | falsity : CountsAs (.bool false) 0

namespace Operator

/-- `op.Computes a b v`: from the numbers `a` and `b`, in this order, the operator makes `v`. That
is a number or, for a comparison, a boolean. -/
inductive Computes (a b : Double) : Operator → Value → Prop
  | add : Computes a b .add (.number (.ofFloat (a.toFloat + b.toFloat)))
  | sub : Computes a b .sub (.number (.ofFloat (a.toFloat - b.toFloat)))
  | mul : Computes a b .mul (.number (.ofFloat (a.toFloat * b.toFloat)))
  | div : Computes a b .div (.number (.ofFloat (a.toFloat / b.toFloat)))
  | mod {r : Double} : IsRemainder a b r → Computes a b .mod (.number r)
  | gt : Computes a b .gt (.bool (decide (b.toFloat < a.toFloat)))
  | lt : Computes a b .lt (.bool (decide (a.toFloat < b.toFloat)))

theorem computes_onNumbers (op : Operator) (a b : Double) : op.Computes a b (op.onNumbers a b) := by
  cases op with
  | add => exact .add
  | sub => exact .sub
  | mul => exact .mul
  | div => exact .div
  | mod => exact .mod (remainder_isRemainder a b)
  | gt => exact .gt
  | lt => exact .lt

/-- Whether the operator has a meaning for these kinds that is not implemented: lists under `+`,
and a string to be formatted by `%`. -/
def IsMissing (op : Operator) (left right : Kind) : Prop :=
  op = .add ∧ left = .list ∧ right = .list ∨ op = .mod ∧ left = .string

instance (op : Operator) (left right : Kind) : Decidable (op.IsMissing left right) :=
  inferInstanceAs (Decidable (_ ∨ _))

/-- The error for operands of kinds that the operator does not take. Arithmetic that has begun with
a number asks for another one; comparisons name both kinds. -/
def refusal (op : Operator) (left right : Kind) : EvalError :=
  if left.isNumeric = true ∧ op.isComparison = false then .notNumeric "Right operand"
  else match op, left, right with
    | .add, .list, .list => .notImplemented "List concatenation"
    | .mod, .string, _ => .notImplemented "String formatting with '%'"
    | _, _, _ => .unsupportedOperands op.symbol left.name right.name

theorem category_refusal (op : Operator) (left right : Kind) :
    (op.refusal left right).category =
      if op.IsMissing left right then .notImplemented else .typeMismatch := by
  cases op <;> cases left <;> cases right <;> rfl

theorem refusal_of_unsupported {op : Operator} {left right : Kind}
    (hcompare : left.isNumeric = true → op.isComparison = true)
    (hmissing : ¬ op.IsMissing left right) :
    op.refusal left right = .unsupportedOperands op.symbol left.name right.name := by
  unfold refusal
  rw [if_neg fun h => by simp [hcompare h.1] at h]
  split
  · exact absurd (.inl ⟨rfl, rfl, rfl⟩) hmissing
  · exact absurd (.inr ⟨rfl, rfl⟩) hmissing
  · rfl

end Operator

/-! ## 2. The parts of the table -/

variable {heap : Heap} {left right : Value} {l r : Kind} {op : Operator}

theorem Value.CountsAs.asNumber?_eq {v : Value} {x : Double} (h : v.CountsAs x) :
    v.asNumber? = some x := by
  cases h <;> rfl

theorem Heap.kindOf_object {h : Handle} :
    heap.kindOf (.object h) = .ok l ↔ ∃ o, heap.get? h = some o ∧ o.kind = l := by
  simp only [← get_eq_ok_iff, kindOf]
  cases heap.get h <;> simp [bind, Except.bind, pure, Except.pure]

/-- A value of a numeric kind counts as a number. -/
theorem Heap.exists_countsAs {v : Value} (hk : heap.kindOf v = .ok l) (hl : l.isNumeric = true) :
    ∃ x, v.CountsAs x := by
  cases v with
  | null =>
    cases hk
    cases hl
  | number x => exact ⟨x, .number x⟩
  | bool b =>
    cases b with
    | true => exact ⟨_, .truth⟩
    | false => exact ⟨_, .falsity⟩
  | object h =>
    obtain ⟨o, -, rfl⟩ := kindOf_object.mp hk
    cases o <;> cases hl

/-- A value of no numeric kind is null, or it is an object. -/
theorem Heap.null_or_object {v : Value} (hk : heap.kindOf v = .ok l) (hl : l.isNumeric = false) :
    v = .null ∧ l = .null ∨ ∃ h o, v = .object h ∧ heap.get? h = some o ∧ o.kind = l := by
  cases v with
  | null => exact .inl ⟨rfl, (Except.ok.inj hk).symm⟩
  | object h =>
    obtain ⟨o, ho, hkind⟩ := kindOf_object.mp hk
    exact .inr ⟨h, o, rfl, ho, hkind⟩
  | _ =>
    cases hk
    cases hl

theorem Heap.asNumber?_eq_none {v : Value} (hk : heap.kindOf v = .ok l)
    (hl : l.isNumeric = false) : v.asNumber? = none := by
  obtain ⟨rfl, -⟩ | ⟨h, -, rfl, -⟩ := null_or_object hk hl <;> rfl

theorem Heap.exists_string {v : Value} (hk : heap.kindOf v = .ok .string) :
    ∃ s, heap.asString v = .ok (some s) := by
  obtain ⟨-, h⟩ | ⟨h, o, rfl, ho, hkind⟩ := null_or_object hk rfl
  · cases h
  · cases o <;> cases hkind
    exact ⟨_, asString_of_get? ho⟩

theorem Heap.asString_eq_none {v : Value} (hk : heap.kindOf v = .ok l)
    (hl : l.isNumeric = false) (hstring : l ≠ .string) : heap.asString v = .ok none := by
  obtain ⟨rfl, -⟩ | ⟨h, o, rfl, ho, rfl⟩ := null_or_object hk hl
  · rfl
  · rw [asString, view_object, get_eq_ok_iff.mpr ho]
    cases o with
    | string s => exact absurd rfl hstring
    | _ => rfl

theorem evaluate_numbers {a b : Double} (ha : left.CountsAs a) (hb : right.CountsAs b) :
    evaluate op left right heap = .ok (op.onNumbers a b) heap := by
  unfold evaluate
  rw [ha.asNumber?_eq, hb.asNumber?_eq]
  rfl

/-- Whatever has no error of its own is refused with the kinds of both operands. -/
theorem unsupported_refuses {α : Type} (hl : heap.kindOf left = .ok l)
    (hr : heap.kindOf right = .ok r) (hcompare : l.isNumeric = true → op.isComparison = true)
    (hmissing : ¬ op.IsMissing l r) :
    Ends (unsupported op left right : HeapM α) heap (.refuses heap (op.refusal l r)) := by
  have hleft : heap.typeName left = .ok l.name := by rw [Heap.typeName, hl]; rfl
  have hright : heap.typeName right = .ok r.name := by rw [Heap.typeName, hr]; rfl
  rw [Operator.refusal_of_unsupported hcompare hmissing]
  exact .get (.read_ok hleft (.read_ok hright (.throw ⟨rfl, rfl⟩)))

theorem concatenate_refuses (hl : heap.kindOf left = .ok l) (hr : heap.kindOf right = .ok r)
    (hleft : l.isNumeric = false) (hjoin : ¬ (l = .string ∧ r = .string)) :
    Ends (concatenate left right) heap (.refuses heap (Operator.add.refusal l r)) := by
  have hcompare : l.isNumeric = true → Operator.add.isComparison = true := by simp [hleft]
  unfold concatenate
  split
  · next a b =>
    obtain ⟨o, ho, rfl⟩ := Heap.kindOf_object.mp hl
    obtain ⟨p, hp, rfl⟩ := Heap.kindOf_object.mp hr
    refine .get (.read_ok (Heap.get_eq_ok_iff.mpr ho) (.read_ok (Heap.get_eq_ok_iff.mpr hp) ?_))
    split
    · exact absurd ⟨rfl, rfl⟩ hjoin
    · exact .throw ⟨rfl, rfl⟩
    · next hlists =>
      refine unsupported_refuses hl hr hcompare ?_
      rintro (⟨-, ho', hp'⟩ | ⟨h, -⟩)
      · cases o <;> cases ho'
        cases p <;> cases hp'
        exact hlists _ _ rfl rfl
      · cases h
  · next hobjects =>
    refine unsupported_refuses hl hr hcompare ?_
    rintro (⟨-, rfl, rfl⟩ | ⟨h, -⟩)
    · obtain ⟨-, h⟩ | ⟨a, -, rfl, -⟩ := Heap.null_or_object hl rfl
      · cases h
      obtain ⟨-, h⟩ | ⟨b, -, rfl, -⟩ := Heap.null_or_object hr rfl
      · cases h
      exact hobjects _ _ rfl rfl
    · cases h

theorem formatString_refuses (hl : heap.kindOf left = .ok l) (hr : heap.kindOf right = .ok r)
    (hleft : l.isNumeric = false) :
    Ends (formatString left right) heap (.refuses heap (Operator.mod.refusal l r)) := by
  unfold formatString
  by_cases hstring : l = .string
  · subst hstring
    obtain ⟨s, hs⟩ := Heap.exists_string hl
    exact .get (.read_ok hs (.throw ⟨rfl, rfl⟩))
  · have hs := Heap.asString_eq_none hl hleft hstring
    refine .get (.read_ok hs (unsupported_refuses hl hr (by simp [hleft]) ?_))
    rintro (⟨h, -⟩ | ⟨-, h⟩)
    · cases h
    · exact hstring h

/-- Strings are joined by `+` in a new string, which is the only change to the heap that an
operator makes. -/
theorem evaluate_strings (ht : heap.Tidy) {s t : ByteString}
    (hleft : heap.asString left = .ok (some s)) (hright : heap.asString right = .ok (some t)) :
    ∃ h after, evaluate .add left right heap = .ok (.object h) after ∧
      heap.AllocatedTo (.string (.ofBytes (s.bytes ++ t.bytes))) h after := by
  obtain ⟨a, rfl, ha⟩ := Heap.asString_eq_some hleft
  obtain ⟨b, rfl, hb⟩ := Heap.asString_eq_some hright
  have hjoin : Ends (evaluate .add (.object a) (.object b)) heap
      (.returns fun v after => ∃ h, v = .object h ∧
        heap.AllocatedTo (.string (.ofBytes (s.bytes ++ t.bytes))) h after) :=
    .get (.read_ok (Heap.get_eq_ok_iff.mpr ha) (.read_ok (Heap.get_eq_ok_iff.mpr hb)
      (.newObject ⟨_, rfl, Heap.alloc_allocatedTo ht _⟩)))
  obtain ⟨_, hsum, h, rfl, halloc⟩ := hjoin.exists_ok
  exact ⟨h, _, hsum, halloc⟩

/-- Operands of any other kinds are refused, and nothing is touched. -/
theorem evaluate_refused (hl : heap.kindOf left = .ok l) (hr : heap.kindOf right = .ok r)
    (hnumbers : ¬ (l.isNumeric = true ∧ r.isNumeric = true))
    (hstrings : ¬ (op = .add ∧ l = .string ∧ r = .string)) :
    evaluate op left right heap = .error (.error (op.refusal l r)) heap := by
  apply Ends.eq_error
  unfold evaluate
  cases hleft : l.isNumeric with
  | true =>
    have hright : r.isNumeric = false := by simpa [hleft] using hnumbers
    obtain ⟨a, ha⟩ := Heap.exists_countsAs hl hleft
    rw [ha.asNumber?_eq, Heap.asNumber?_eq_none hr hright]
    dsimp only
    split
    · next hcompare =>
      refine unsupported_refuses hl hr (fun _ => hcompare) ?_
      rintro (⟨rfl, -⟩ | ⟨rfl, -⟩) <;> cases hcompare
    · next hcompare =>
      refine .throw ⟨?_, rfl⟩
      unfold Operator.refusal
      rw [if_pos ⟨hleft, Bool.eq_false_iff.mpr hcompare⟩]
  | false =>
    rw [Heap.asNumber?_eq_none hl hleft]
    have hcompare : l.isNumeric = true → op.isComparison = true := by simp [hleft]
    cases op with
    | add => exact concatenate_refuses hl hr hleft fun h => hstrings ⟨rfl, h⟩
    | mod => exact formatString_refuses hl hr hleft
    | _ =>
      refine unsupported_refuses hl hr hcompare ?_
      rintro (⟨h, -⟩ | ⟨h, -⟩) <;> cases h

/-! ## 3. The table -/

/-- What an operator makes of operands of two kinds. -/
structure Heap.Tabulated (heap : Heap) (op : Operator) (left right : Value) (l r : Kind) :
    Prop where
  /-- Numbers and booleans are calculated with, and the heap stays as it was. -/
  numbers : l.isNumeric = true ∧ r.isNumeric = true → ∃ a b v, left.CountsAs a ∧
    right.CountsAs b ∧ op.Computes a b v ∧ evaluate op left right heap = .ok v heap
  /-- Strings are joined by `+`. The sum is a new object, whatever becomes of the operands. -/
  strings : op = .add ∧ l = .string ∧ r = .string → ∃ s t joined h after,
    heap.asString left = .ok (some s) ∧ heap.asString right = .ok (some t) ∧
    evaluate op left right heap = .ok (.object h) after ∧
    heap.AllocatedTo (.string joined) h after ∧ joined.bytes = s.bytes ++ t.bytes ∧
    joined.hash = hashBytes (s.bytes ++ t.bytes)
  /-- All else is refused, and the heap stays as it was. -/
  others : ¬ (l.isNumeric = true ∧ r.isNumeric = true) →
    ¬ (op = .add ∧ l = .string ∧ r = .string) →
    evaluate op left right heap = .error (.error (op.refusal l r)) heap ∧
    (op.refusal l r).category = if op.IsMissing l r then .notImplemented else .typeMismatch

/-- Every operator keeps to the table on every heap that any run of any operations leads to, with
all operands that are there. -/
theorem Reachable.tabulated {tuning : Tuning} (hreach : Reachable (fun _ _ => True) tuning heap)
    (op : Operator) (hl : heap.Has left) (hr : heap.Has right) : ∃ l r,
    heap.kindOf left = .ok l ∧ heap.kindOf right = .ok r ∧ heap.Tabulated op left right l r := by
  obtain ⟨l, hl⟩ := Heap.kindOf_ok hl
  obtain ⟨r, hr⟩ := Heap.kindOf_ok hr
  refine ⟨l, r, hl, hr, ⟨?_, ?_, ?_⟩⟩
  · rintro ⟨hleft, hright⟩
    obtain ⟨a, ha⟩ := Heap.exists_countsAs hl hleft
    obtain ⟨b, hb⟩ := Heap.exists_countsAs hr hright
    exact ⟨a, b, _, ha, hb, op.computes_onNumbers a b, evaluate_numbers ha hb⟩
  · rintro ⟨rfl, rfl, rfl⟩
    obtain ⟨s, hs⟩ := Heap.exists_string hl
    obtain ⟨t, ht⟩ := Heap.exists_string hr
    obtain ⟨h, after, hsum, halloc⟩ := evaluate_strings hreach.tidy hs ht
    exact ⟨s, t, _, h, after, hs, ht, hsum, halloc, rfl, rfl⟩
  · intro hnumbers hstrings
    exact ⟨evaluate_refused hl hr hnumbers hstrings, op.category_refusal l r⟩

/-- There is room for one string. The sum of a string with itself takes the place of the string. -/
theorem Reachable.tabulated_of_collection :
    let tuning : Tuning := ⟨81, 81, 0, false⟩
    let heap := (HeapOp.act (.newString [97])).after (.empty tuning)
    let string : Value := .object ⟨0, 0⟩
    Reachable (fun _ _ => True) tuning heap ∧ heap.Has string ∧
      ∃ h after joined, evaluate .add string string heap = .ok (.object h) after ∧
        after.get? h = some (.string joined) ∧ joined.bytes = [97, 97] ∧
        joined.hash = hashBytes [97, 97] ∧ after.isLive ⟨0, 0⟩ = false := by
  intro tuning heap string
  have hreach : Reachable (fun _ _ => True) tuning heap := .step .start trivial
  have hlive : heap.isLive ⟨0, 0⟩ = true := rfl
  have hhas : heap.Has string := Heap.has_object.mpr hlive
  obtain ⟨l, r, hl, hr, htable⟩ := hreach.tabulated .add hhas hhas
  cases hl
  cases hr
  obtain ⟨s, t, joined, h, after, hs, ht, hsum, halloc, hbytes, hhash⟩ :=
    htable.strings ⟨rfl, rfl, rfl⟩
  cases hs
  cases ht
  have hfull : heap.threshold < heap.bytes + (Object.string joined).footprint := by
    rw [Object.footprint, Object.payload, ByteString.length, hbytes]
    decide
  have hdue : after.collections ≠ heap.collections := by
    rw [halloc.due, if_pos (.inr hfull)]
    exact Nat.succ_ne_self _
  -- A string holds nothing, and there are no roots and no pins.
  have hgone : ∀ k, ¬ heap.Reaches [] k := by
    intro k hk
    induction hk with
    | start hmem _ => cases hmem
    | child _ _ _ _ ih => exact ih
  exact ⟨hreach, hhas, h, after, joined, hsum, halloc.object, hbytes, hhash,
    halloc.collected hdue _ hlive (hgone _)⟩

end ScriptMachine
