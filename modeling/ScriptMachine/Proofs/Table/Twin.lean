import Mathlib.Data.List.Forall2
import ScriptMachine.Heap.Map

/-!
# Tables that differ in names only

A table looks at hashes and at nothing else of its keys and values, except through the test that a
search is given. So two tables whose slots agree up to a relation of keys and one of values act
alike: they probe the same slots, grow at the same time, and stay related slot by slot.

Main definitions:
- `Agree`: questions with related answers.
- `Slot.Twin`, `Twin`: slots and tables that agree.

Results:
1. `Twin.insertNew`, `Twin.setValueAt`, `Twin.removeAt`, `Twin.write`: writes keep tables related.
2. `Twin.findM`: related tests find the same slot.
3. `Twin.entries`, `Twin.valueAt?`, `Twin.nextOccupied?`: reads give related results.
-/

namespace ScriptMachine

/-! ## 1. Related sequences -/

section Sequences

variable {α β : Type} {P : α → β → Prop}

theorem getElem?_twin {l : List α} {m : List β} (h : List.Forall₂ P l m) (i : Nat) :
    Option.Rel P l[i]? m[i]? := by
  induction h generalizing i with
  | nil => exact .none
  | cons hab _ ih =>
    cases i with
    | zero => exact .some hab
    | succ i => exact ih i

theorem set_twin {l : List α} {m : List β} (h : List.Forall₂ P l m) (i : Nat) {a : α} {b : β}
    (hab : P a b) : List.Forall₂ P (l.set i a) (m.set i b) := by
  induction h generalizing i with
  | nil => exact .nil
  | cons hcd hrest ih =>
    cases i with
    | zero => exact .cons hab hrest
    | succ i => exact .cons hcd (ih i)

theorem replicate_twin (n : Nat) {a : α} {b : β} (hab : P a b) :
    List.Forall₂ P (List.replicate n a) (List.replicate n b) := by
  induction n with
  | zero => exact .nil
  | succ n ih => exact .cons hab ih

/-- Arrays whose elements are related one by one. -/
def ArrayTwin (P : α → β → Prop) (xs : Array α) (ys : Array β) : Prop :=
  List.Forall₂ P xs.toList ys.toList

theorem ArrayTwin.getElem? {xs : Array α} {ys : Array β} (h : ArrayTwin P xs ys) (i : Nat) :
    Option.Rel P xs[i]? ys[i]? := by
  rw [← Array.getElem?_toList, ← Array.getElem?_toList]
  exact getElem?_twin h i

theorem ArrayTwin.size_eq {xs : Array α} {ys : Array β} (h : ArrayTwin P xs ys) :
    xs.size = ys.size := by
  rw [← Array.length_toList, ← Array.length_toList]
  exact h.length_eq

theorem ArrayTwin.setIfInBounds {xs : Array α} {ys : Array β} (h : ArrayTwin P xs ys) (i : Nat)
    {a : α} {b : β} (hab : P a b) : ArrayTwin P (xs.setIfInBounds i a) (ys.setIfInBounds i b) := by
  unfold ArrayTwin
  rw [Array.toList_setIfInBounds, Array.toList_setIfInBounds]
  exact set_twin h i hab

end Sequences

/-! ## 2. Related answers -/

section Answers

variable {α α' β β' ε : Type} {R : α → α' → Prop} {S : β → β' → Prop}

/-- Two questions that may remain without an answer agree: if both get one, the answers are
related. -/
def Agree (R : α → α' → Prop) (x : Except ε α) (y : Except ε α') : Prop :=
  ∀ a b, x = .ok a → y = .ok b → R a b

theorem Agree.ok {a : α} {b : α'} (h : R a b) : Agree (ε := ε) R (.ok a) (.ok b) := by
  intro c d hc hd
  cases hc
  cases hd
  exact h

theorem Agree.bind {x : Except ε α} {y : Except ε α'} (h : Agree R x y) {f : α → Except ε β}
    {g : α' → Except ε β'} (hf : ∀ a b, R a b → Agree S (f a) (g b)) :
    Agree S (x >>= f) (y >>= g) := by
  intro c d hc hd
  cases x with
  | error e => cases hc
  | ok a =>
    cases y with
    | error e => cases hd
    | ok b => exact hf a b (h a b rfl rfl) c d hc hd

theorem Agree.mapM {l : List α} {m : List α'} (h : List.Forall₂ R l m) {f : α → Except ε β}
    {g : α' → Except ε β'} (hf : ∀ a b, R a b → Agree S (f a) (g b)) :
    Agree (List.Forall₂ S) (l.mapM f) (m.mapM g) := by
  induction h with
  | nil => exact .ok .nil
  | cons hab _ ih =>
    rw [List.mapM_cons, List.mapM_cons]
    exact (hf _ _ hab).bind fun c d hcd => ih.bind fun cs ds hcds => .ok (.cons hcd hcds)

/-- The first element that passes a test is found at the same place. -/
theorem Agree.findM? {l : List α} {m : List α'} (h : List.Forall₂ R l m) {f : α → Except ε Bool}
    {g : α' → Except ε Bool} (hf : ∀ a b, R a b → Agree Eq (f a) (g b)) :
    Agree (Option.Rel R) (l.findM? f) (m.findM? g) := by
  induction h with
  | nil => exact .ok .none
  | cons hab _ ih =>
    refine (hf _ _ hab).bind fun found found' heq => ?_
    subst heq
    cases found with
    | true => exact .ok (.some hab)
    | false => exact ih

end Answers

namespace Table

variable {κ κ' ν ν' : Type} {R : κ → κ' → Prop} {S : ν → ν' → Prop}

/-- Slots that agree, with related keys and values under one hash if they have them. -/
inductive Slot.Twin (R : κ → κ' → Prop) (S : ν → ν' → Prop) : Slot κ ν → Slot κ' ν' → Prop
  | empty : Slot.Twin R S .empty .empty
  | tombstone : Slot.Twin R S .tombstone .tombstone
  | occupied {key : κ} {key' : κ'} {value : ν} {value' : ν'} {hash : UInt32} :
      R key key' → S value value' →
      Slot.Twin R S (.occupied key value hash) (.occupied key' value' hash)

/-- Tables that agree slot by slot. -/
structure Twin (R : κ → κ' → Prop) (S : ν → ν' → Prop) (t : Table κ ν) (u : Table κ' ν') :
    Prop where
  slots : ArrayTwin (Slot.Twin R S) t.slots u.slots
  count : t.count = u.count
  tombstones : t.tombstones = u.tombstones

theorem Twin.imp {R' : κ → κ' → Prop} {S' : ν → ν' → Prop} {t : Table κ ν} {u : Table κ' ν'}
    (hR : ∀ key key', R key key' → R' key key')
    (hS : ∀ value value', S value value' → S' value value') (h : Twin R S t u) :
    Twin R' S' t u := by
  refine ⟨h.slots.imp fun slot slot' hs => ?_, h.count, h.tombstones⟩
  cases hs with
  | empty => exact .empty
  | tombstone => exact .tombstone
  | occupied hk hv => exact .occupied (hR _ _ hk) (hS _ _ hv)

theorem empty_twin : Twin R S empty empty :=
  ⟨.nil, rfl, rfl⟩

theorem Twin.capacity_eq {t : Table κ ν} {u : Table κ' ν'} (h : Twin R S t u) :
    t.capacity = u.capacity :=
  h.slots.size_eq

/-! ## 3. Writing -/

theorem vacancyFrom_twin {slots : Array (Slot κ ν)} {slots' : Array (Slot κ' ν')}
    (h : ArrayTwin (Slot.Twin R S) slots slots') (steps index : Nat) :
    vacancyFrom slots steps index = vacancyFrom slots' steps index := by
  induction steps generalizing index with
  | zero => rfl
  | succ steps ih =>
    unfold vacancyFrom
    have hslot := h.getElem? index
    revert hslot
    generalize slots[index]? = a, slots'[index]? = b
    intro hslot
    cases hslot with
    | none => rfl
    | some hs =>
      cases hs with
      | empty => rfl
      | tombstone => rfl
      | occupied _ _ =>
        rw [h.size_eq]
        exact ih _

theorem vacancy?_twin {slots : Array (Slot κ ν)} {slots' : Array (Slot κ' ν')}
    (h : ArrayTwin (Slot.Twin R S) slots slots') (hash : UInt32) :
    vacancy? slots hash = vacancy? slots' hash := by
  unfold vacancy?
  rw [vacancyFrom_twin h, h.size_eq]

theorem place_twin {slots : Array (Slot κ ν)} {slots' : Array (Slot κ' ν')} {slot : Slot κ ν}
    {slot' : Slot κ' ν'} (h : ArrayTwin (Slot.Twin R S) slots slots')
    (hs : Slot.Twin R S slot slot') :
    ArrayTwin (Slot.Twin R S) (place slots slot) (place slots' slot') := by
  cases hs with
  | empty => exact h
  | tombstone => exact h
  | @occupied _ _ _ _ hash hk hv =>
    unfold place
    dsimp only
    rw [vacancy?_twin h]
    split
    · exact h.setIfInBounds _ (.occupied hk hv)
    · exact h

theorem Twin.rehash {t : Table κ ν} {u : Table κ' ν'} (h : Twin R S t u) (capacity : Nat) :
    Twin R S (t.rehash capacity) (u.rehash capacity) where
  slots := by
    unfold Table.rehash
    dsimp only
    rw [← Array.foldl_toList, ← Array.foldl_toList]
    have hblank : ArrayTwin (Slot.Twin R S) (Array.replicate capacity .empty)
        (Array.replicate capacity .empty) := by
      unfold ArrayTwin
      rw [Array.toList_replicate, Array.toList_replicate]
      exact replicate_twin capacity .empty
    exact List.rel_foldl (fun _ _ hslots _ _ hslot => place_twin hslots hslot) hblank h.slots
  count := h.count
  tombstones := rfl

theorem Twin.reserveOne {t : Table κ ν} {u : Table κ' ν'} (h : Twin R S t u) :
    Twin R S t.reserveOne u.reserveOne := by
  unfold Table.reserveOne
  rw [h.count, h.tombstones, h.capacity_eq]
  split
  · exact h
  · exact h.rehash _

theorem Twin.insertNew {t : Table κ ν} {u : Table κ' ν'} (h : Twin R S t u) {key : κ} {key' : κ'}
    (hk : R key key') (hash : UInt32) {value : ν} {value' : ν'} (hv : S value value') :
    Twin R S (t.insertNew key hash value) (u.insertNew key' hash value') := by
  have hr := h.reserveOne
  unfold Table.insertNew
  dsimp only
  rw [vacancy?_twin hr.slots]
  split
  · exact hr
  · next index _ =>
    refine ⟨hr.slots.setIfInBounds _ (.occupied hk hv), by dsimp only; rw [hr.count], ?_⟩
    dsimp only
    rw [hr.tombstones]
    have hslot := hr.slots.getElem? index
    revert hslot
    generalize t.reserveOne.slots[index]? = a, u.reserveOne.slots[index]? = b
    intro hslot
    cases hslot with
    | none => rfl
    | some hs => cases hs <;> rfl

theorem Twin.setValueAt {t : Table κ ν} {u : Table κ' ν'} (h : Twin R S t u) (index : Nat)
    {value : ν} {value' : ν'} (hv : S value value') :
    Twin R S (t.setValueAt index value) (u.setValueAt index value') := by
  unfold Table.setValueAt
  have hslot := h.slots.getElem? index
  revert hslot
  generalize t.slots[index]? = a, u.slots[index]? = b
  intro hslot
  cases hslot with
  | none => exact h
  | some hs =>
    cases hs with
    | empty => exact h
    | tombstone => exact h
    | occupied hk _ => exact ⟨h.slots.setIfInBounds _ (.occupied hk hv), h.count, h.tombstones⟩

theorem Twin.valueAt? {t : Table κ ν} {u : Table κ' ν'} (h : Twin R S t u) (index : Nat) :
    Option.Rel S (t.valueAt? index) (u.valueAt? index) := by
  unfold Table.valueAt?
  have hslot := h.slots.getElem? index
  revert hslot
  generalize t.slots[index]? = a, u.slots[index]? = b
  intro hslot
  cases hslot with
  | none => exact .none
  | some hs =>
    cases hs with
    | empty => exact .none
    | tombstone => exact .none
    | occupied _ hv => exact .some hv

theorem Twin.removeAt {t : Table κ ν} {u : Table κ' ν'} (h : Twin R S t u) (index : Nat) :
    Option.Rel S (t.removeAt index).1 (u.removeAt index).1 ∧
      Twin R S (t.removeAt index).2 (u.removeAt index).2 := by
  unfold Table.removeAt
  have hvalue := h.valueAt? index
  revert hvalue
  generalize t.valueAt? index = a, u.valueAt? index = b
  intro hvalue
  cases hvalue with
  | none => exact ⟨.none, h⟩
  | some hv =>
    refine ⟨.some hv, h.slots.setIfInBounds _ .tombstone, ?_, ?_⟩
    · dsimp only
      rw [h.count]
    · dsimp only
      rw [h.tombstones]

theorem Twin.write {R : Value → Value → Prop} {t u : Table Value Value} (h : Twin R R t u)
    (slot : Option Nat) {key key' : Value} (hk : R key key') (hash : UInt32) {value value' : Value}
    (hv : R value value') :
    Twin R R (t.write slot key hash value) (u.write slot key' hash value') := by
  cases slot with
  | none => exact h.insertNew hk hash hv
  | some index => exact h.setValueAt index hv

/-! ## 4. Reading -/

/-- A search with tests that agree finds the same slot. -/
theorem Twin.findM {ε : Type} {t : Table κ ν} {u : Table κ' ν'} (h : Twin R S t u) (hash : UInt32)
    {test : κ → Except ε Bool} {test' : κ' → Except ε Bool}
    (htest : ∀ key key', R key key' → Agree Eq (test key) (test' key')) :
    Agree Eq (t.findM hash test) (u.findM hash test') := by
  unfold Table.findM
  rw [← h.capacity_eq]
  generalize home t.capacity hash = index
  generalize t.capacity = steps
  induction steps generalizing index with
  | zero => exact .ok rfl
  | succ steps ih =>
    unfold probeM
    rw [← h.capacity_eq]
    have hslot := h.slots.getElem? index
    revert hslot
    generalize t.slots[index]? = a, u.slots[index]? = b
    intro hslot
    cases hslot with
    | none => exact .ok rfl
    | some hslot =>
      cases hslot with
      | empty => exact .ok rfl
      | tombstone => exact ih _
      | occupied hk _ =>
        dsimp only
        split
        · refine (htest _ _ hk).bind fun found found' heq => ?_
          subst heq
          cases found with
          | true => exact .ok rfl
          | false => exact ih _
        · exact ih _

theorem Twin.entries {t : Table κ ν} {u : Table κ' ν'} (h : Twin R S t u) :
    List.Forall₂ (fun e e' => R e.1 e'.1 ∧ S e.2 e'.2) t.entries u.entries := by
  refine List.rel_filterMap (fun slot slot' hs => ?_) h.slots
  cases hs with
  | empty => exact .none
  | tombstone => exact .none
  | occupied hk hv => exact .some ⟨hk, hv⟩

theorem Twin.nextOccupied? {t : Table κ ν} {u : Table κ' ν'} (h : Twin R S t u) (start : Nat) :
    Option.Rel (fun e e' => e.1 = e'.1 ∧ R e.2 e'.2) (t.nextOccupied? start)
      (u.nextOccupied? start) := by
  unfold Table.nextOccupied?
  have hrest := List.forall₂_drop start h.slots
  revert hrest
  generalize t.slots.toList.drop start = l, u.slots.toList.drop start = l'
  intro hrest
  induction hrest generalizing start with
  | nil => exact .none
  | cons hs _ ih =>
    cases hs with
    | empty => exact ih (start + 1)
    | tombstone => exact ih (start + 1)
    | occupied hk _ => exact .some ⟨rfl, hk⟩

end Table

end ScriptMachine
