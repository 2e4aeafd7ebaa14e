import Mathlib.Data.Multiset.AddSub
import ScriptMachine.Proofs.Table.Writes

/-!
# What the writes do to the content of a table

Where an entry stands is a matter of the table's history: an insertion may rebuild the circle, in
a larger or a smaller size, and then every entry moves. What stands there is not: an insertion adds
its entry to those that there are, a removal takes away the one at its slot, and an overwritten
value is the only thing that changes. So the content is a multiset, in which a key that was
inserted twice occurs twice. A search is as good as a look at every entry, for any test of keys,
also one that is no equality.

Main definitions:
- `content`: the entries with their hashes, as a multiset.
- `ContentLaws`: what the writes and a search do, in terms of the content and of the slots.

Results:
1. `removeAt_slots`, `setValueAt_slots`: the two writes in place touch one slot.
2. `find?_eq_none_iff`: a search that fails has missed nothing.
3. `contentLaws_ofWrites`: the laws hold of every table that any writes lead to.
-/

namespace ScriptMachine.Table

variable {κ ν : Type}

/-- The entries of a table with their hashes, wherever they stand. -/
def content (t : Table κ ν) : Multiset (κ × ν × UInt32) :=
  t.records

/-- There is no entry at slot `i`, or there is no such slot. -/
def IsVacantAt (t : Table κ ν) (i : Nat) : Prop :=
  ∀ key value hash, t.slots[i]? ≠ some (.occupied key value hash)

theorem IsVacantAt.valueAt? {t : Table κ ν} {i : Nat} (hi : t.IsVacantAt i) :
    t.valueAt? i = none := by
  cases hv : t.valueAt? i with
  | none => rfl
  | some value =>
    obtain ⟨key, hash, hslot⟩ := valueAt?_eq_some_iff.mp hv
    exact absurd hslot (hi key value hash)

/-! ## 1. Writes in place -/

/-- What a write at one slot leaves at each. -/
theorem getElem?_setIfInBounds_of_some {slots : Array (Slot κ ν)} {i : Nat} {old : Slot κ ν}
    (hi : slots[i]? = some old) (new : Slot κ ν) :
    (slots.setIfInBounds i new)[i]? = some new ∧
      ∀ j, j ≠ i → (slots.setIfInBounds i new)[j]? = slots[j]? := by
  refine ⟨?_, fun j hj => ?_⟩
  · rw [Array.getElem?_setIfInBounds, if_pos rfl, if_pos (Array.getElem?_eq_some_iff.mp hi).1]
  · rw [Array.getElem?_setIfInBounds, if_neg (Ne.symm hj)]

theorem removeAt_slots {t : Table κ ν} {i : Nat} {key : κ} {value : ν} {hash : UInt32}
    (hi : t.slots[i]? = some (.occupied key value hash)) :
    (t.removeAt i).2.slots[i]? = some .tombstone ∧
      ∀ j, j ≠ i → (t.removeAt i).2.slots[j]? = t.slots[j]? := by
  rw [removeAt_eq hi]
  exact getElem?_setIfInBounds_of_some hi .tombstone

theorem setValueAt_slots {t : Table κ ν} {i : Nat} {key : κ} {old : ν} {hash : UInt32}
    (hi : t.slots[i]? = some (.occupied key old hash)) (value : ν) :
    (t.setValueAt i value).slots[i]? = some (.occupied key value hash) ∧
      ∀ j, j ≠ i → (t.setValueAt i value).slots[j]? = t.slots[j]? := by
  rw [setValueAt_eq hi]
  exact getElem?_setIfInBounds_of_some hi _

/-! ## 2. Searches -/

/-- A search fails exactly when no entry has the hash and a key that passes the test. -/
theorem find?_eq_none_iff {t : Table κ ν} (hw : t.WellFormed) {hash : UInt32} {test : κ → Bool} :
    t.find? hash test = none ↔
      ∀ (i : Nat) key value, t.slots[i]? = some (.occupied key value hash) → test key = false := by
  constructor
  · intro hnone i key value hi
    exact find?_eq_none hw.paths hnone hi
  · intro hall
    cases hfind : t.find? hash test with
    | none => rfl
    | some i =>
      obtain ⟨key, value, hi, hpass⟩ := find?_eq_some hfind
      rw [hall i key value hi] at hpass
      cases hpass

/-! ## 3. The laws -/

/-- What the writes to a table and a search of it do. -/
structure ContentLaws (t : Table κ ν) : Prop where
  /-- An insertion adds its entry, and a rebuild on the way neither loses nor doubles one. -/
  insertNew : ∀ key hash value,
    (t.insertNew key hash value).content = (key, value, hash) ::ₘ t.content
  /-- A removal gives the value of the entry at its slot, takes this entry away and leaves a
  tombstone. Every other slot stays as it is. -/
  removeAt : ∀ (i : Nat) key value hash, t.slots[i]? = some (.occupied key value hash) →
    (t.removeAt i).1 = some value ∧
      (key, value, hash) ::ₘ (t.removeAt i).2.content = t.content ∧
      (t.removeAt i).2.slots[i]? = some .tombstone ∧
      ∀ j, j ≠ i → (t.removeAt i).2.slots[j]? = t.slots[j]?
  /-- Where there is no entry, nothing is removed. -/
  removeAt_vacant : ∀ i, t.IsVacantAt i → t.removeAt i = (none, t)
  /-- An overwritten value is the only thing that changes. -/
  setValueAt : ∀ (i : Nat) key old hash, t.slots[i]? = some (.occupied key old hash) →
    ∀ value, (t.setValueAt i value).slots[i]? = some (.occupied key value hash) ∧
      (∀ j, j ≠ i → (t.setValueAt i value).slots[j]? = t.slots[j]?) ∧
      (t.setValueAt i value).count = t.count ∧
      (t.setValueAt i value).tombstones = t.tombstones
  /-- Where there is no entry, nothing is overwritten. -/
  setValueAt_vacant : ∀ i, t.IsVacantAt i → ∀ value, t.setValueAt i value = t
  /-- A search finds an entry with the hash and a key that passes the test. -/
  found : ∀ hash test (i : Nat), t.find? hash test = some i →
    ∃ key value, t.slots[i]? = some (.occupied key value hash) ∧ test key = true
  /-- It fails exactly when there is none. -/
  missed : ∀ hash test, t.find? hash test = none ↔
    ∀ (i : Nat) key value, t.slots[i]? = some (.occupied key value hash) → test key = false

theorem WellFormed.contentLaws {t : Table κ ν} (hw : t.WellFormed) : t.ContentLaws where
  insertNew := by
    intro key hash value
    exact Multiset.coe_eq_coe.mpr (insertNew_records hw key hash value)
  removeAt := by
    intro i key value hash hi
    refine ⟨congrArg Prod.fst (removeAt_eq hi), ?_, removeAt_slots hi⟩
    exact Multiset.coe_eq_coe.mpr (removeAt_records hi)
  removeAt_vacant := by
    intro i hi
    rw [Table.removeAt, hi.valueAt?]
  setValueAt := by
    intro i key old hash hi value
    obtain ⟨hslot, hothers⟩ := setValueAt_slots hi value
    refine ⟨hslot, hothers, ?_, ?_⟩
    · rw [setValueAt_eq hi]
    · rw [setValueAt_eq hi]
  setValueAt_vacant := fun i hi value => setValueAt_of_vacant hi.valueAt? value
  found := fun _ _ _ hfind => find?_eq_some hfind
  missed := fun _ _ => find?_eq_none_iff hw

/-- The laws hold of every table, whatever was written to it: keys inserted twice, any hashes,
indices outside the table. -/
theorem contentLaws_ofWrites (writes : List (Write κ ν)) : (ofWrites writes).ContentLaws :=
  (ofWrites_wellFormed writes).contentLaws

end ScriptMachine.Table
