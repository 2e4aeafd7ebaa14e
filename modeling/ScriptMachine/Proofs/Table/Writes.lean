import ScriptMachine.Proofs.Table.Probing

/-!
# Tables under any writes

A table is written in three ways, and callers are trusted with nothing: a key may be inserted
twice, a hash may be anything, an index may lie outside the table. Whatever was written, the table
is well-formed, and the loops of the next write come to an end. The loops are stated here without
a bound on their steps, so that an end is a fact about the table and not about a counter.

Main definitions:
- `Write`, `ofWrites`: a write, and the table that a sequence of writes leads to.
- `Walk`: an unbounded walk along the circle, from where it begins to where it ends.
- `Sound`: the invariant, with what the next write may rely on.

Results:
1. `walk_of_vacancyFrom`: where a bounded search finds a vacancy, the unbounded walk ends.
2. `rehash_walks`: each entry that a rebuild moves comes to an empty slot.
3. `sound_ofWrites`: every sequence of writes leads to a sound table.
-/

namespace ScriptMachine.Table

variable {κ ν : Type}

/-! ## 1. Writes -/

/-- A write to a table. -/
inductive Write (κ ν : Type) where
  | insertNew (key : κ) (hash : UInt32) (value : ν)
  | setValueAt (index : Nat) (value : ν)
  | removeAt (index : Nat)

/-- Carries out a write. -/
def Write.apply (t : Table κ ν) : Write κ ν → Table κ ν
  | insertNew key hash value => t.insertNew key hash value
  | setValueAt index value => t.setValueAt index value
  | removeAt index => (t.removeAt index).2

/-- The table that a sequence of writes makes of the one without slots. -/
def ofWrites (writes : List (Write κ ν)) : Table κ ν :=
  writes.foldl Write.apply empty

theorem Write.apply_wellFormed {t : Table κ ν} (hw : t.WellFormed) (w : Write κ ν) :
    (w.apply t).WellFormed := by
  cases w with
  | insertNew key hash value => exact insertNew_wellFormed hw key hash value
  | setValueAt index value => exact setValueAt_wellFormed hw index value
  | removeAt index => exact removeAt_wellFormed hw index

theorem ofWrites_wellFormed (writes : List (Write κ ν)) : (ofWrites writes).WellFormed := by
  unfold ofWrites
  suffices h : ∀ t : Table κ ν, t.WellFormed → (writes.foldl Write.apply t).WellFormed from
    h empty empty_wellFormed
  induction writes with
  | nil => exact fun t hw => hw
  | cons w writes ih => exact fun t hw => ih _ (w.apply_wellFormed hw)

/-! ## 2. Walks without a bound -/

/-- `Walk stop slots i j`: a walk that begins at slot `i` and goes on until `stop` holds comes to
its end at slot `j`, and reads no slot outside the table on the way. -/
inductive Walk (stop : Slot κ ν → Bool) (slots : Array (Slot κ ν)) : Nat → Nat → Prop
  | here {i : Nat} {slot : Slot κ ν} : slots[i]? = some slot → stop slot = true →
      Walk stop slots i i
  | on {i j : Nat} {slot : Slot κ ν} : slots[i]? = some slot → stop slot = false →
      Walk stop slots (next slots.size i) j → Walk stop slots i j

/-- Whether a new entry may go here. -/
def Slot.isVacant (slot : Slot κ ν) : Bool :=
  !slot.isOccupied

theorem walk_of_vacancyFrom {slots : Array (Slot κ ν)} {steps i j : Nat}
    (h : vacancyFrom slots steps i = some j) : Walk Slot.isVacant slots i j := by
  induction steps generalizing i with
  | zero => cases h
  | succ steps ih =>
    unfold vacancyFrom at h
    split at h
    · cases h
    · next hi =>
      cases h
      exact .here hi rfl
    · next hi =>
      cases h
      exact .here hi rfl
    · next key value hash hi => exact .on hi rfl (ih h)

/-- Without tombstones the vacant slots are the empty ones. -/
theorem Walk.to_empty {slots : Array (Slot κ ν)} (htomb : slots.countP Slot.isTombstone = 0)
    {i j : Nat} (hw : Walk Slot.isVacant slots i j) : Walk Slot.isEmpty slots i j := by
  have hsame : ∀ (i : Nat) (slot : Slot κ ν), slots[i]? = some slot →
      slot.isEmpty = slot.isVacant := by
    intro i slot hi
    have hno := Array.countP_eq_zero.mp htomb slot (Array.mem_of_getElem? hi)
    cases slot with
    | tombstone => exact absurd rfl hno
    | _ => rfl
  induction hw with
  | here hi hs => exact .here hi (by rw [hsame _ _ hi, hs])
  | on hi hs _ ih => exact .on hi (by rw [hsame _ _ hi, hs]) ih

/-! ## 3. Rebuilds -/

theorem paths_replicate (capacity : Nat) :
    Paths (Array.replicate capacity (.empty : Slot κ ν)) := by
  intro i key value hash hi
  rw [Array.getElem?_replicate] at hi
  split at hi <;> cases hi

/-- Each entry that a rebuild moves finds an empty slot, at every stage of the rebuild: the walk
for it ends, and where it ends the entry is put. -/
theorem rehash_walks {t : Table κ ν} (hw : t.WellFormed) {moved rest : List (Slot κ ν)} {key : κ}
    {value : ν} {hash : UInt32}
    (hs : t.slots.toList = moved ++ .occupied key value hash :: rest) :
    let circle := moved.foldl place (Array.replicate (roomyCapacity t.count) .empty)
    ∃ i, Walk Slot.isEmpty circle (home (roomyCapacity t.count) hash) i ∧
      place circle (.occupied key value hash) =
        circle.setIfInBounds i (.occupied key value hash) := by
  intro circle
  have hload := roomyCapacity_load t.count
  have hocc : (Array.replicate (roomyCapacity t.count) (.empty : Slot κ ν)).countP
      Slot.isOccupied = 0 := by
    simp [Array.countP_replicate, Slot.isOccupied]
  -- The entries moved so far are fewer than all, and for all there is room.
  have hfewer : (moved.filterMap Slot.record?).length < t.count := by
    rw [hw.count_eq_length, records, slotRecords, hs, List.filterMap_append, List.length_append]
    simp [Slot.record?]
  have hroom : t.count < roomyCapacity t.count := by
    unfold maxLoad at hload
    omega
  obtain ⟨-, htomb, hsize, hperm⟩ := foldl_place moved (paths_replicate (roomyCapacity t.count))
    (by simp [Array.countP_replicate, Slot.isTombstone])
    (by rw [hocc, Array.size_replicate]; omega)
  rw [Array.size_replicate] at hsize
  have hcount : circle.countP Slot.isOccupied < circle.size := by
    rw [← length_slotRecords, hperm.length_eq, List.length_append, length_slotRecords, hocc, hsize]
    omega
  obtain ⟨i, hv⟩ := exists_vacancy? hcount hash
  refine ⟨i, ?_, by simp [place, hv]⟩
  rw [← hsize]
  exact (walk_of_vacancyFrom hv).to_empty htomb

/-! ## 4. Sound tables -/

theorem countP_isEmpty (slots : Array (Slot κ ν)) :
    slots.countP Slot.isEmpty + slots.countP Slot.isOccupied + slots.countP Slot.isTombstone =
      slots.size := by
  rw [← Array.countP_toList, ← Array.countP_toList, ← Array.countP_toList, ← Array.length_toList]
  induction slots.toList with
  | nil => rfl
  | cons slot slots ih =>
    rw [List.countP_cons, List.countP_cons, List.countP_cons, List.length_cons]
    cases slot <;> simp [Slot.isEmpty, Slot.isOccupied, Slot.isTombstone] <;> omega

/-- The spare room of a well-formed table is there to be met. -/
theorem WellFormed.exists_empty {t : Table κ ν} (hw : t.WellFormed) (hc : t.capacity ≠ 0) :
    ∃ i : Nat, t.slots[i]? = some .empty := by
  have hsum := countP_isEmpty t.slots
  have hload := hw.load
  rw [← hw.count, ← hw.tombstones] at hsum
  unfold maxLoad Table.capacity at *
  have hpos : 0 < t.slots.countP Slot.isEmpty := by omega
  obtain ⟨slot, hm, hs⟩ := Array.countP_pos_iff.mp hpos
  obtain ⟨i, hi⟩ := Array.getElem?_of_mem hm
  cases slot with
  | empty => exact ⟨i, hi⟩
  | _ => cases hs

/-- What holds of a table after any writes, and what its next write relies on. -/
structure Sound (t : Table κ ν) : Prop extends WellFormed t where
  /-- A table that has slots has an empty one. -/
  spare : t.capacity ≠ 0 → ∃ i : Nat, t.slots[i]? = some .empty
  /-- The loop of an insertion ends, and where it ends the entry is put. If a tombstone stood
  there, there is one to count off. -/
  insertion : ∀ (key : κ) (hash : UInt32) (value : ν), ∃ i slot,
    Walk Slot.isVacant t.reserveOne.slots (home t.reserveOne.capacity hash) i ∧
      t.reserveOne.slots[i]? = some slot ∧
      (slot.isTombstone = true → 0 < t.reserveOne.tombstones) ∧
      t.insertNew key hash value =
        ⟨t.reserveOne.slots.setIfInBounds i (.occupied key value hash), t.reserveOne.count + 1,
          t.reserveOne.tombstones - if slot.isTombstone then 1 else 0⟩
  /-- So does the loop for each entry that a rebuild moves. -/
  rebuild : ∀ (moved rest : List (Slot κ ν)) (key : κ) (value : ν) (hash : UInt32),
    t.slots.toList = moved ++ .occupied key value hash :: rest →
    let circle := moved.foldl place (Array.replicate (roomyCapacity t.count) .empty)
    ∃ i, Walk Slot.isEmpty circle (home (roomyCapacity t.count) hash) i ∧
      place circle (.occupied key value hash) =
        circle.setIfInBounds i (.occupied key value hash)
  /-- A removal that finds an entry has one to count off. -/
  removal : ∀ i value, t.valueAt? i = some value → 0 < t.count

theorem WellFormed.sound {t : Table κ ν} (hw : t.WellFormed) : t.Sound where
  toWellFormed := hw
  spare := hw.exists_empty
  insertion := by
    intro key hash value
    obtain ⟨i, slot, hv, hs, -, heq⟩ := insertNew_cases hw key hash value
    refine ⟨i, slot, walk_of_vacancyFrom hv, hs, fun ht => ?_, heq⟩
    rw [(reserveOne_spec hw).1.tombstones]
    exact Array.countP_pos_iff.mpr ⟨slot, Array.mem_of_getElem? hs, ht⟩
  rebuild := fun moved rest key value hash hs => rehash_walks hw hs
  removal := by
    intro i value hv
    obtain ⟨key, hash, hi⟩ := valueAt?_eq_some_iff.mp hv
    rw [hw.count]
    exact Array.countP_pos_iff.mpr ⟨_, Array.mem_of_getElem? hi, rfl⟩

/-- Whatever is written to a table, in whatever order, it is sound. -/
theorem sound_ofWrites (writes : List (Write κ ν)) : (ofWrites writes).Sound :=
  (ofWrites_wellFormed writes).sound

end ScriptMachine.Table
