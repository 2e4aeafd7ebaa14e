import Mathlib.Data.List.Perm.Basic
import ScriptMachine.Proofs.Table.Entries

/-!
# Tables in order

A probe walks a circle of slots and gives up at the first empty one. What makes it right is that
between the home of an entry and the entry itself no slot is empty, and what makes it end is that
some slot is. Writes keep both: none of them empties a slot, a new entry takes the first slot on
its way that is free, and a rebuild leaves enough of them empty.

Main definitions:
- `spot`: the slots on the way of a probe.
- `Met`, `Paths`: no entry has an empty slot on the way to it.
- `records`: the entries with their hashes.
- `WellFormed`: the invariant of tables.

Results:
1. `find?_eq_some`, `find?_eq_none`: what a search finds, and what there is not when it fails.
2. `exists_vacancy?`: there is a place for a new entry.
3. `insertNew_wellFormed`, `setValueAt_wellFormed`, `removeAt_wellFormed`: the writes keep the
   table well-formed.
4. `insertNew_records`, `setValueAt_records`, `removeAt_records`: and what they do to the entries.
-/

namespace ScriptMachine.Table

variable {κ ν : Type}

/-! ## 1. The way of a probe -/

/-- The slot that a probe for `hash` comes to after `d` steps. -/
def spot (capacity : Nat) (hash : UInt32) (d : Nat) : Nat :=
  (hash.toNat + d) % capacity

theorem spot_zero (capacity : Nat) (hash : UInt32) : spot capacity hash 0 = home capacity hash :=
  rfl

theorem next_spot (capacity : Nat) (hash : UInt32) (d : Nat) :
    next capacity (spot capacity hash d) = spot capacity hash (d + 1) := by
  unfold next spot
  rw [Nat.mod_add_mod, Nat.add_assoc]

theorem spot_lt {capacity : Nat} (hc : 0 < capacity) (hash : UInt32) (d : Nat) :
    spot capacity hash d < capacity :=
  Nat.mod_lt _ hc

/-- A probe that goes once around the circle comes to every slot. -/
theorem exists_spot {capacity i : Nat} (hi : i < capacity) (hash : UInt32) :
    ∃ d < capacity, spot capacity hash d = i := by
  have hdiv := Nat.div_add_mod hash.toNat capacity
  have hlt : hash.toNat % capacity < capacity := Nat.mod_lt _ (Nat.zero_lt_of_lt hi)
  -- The slot is ahead of the home slot, or the probe goes round to it.
  by_cases hle : hash.toNat % capacity ≤ i
  · refine ⟨i - hash.toNat % capacity, by omega, ?_⟩
    have hsum : hash.toNat + (i - hash.toNat % capacity) =
        capacity * (hash.toNat / capacity) + i := by omega
    rw [spot, hsum, Nat.mul_add_mod, Nat.mod_eq_of_lt hi]
  · refine ⟨i + capacity - hash.toNat % capacity, by omega, ?_⟩
    have hsum : hash.toNat + (i + capacity - hash.toNat % capacity) =
        capacity * (hash.toNat / capacity) + (i + capacity) := by omega
    rw [spot, hsum, Nat.mul_add_mod, Nat.add_mod_right, Nat.mod_eq_of_lt hi]

/-- A probe for `hash` comes to slot `i` before it comes to an empty one. -/
def Met (slots : Array (Slot κ ν)) (hash : UInt32) (i : Nat) : Prop :=
  ∃ d < slots.size, spot slots.size hash d = i ∧
    ∀ j < d, slots[spot slots.size hash j]? ≠ some .empty

/-- Every entry is met by the probe for its hash. -/
def Paths (slots : Array (Slot κ ν)) : Prop :=
  ∀ (i : Nat) (key : κ) (value : ν) (hash : UInt32),
    slots[i]? = some (.occupied key value hash) → Met slots hash i

/-- A write that does not empty its slot blocks no way. -/
theorem Met.setIfInBounds {slots : Array (Slot κ ν)} {hash : UInt32} {i : Nat}
    (hm : Met slots hash i) (k : Nat) {slot : Slot κ ν} (hs : slot ≠ .empty) :
    Met (slots.setIfInBounds k slot) hash i := by
  obtain ⟨d, hd, he, hall⟩ := hm
  refine ⟨d, by rwa [Array.size_setIfInBounds], by rwa [Array.size_setIfInBounds], fun j hj => ?_⟩
  rw [Array.size_setIfInBounds, Array.getElem?_setIfInBounds]
  split
  · split
    · simpa using hs
    · simp
  · exact hall j hj

theorem Paths.setIfInBounds {slots : Array (Slot κ ν)} (hp : Paths slots) {i : Nat}
    {slot : Slot κ ν} (hs : slot ≠ .empty)
    (hm : ∀ key value hash, slot = .occupied key value hash → Met slots hash i) :
    Paths (slots.setIfInBounds i slot) := by
  intro j key value hash hj
  rw [Array.getElem?_setIfInBounds] at hj
  split at hj
  · next hij =>
    split at hj
    · subst hij
      exact (hm key value hash (Option.some.inj hj)).setIfInBounds i hs
    · cases hj
  · exact (hp j key value hash hj).setIfInBounds i hs

/-! ## 2. Searching -/

theorem probe_eq_some {t : Table κ ν} {hash : UInt32} {p : κ → Bool} {steps index i : Nat}
    (h : probeM (m := Id) t hash p steps index = some i) :
    ∃ key value, t.slots[i]? = some (.occupied key value hash) ∧ p key = true := by
  induction steps generalizing index with
  | zero => cases h
  | succ steps ih =>
    unfold probeM at h
    split at h
    · cases h
    · cases h
    · exact ih h
    · next key value stored hi =>
      split at h
      · next hs =>
        subst hs
        cases hp : p key with
        | true =>
          simp only [hp, bind, pure, if_true] at h
          cases h
          exact ⟨key, value, hi, hp⟩
        | false =>
          simp only [hp, bind, pure, Bool.false_eq_true, if_false] at h
          exact ih h
      · exact ih h

/-- A probe that fails has passed by nothing it looked for. -/
theorem probe_eq_none {t : Table κ ν} {hash : UInt32} {p : κ → Bool} {steps d : Nat}
    (hd : d + steps = t.capacity)
    (h : probeM (m := Id) t hash p steps (spot t.capacity hash d) = none) {e : Nat} (hde : d ≤ e)
    (he : e < t.capacity)
    (hway : ∀ j, d ≤ j → j < e → t.slots[spot t.capacity hash j]? ≠ some .empty) {key : κ}
    {value : ν} (hkey : t.slots[spot t.capacity hash e]? = some (.occupied key value hash)) :
    p key = false := by
  induction steps generalizing d with
  | zero => omega
  | succ steps ih =>
    -- Short of `e` the probe goes on, since no slot on the way is empty.
    have hgo : d ≠ e → probeM (m := Id) t hash p steps (next t.capacity (spot t.capacity hash d)) =
        none → p key = false := by
      intro hne hn
      rw [next_spot] at hn
      exact ih (by omega) hn (by omega) fun j hj => hway j (by omega)
    have hspot : d = e → t.slots[spot t.capacity hash d]? = some (.occupied key value hash) :=
      fun hde => hde ▸ hkey
    unfold probeM at h
    split at h
    · next hi =>
      have hlt : spot t.capacity hash d < t.capacity := spot_lt (by omega) hash d
      rw [Array.getElem?_eq_none_iff] at hi
      exact absurd hlt (Nat.not_lt.mpr hi)
    · next hi =>
      rcases Nat.lt_or_eq_of_le hde with hlt | heq
      · exact absurd hi (hway d (Nat.le_refl d) hlt)
      · rw [hspot heq] at hi
        cases hi
    · next hi =>
      refine hgo (fun heq => ?_) h
      rw [hspot heq] at hi
      cases hi
    · next k v stored hi =>
      split at h
      · next hs =>
        cases hp : p k with
        | true => simp [hp, bind, pure] at h
        | false =>
          simp only [hp, bind, pure, Bool.false_eq_true, if_false] at h
          by_cases heq : d = e
          · rw [hspot heq] at hi
            cases hi
            exact hp
          · exact hgo heq h
      · next hs =>
        refine hgo (fun heq => ?_) h
        rw [hspot heq] at hi
        cases hi
        exact hs rfl

/-- A search finds an entry with the hash that passes the test. -/
theorem find?_eq_some {t : Table κ ν} {hash : UInt32} {p : κ → Bool} {i : Nat}
    (h : t.find? hash p = some i) :
    ∃ key value, t.slots[i]? = some (.occupied key value hash) ∧ p key = true :=
  probe_eq_some h

/-- When a search fails there is no such entry. -/
theorem find?_eq_none {t : Table κ ν} (hp : Paths t.slots) {hash : UInt32} {p : κ → Bool}
    (h : t.find? hash p = none) {i : Nat} {key : κ} {value : ν}
    (hi : t.slots[i]? = some (.occupied key value hash)) : p key = false := by
  obtain ⟨d, hd, hspot, hall⟩ := hp i key value hash hi
  subst hspot
  exact probe_eq_none (Nat.zero_add _) h (Nat.zero_le d) hd (fun j _ hj => hall j hj) hi

/-! ## 3. Places for new entries -/

/-- A probe for a vacancy stops at the first slot without an entry. -/
theorem vacancyFrom_eq_some {slots : Array (Slot κ ν)} {hash : UInt32} {steps d i : Nat}
    (h : vacancyFrom slots steps (spot slots.size hash d) = some i) :
    ∃ e, e < d + steps ∧ spot slots.size hash e = i ∧
      (∃ slot, slots[i]? = some slot ∧ slot.isOccupied = false) ∧
      ∀ j, d ≤ j → j < e → slots[spot slots.size hash j]? ≠ some .empty := by
  induction steps generalizing d with
  | zero => cases h
  | succ steps ih =>
    unfold vacancyFrom at h
    split at h
    · cases h
    · next hi =>
      cases h
      exact ⟨d, by omega, rfl, ⟨_, hi, rfl⟩, fun j _ _ => by omega⟩
    · next hi =>
      cases h
      exact ⟨d, by omega, rfl, ⟨_, hi, rfl⟩, fun j _ _ => by omega⟩
    · next key value stored hi =>
      rw [next_spot] at h
      obtain ⟨e, hlt, he, hs, hall⟩ := ih h
      refine ⟨e, by omega, he, hs, fun j hj hje => ?_⟩
      rcases Nat.lt_or_eq_of_le hj with hlt | rfl
      · exact hall j hlt hje
      · rw [hi]
        simp

theorem vacancyFrom_eq_none {slots : Array (Slot κ ν)} {hash : UInt32} {steps d : Nat}
    (h : vacancyFrom slots steps (spot slots.size hash d) = none) {e : Nat} (hde : d ≤ e)
    (he : e < d + steps) {slot : Slot κ ν} (hs : slots[spot slots.size hash e]? = some slot) :
    slot.isOccupied = true := by
  induction steps generalizing d with
  | zero => omega
  | succ steps ih =>
    have hspot : d = e → slots[spot slots.size hash d]? = some slot := fun hde => hde ▸ hs
    unfold vacancyFrom at h
    split at h
    · next hi =>
      have hpos : 0 < slots.size := Nat.zero_lt_of_lt (Array.getElem?_eq_some_iff.mp hs).1
      rw [Array.getElem?_eq_none_iff] at hi
      exact absurd (spot_lt hpos hash d) (Nat.not_lt.mpr hi)
    · cases h
    · cases h
    · next key value stored hi =>
      rw [next_spot] at h
      rcases Nat.lt_or_eq_of_le hde with hlt | heq
      · exact ih h hlt (by omega)
      · rw [hspot heq] at hi
        cases hi
        rfl

/-- The vacancy that a probe finds is met by probes for the hash. -/
theorem vacancy?_eq_some {slots : Array (Slot κ ν)} {hash : UInt32} {i : Nat}
    (h : vacancy? slots hash = some i) :
    Met slots hash i ∧ ∃ slot, slots[i]? = some slot ∧ slot.isOccupied = false := by
  rw [vacancy?, ← spot_zero] at h
  obtain ⟨e, hlt, he, hs, hall⟩ := vacancyFrom_eq_some h
  exact ⟨⟨e, by omega, he, fun j hj => hall j (Nat.zero_le j) hj⟩, hs⟩

/-- If not every slot has an entry, every hash finds a vacancy. -/
theorem exists_vacancy? {slots : Array (Slot κ ν)}
    (hroom : slots.countP Slot.isOccupied < slots.size) (hash : UInt32) :
    ∃ i, vacancy? slots hash = some i := by
  obtain ⟨slot, hm, hs⟩ : ∃ slot ∈ slots, slot.isOccupied = false := by
    by_contra hno
    have hall : ∀ slot ∈ slots, slot.isOccupied = true := by
      intro slot hm
      by_contra hs
      exact hno ⟨slot, hm, by simpa using hs⟩
    rw [Array.countP_eq_size.mpr hall] at hroom
    exact absurd hroom (Nat.lt_irrefl _)
  -- A probe from any home slot comes past that one.
  obtain ⟨j, hj⟩ := Array.getElem?_of_mem hm
  obtain ⟨e, he, hspot⟩ := exists_spot (Array.getElem?_eq_some_iff.mp hj).1 hash
  cases hv : vacancy? slots hash with
  | some i => exact ⟨i, rfl⟩
  | none =>
    rw [vacancy?, ← spot_zero] at hv
    rw [← hspot] at hj
    rw [vacancyFrom_eq_none hv (Nat.zero_le e) (by omega) hj] at hs
    cases hs

/-! ## 4. The content of a table -/

/-- A slot's key, value and hash, if it has them. -/
def Slot.record? : Slot κ ν → Option (κ × ν × UInt32)
  | .occupied key value hash => some (key, value, hash)
  | .empty | .tombstone => none

/-- Whether an entry was here. -/
def Slot.isTombstone : Slot κ ν → Bool
  | .tombstone => true
  | .empty | .occupied .. => false

@[simp] theorem isOccupied_occupied (key : κ) (value : ν) (hash : UInt32) :
    (Slot.occupied key value hash).isOccupied = true := rfl

@[simp] theorem isTombstone_occupied (key : κ) (value : ν) (hash : UInt32) :
    (Slot.occupied key value hash).isTombstone = false := rfl

@[simp] theorem isOccupied_tombstone : (Slot.tombstone : Slot κ ν).isOccupied = false := rfl

@[simp] theorem isTombstone_tombstone : (Slot.tombstone : Slot κ ν).isTombstone = true := rfl

/-- The entries of a circle of slots, with their hashes. -/
def slotRecords (slots : Array (Slot κ ν)) : List (κ × ν × UInt32) :=
  slots.toList.filterMap Slot.record?

/-- The entries of a table, with their hashes, in slot order. -/
def records (t : Table κ ν) : List (κ × ν × UInt32) :=
  slotRecords t.slots

theorem entries_eq_map (t : Table κ ν) : t.entries = t.records.map fun r => (r.1, r.2.1) := by
  unfold entries records slotRecords
  rw [List.map_filterMap]
  congr 1
  funext slot
  cases slot <;> rfl

theorem mem_slotRecords {slots : Array (Slot κ ν)} {key : κ} {value : ν} {hash : UInt32} :
    (key, value, hash) ∈ slotRecords slots ↔
      ∃ i : Nat, slots[i]? = some (.occupied key value hash) := by
  unfold slotRecords
  rw [List.mem_filterMap]
  constructor
  · rintro ⟨slot, hm, hr⟩
    obtain ⟨i, hi⟩ := List.getElem?_of_mem hm
    rw [Array.getElem?_toList] at hi
    cases slot with
    | occupied k v h =>
      cases hr
      exact ⟨i, hi⟩
    | _ => cases hr
  · rintro ⟨i, hi⟩
    exact ⟨_, Array.mem_toList_iff.mpr (Array.mem_of_getElem? hi), rfl⟩

theorem length_slotRecords (slots : Array (Slot κ ν)) :
    (slotRecords slots).length = slots.countP Slot.isOccupied := by
  unfold slotRecords
  rw [List.length_filterMap_eq_countP, ← Array.countP_toList]
  congr 1
  funext slot
  cases slot <;> rfl

/-- Overwriting a slot exchanges its entry, if it has one, for the new one, if there is one. -/
theorem slotRecords_setIfInBounds {slots : Array (Slot κ ν)} {i : Nat} {old : Slot κ ν}
    (hi : slots[i]? = some old) (new : Slot κ ν) :
    (old.record?.toList ++ slotRecords (slots.setIfInBounds i new)).Perm
      (new.record?.toList ++ slotRecords slots) := by
  obtain ⟨hlt, hget⟩ := Array.getElem?_eq_some_iff.mp hi
  have hlt' : i < slots.toList.length := by simpa using hlt
  have hold : slots.toList = slots.toList.take i ++ old :: slots.toList.drop (i + 1) := by
    rw [← hget, ← Array.getElem_toList, List.getElem_cons_drop, List.take_append_drop]
  have hnew : (slots.setIfInBounds i new).toList =
      slots.toList.take i ++ new :: slots.toList.drop (i + 1) := by
    rw [Array.toList_setIfInBounds, List.set_eq_take_append_cons_drop, if_pos hlt']
  have hsplit : ∀ (a b : List (Slot κ ν)) (x : Slot κ ν),
      (a ++ x :: b).filterMap Slot.record? =
        a.filterMap Slot.record? ++ (x.record?.toList ++ b.filterMap Slot.record?) := by
    intro a b x
    rw [List.filterMap_append, List.filterMap_cons]
    cases x.record? <;> rfl
  unfold slotRecords
  rw [hnew]
  conv => rhs; rw [hold]
  rw [hsplit, hsplit]
  -- Both sides list the old entry, the new one, and the entries of the other slots.
  have hmove : ∀ (a b c d : List (κ × ν × UInt32)),
      (a ++ (b ++ (c ++ d))).Perm (c ++ (b ++ (a ++ d))) := by
    intro a b c d
    calc
      (a ++ (b ++ (c ++ d))).Perm (b ++ (a ++ (c ++ d))) := List.perm_append_comm_assoc a b _
      List.Perm _ (b ++ (c ++ (a ++ d))) := (List.perm_append_comm_assoc a c d).append_left b
      List.Perm _ (c ++ (b ++ (a ++ d))) := List.perm_append_comm_assoc b c _
  exact hmove _ _ _ _

/-! ## 5. Well-formed tables -/

/-- The invariant of tables: the capacity is a power of two, or nothing; the counts are right;
there is spare room; and every entry is met by the probe for its hash. -/
structure WellFormed (t : Table κ ν) : Prop where
  capacity : t.capacity = 0 ∨ t.capacity.isPowerOfTwo ∧ minCapacity ≤ t.capacity
  count : t.count = t.slots.countP Slot.isOccupied
  tombstones : t.tombstones = t.slots.countP Slot.isTombstone
  load : (t.count + t.tombstones) * 100 ≤ t.capacity * maxLoad
  paths : Paths t.slots

theorem empty_wellFormed : (empty : Table κ ν).WellFormed where
  capacity := .inl rfl
  count := rfl
  tombstones := rfl
  load := Nat.le_refl 0
  paths := by
    intro i key value hash hi
    simp [empty] at hi

theorem WellFormed.count_eq_length {t : Table κ ν} (hw : t.WellFormed) :
    t.count = t.records.length := by
  rw [hw.count, records, length_slotRecords]

theorem countP_setIfInBounds {slots : Array (Slot κ ν)} {i : Nat} {old : Slot κ ν}
    (hi : slots[i]? = some old) (new : Slot κ ν) (p : Slot κ ν → Bool) :
    (slots.setIfInBounds i new).countP p + (if p old then 1 else 0) =
      slots.countP p + if p new then 1 else 0 := by
  obtain ⟨hlt, hget⟩ := Array.getElem?_eq_some_iff.mp hi
  have hpos : p old = true → 0 < slots.countP p := by
    intro hp
    exact Array.countP_pos_iff.mpr ⟨old, hget ▸ Array.getElem_mem hlt, hp⟩
  rw [Array.setIfInBounds, dif_pos hlt, Array.countP_set, hget]
  split
  · next hp =>
    have := hpos hp
    omega
  · omega

/-! ### Overwriting and removing -/

theorem setValueAt_eq {t : Table κ ν} {i : Nat} {key : κ} {old : ν} {hash : UInt32}
    (hi : t.slots[i]? = some (.occupied key old hash)) (value : ν) :
    t.setValueAt i value =
      ⟨t.slots.setIfInBounds i (.occupied key value hash), t.count, t.tombstones⟩ := by
  simp [setValueAt, hi]

theorem setValueAt_of_vacant {t : Table κ ν} {i : Nat} (hi : t.valueAt? i = none) (value : ν) :
    t.setValueAt i value = t := by
  unfold setValueAt
  split
  · next key old hash hslot => simp [valueAt?, hslot] at hi
  · rfl

theorem setValueAt_records {t : Table κ ν} {i : Nat} {key : κ} {old : ν} {hash : UInt32}
    (hi : t.slots[i]? = some (.occupied key old hash)) (value : ν) :
    ((key, old, hash) :: (t.setValueAt i value).records).Perm
      ((key, value, hash) :: t.records) := by
  rw [setValueAt_eq hi]
  exact slotRecords_setIfInBounds hi (.occupied key value hash)

theorem setValueAt_wellFormed {t : Table κ ν} (hw : t.WellFormed) (i : Nat) (value : ν) :
    (t.setValueAt i value).WellFormed := by
  cases hv : t.valueAt? i with
  | none =>
    rw [setValueAt_of_vacant hv]
    exact hw
  | some old =>
    obtain ⟨key, hash, hi⟩ := valueAt?_eq_some_iff.mp hv
    have hocc := countP_setIfInBounds hi (.occupied key value hash) Slot.isOccupied
    have htomb := countP_setIfInBounds hi (.occupied key value hash) Slot.isTombstone
    have hsize : (t.setValueAt i value).capacity = t.capacity := by
      rw [setValueAt_eq hi, capacity, Array.size_setIfInBounds, capacity]
    simp only [isOccupied_occupied, isTombstone_occupied] at hocc htomb
    rw [setValueAt_eq hi] at hsize ⊢
    refine ⟨hsize ▸ hw.capacity, ?_, ?_, hsize ▸ hw.load, ?_⟩
    · exact hw.count.trans (by simpa using hocc.symm)
    · exact hw.tombstones.trans (by simpa using htomb.symm)
    · refine hw.paths.setIfInBounds (by simp) fun k v h he => ?_
      cases he
      exact hw.paths i key old hash hi

theorem removeAt_eq {t : Table κ ν} {i : Nat} {key : κ} {value : ν} {hash : UInt32}
    (hi : t.slots[i]? = some (.occupied key value hash)) :
    t.removeAt i =
      (some value, ⟨t.slots.setIfInBounds i .tombstone, t.count - 1, t.tombstones + 1⟩) := by
  simp [removeAt, valueAt?, hi]

theorem removeAt_records {t : Table κ ν} {i : Nat} {key : κ} {value : ν} {hash : UInt32}
    (hi : t.slots[i]? = some (.occupied key value hash)) :
    ((key, value, hash) :: (t.removeAt i).2.records).Perm t.records := by
  rw [removeAt_eq hi]
  exact slotRecords_setIfInBounds hi .tombstone

theorem removeAt_wellFormed {t : Table κ ν} (hw : t.WellFormed) (i : Nat) :
    (t.removeAt i).2.WellFormed := by
  cases hv : t.valueAt? i with
  | none =>
    have heq : (t.removeAt i).2 = t := by simp [removeAt, hv]
    rw [heq]
    exact hw
  | some value =>
    obtain ⟨key, hash, hi⟩ := valueAt?_eq_some_iff.mp hv
    have hocc := countP_setIfInBounds hi .tombstone Slot.isOccupied
    have htomb := countP_setIfInBounds hi .tombstone Slot.isTombstone
    simp only [isOccupied_occupied, isTombstone_occupied, isOccupied_tombstone,
      isTombstone_tombstone, if_true, Bool.false_eq_true, if_false, Nat.add_zero] at hocc htomb
    have hcount := hw.count
    have htombs := hw.tombstones
    have hload := hw.load
    have hsize : (t.removeAt i).2.capacity = t.capacity := by
      rw [removeAt_eq hi, capacity, Array.size_setIfInBounds, capacity]
    rw [removeAt_eq hi] at hsize ⊢
    -- A tombstone counts as the entry did, so the load stays.
    refine ⟨hsize ▸ hw.capacity, ?_, ?_, ?_, ?_⟩
    · dsimp only
      omega
    · dsimp only
      omega
    · dsimp only at hsize ⊢
      rw [hsize]
      omega
    · exact hw.paths.setIfInBounds (by simp) fun _ _ _ he => by cases he

/-! ### Filling vacancies -/

/-- An entry that takes the vacancy its hash finds is met, and all others still are. -/
theorem Paths.fill {slots : Array (Slot κ ν)} (hp : Paths slots) {hash : UInt32} {i : Nat}
    (hv : vacancy? slots hash = some i) (key : κ) (value : ν) :
    Paths (slots.setIfInBounds i (.occupied key value hash)) := by
  refine hp.setIfInBounds (by simp) fun k v h he => ?_
  cases he
  exact (vacancy?_eq_some hv).1

theorem slotRecords_fill {slots : Array (Slot κ ν)} {hash : UInt32} {i : Nat}
    (hv : vacancy? slots hash = some i) (key : κ) (value : ν) :
    (slotRecords (slots.setIfInBounds i (.occupied key value hash))).Perm
      ((key, value, hash) :: slotRecords slots) := by
  obtain ⟨-, slot, hs, hocc⟩ := vacancy?_eq_some hv
  have hperm := slotRecords_setIfInBounds hs (.occupied key value hash)
  cases slot with
  | occupied k v h => cases hocc
  | _ => exact hperm

/-- The entries of a list of slots find their places in a circle that has room for them and no
tombstones. -/
theorem foldl_place (l : List (Slot κ ν)) {slots : Array (Slot κ ν)} (hp : Paths slots)
    (htomb : slots.countP Slot.isTombstone = 0)
    (hroom : slots.countP Slot.isOccupied + (l.filterMap Slot.record?).length ≤ slots.size) :
    Paths (l.foldl place slots) ∧ (l.foldl place slots).countP Slot.isTombstone = 0 ∧
      (l.foldl place slots).size = slots.size ∧
      (slotRecords (l.foldl place slots)).Perm
        (l.filterMap Slot.record? ++ slotRecords slots) := by
  induction l generalizing slots with
  | nil => exact ⟨hp, htomb, rfl, .refl _⟩
  | cons slot l ih =>
    cases slot with
    | empty => exact ih hp htomb hroom
    | tombstone => exact ih hp htomb hroom
    | occupied key value hash =>
      simp only [List.filterMap_cons, Slot.record?, List.length_cons] at hroom ⊢
      obtain ⟨i, hv⟩ := exists_vacancy? (by omega : slots.countP Slot.isOccupied < slots.size) hash
      obtain ⟨-, old, hs, hocc⟩ := vacancy?_eq_some hv
      have hplace : place slots (.occupied key value hash) =
          slots.setIfInBounds i (.occupied key value hash) := by
        simp [place, hv]
      have hocc' := countP_setIfInBounds hs (.occupied key value hash) Slot.isOccupied
      have htomb' := countP_setIfInBounds hs (.occupied key value hash) Slot.isTombstone
      simp only [hocc, isOccupied_occupied, isTombstone_occupied, Bool.false_eq_true, if_false,
        if_true, Nat.add_zero] at hocc' htomb'
      rw [List.foldl_cons, hplace]
      obtain ⟨hpaths, htombs, hsize, hperm⟩ := ih (hp.fill hv key value) (by omega)
        (by rw [Array.size_setIfInBounds]; omega)
      refine ⟨hpaths, htombs, by rw [hsize, Array.size_setIfInBounds], hperm.trans ?_⟩
      exact ((slotRecords_fill hv key value).append_left _).trans List.perm_middle

theorem le_powerAtLeast (n : Nat) : n ≤ powerAtLeast n := by
  unfold powerAtLeast
  split
  · assumption
  · rw [Nat.one_shiftLeft]
    exact Nat.le_of_pred_lt Nat.lt_log2_self

theorem powerAtLeast_isPowerOfTwo (n : Nat) : (powerAtLeast n).isPowerOfTwo := by
  unfold powerAtLeast
  split
  · exact ⟨0, rfl⟩
  · exact ⟨_, Nat.one_shiftLeft _⟩

/-- A rebuild leaves room for one more entry. -/
theorem roomyCapacity_load (count : Nat) : (count + 1) * 100 ≤ roomyCapacity count * maxLoad := by
  have hpow := le_powerAtLeast ((count + 1) * 100 / maxLoad + 1)
  have hmax : powerAtLeast ((count + 1) * 100 / maxLoad + 1) ≤ roomyCapacity count :=
    Nat.le_max_left _ _
  unfold maxLoad at *
  omega

theorem roomyCapacity_capacity (count : Nat) :
    (roomyCapacity count).isPowerOfTwo ∧ minCapacity ≤ roomyCapacity count := by
  refine ⟨?_, Nat.le_max_right _ _⟩
  unfold roomyCapacity
  rcases Nat.le_total (powerAtLeast ((count + 1) * 100 / maxLoad + 1)) minCapacity with h | h
  · rw [Nat.max_eq_right h]
    exact ⟨3, rfl⟩
  · rw [Nat.max_eq_left h]
    exact powerAtLeast_isPowerOfTwo _

/-- A rebuild has the same entries, and a well-formed table if there is room for them. -/
theorem rehash_spec {t : Table κ ν} (hw : t.WellFormed) :
    (t.rehash (roomyCapacity t.count)).WellFormed ∧
      (t.rehash (roomyCapacity t.count)).records.Perm t.records ∧
      (t.rehash (roomyCapacity t.count)).capacity = roomyCapacity t.count := by
  have hload := roomyCapacity_load t.count
  have hblank : Paths (Array.replicate (roomyCapacity t.count) (.empty : Slot κ ν)) := by
    intro i key value hash hi
    rw [Array.getElem?_replicate] at hi
    split at hi <;> cases hi
  have hocc : (Array.replicate (roomyCapacity t.count) (.empty : Slot κ ν)).countP
      Slot.isOccupied = 0 := by
    simp [Array.countP_replicate, Slot.isOccupied]
  have hnone : slotRecords (Array.replicate (roomyCapacity t.count) (.empty : Slot κ ν)) = [] := by
    rw [← List.length_eq_zero_iff, length_slotRecords, hocc]
  have hroom : t.records.length ≤ roomyCapacity t.count := by
    rw [← hw.count_eq_length]
    unfold maxLoad at hload
    omega
  obtain ⟨hpaths, htombs, hsize, hperm⟩ := foldl_place t.slots.toList hblank
    (by simp [Array.countP_replicate, Slot.isTombstone])
    (by rw [hocc, Array.size_replicate, Nat.zero_add]; exact hroom)
  rw [hnone, List.append_nil] at hperm
  rw [Array.foldl_toList] at hpaths htombs hsize hperm
  rw [Array.size_replicate] at hsize
  refine ⟨⟨.inr ?_, ?_, htombs.symm, ?_, hpaths⟩, hperm, hsize⟩
  · rw [show (t.rehash (roomyCapacity t.count)).capacity = roomyCapacity t.count from hsize]
    exact roomyCapacity_capacity t.count
  · rw [← length_slotRecords]
    calc
      t.count = t.records.length := hw.count_eq_length
      _ = _ := hperm.length_eq.symm
  · rw [show (t.rehash (roomyCapacity t.count)).capacity = roomyCapacity t.count from hsize]
    show (t.count + 0) * 100 ≤ _
    omega

/-- A table with room made for one more entry. -/
theorem reserveOne_spec {t : Table κ ν} (hw : t.WellFormed) :
    t.reserveOne.WellFormed ∧ t.reserveOne.records.Perm t.records ∧
      (t.reserveOne.count + t.reserveOne.tombstones + 1) * 100 ≤
        t.reserveOne.capacity * maxLoad := by
  unfold reserveOne
  split
  · next hroom => exact ⟨hw, .refl _, hroom⟩
  · obtain ⟨hwf, hperm, hcap⟩ := rehash_spec hw
    refine ⟨hwf, hperm, ?_⟩
    rw [hcap]
    exact roomyCapacity_load t.count

/-! ### Inserting -/

/-- An insertion fills a vacancy of the table with room made. -/
theorem insertNew_cases {t : Table κ ν} (hw : t.WellFormed) (key : κ) (hash : UInt32) (value : ν) :
    ∃ i slot, vacancy? t.reserveOne.slots hash = some i ∧ t.reserveOne.slots[i]? = some slot ∧
      slot.isOccupied = false ∧
      t.insertNew key hash value =
        ⟨t.reserveOne.slots.setIfInBounds i (.occupied key value hash), t.reserveOne.count + 1,
          t.reserveOne.tombstones - if slot.isTombstone then 1 else 0⟩ := by
  obtain ⟨hwf, -, hroom⟩ := reserveOne_spec hw
  have hless : t.reserveOne.slots.countP Slot.isOccupied < t.reserveOne.slots.size := by
    rw [← hwf.count]
    unfold maxLoad capacity at hroom
    omega
  obtain ⟨i, hv⟩ := exists_vacancy? hless hash
  obtain ⟨-, slot, hs, hocc⟩ := vacancy?_eq_some hv
  refine ⟨i, slot, hv, hs, hocc, ?_⟩
  unfold insertNew
  dsimp only
  rw [hv]
  dsimp only
  rw [hs]
  cases slot with
  | occupied k v h => cases hocc
  | _ => rfl

theorem insertNew_records {t : Table κ ν} (hw : t.WellFormed) (key : κ) (hash : UInt32)
    (value : ν) : (t.insertNew key hash value).records.Perm ((key, value, hash) :: t.records) := by
  obtain ⟨i, slot, hv, -, -, heq⟩ := insertNew_cases hw key hash value
  rw [heq]
  exact (slotRecords_fill hv key value).trans ((reserveOne_spec hw).2.1.cons _)

theorem insertNew_wellFormed {t : Table κ ν} (hw : t.WellFormed) (key : κ) (hash : UInt32)
    (value : ν) : (t.insertNew key hash value).WellFormed := by
  obtain ⟨i, slot, hv, hs, hocc, heq⟩ := insertNew_cases hw key hash value
  obtain ⟨hwf, -, hroom⟩ := reserveOne_spec hw
  have hcount := hwf.count
  have htombs := hwf.tombstones
  have hocc' := countP_setIfInBounds hs (.occupied key value hash) Slot.isOccupied
  have htomb' := countP_setIfInBounds hs (.occupied key value hash) Slot.isTombstone
  simp only [hocc, isOccupied_occupied, isTombstone_occupied, Bool.false_eq_true, if_false, if_true,
    Nat.add_zero] at hocc' htomb'
  have hsize : (t.insertNew key hash value).capacity = t.reserveOne.capacity := by
    rw [heq, capacity, Array.size_setIfInBounds, capacity]
  rw [heq] at hsize ⊢
  -- Room was made for one entry more than there were, which is this one.
  refine ⟨hsize ▸ hwf.capacity, ?_, ?_, ?_, hwf.paths.fill hv key value⟩
  · dsimp only
    omega
  · dsimp only
    omega
  · rw [hsize]
    dsimp only
    omega

end ScriptMachine.Table
