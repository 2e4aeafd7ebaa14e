import ScriptMachine.Heap.Map

/-!
# Where the entries of a table come from

Whatever the state of a table, a write brings in no entry but the one it was given: the others
that it holds afterwards it held before. Nothing here needs the counts or the probe paths to be
right, so it can be used of tables that hosts have filled themselves. Searches, too, meet nothing
but keys of the table.
-/

namespace ScriptMachine.Table

variable {κ ν : Type}

/-- An entry stands in one of the slots. -/
def Holds (slots : Array (Slot κ ν)) (key : κ) (value : ν) (hash : UInt32) : Prop :=
  ∃ i : Nat, slots[i]? = some (.occupied key value hash)

theorem mem_entries_iff {t : Table κ ν} {key : κ} {value : ν} :
    (key, value) ∈ t.entries ↔ ∃ hash, Holds t.slots key value hash := by
  simp only [entries, List.mem_filterMap, Holds]
  constructor
  · rintro ⟨slot, hm, he⟩
    obtain ⟨i, hi⟩ := List.getElem?_of_mem hm
    rw [Array.getElem?_toList] at hi
    cases slot with
    | empty => cases he
    | tombstone => cases he
    | occupied k v h =>
      cases he
      exact ⟨h, i, hi⟩
  · rintro ⟨h, i, hi⟩
    rw [← Array.getElem?_toList] at hi
    exact ⟨_, List.mem_of_getElem? hi, rfl⟩

theorem holds_setIfInBounds {slots : Array (Slot κ ν)} {i : Nat} {slot : Slot κ ν} {key : κ}
    {value : ν} {hash : UInt32} (h : Holds (slots.setIfInBounds i slot) key value hash) :
    Holds slots key value hash ∨ slot = .occupied key value hash := by
  obtain ⟨j, hj⟩ := h
  rw [Array.getElem?_setIfInBounds] at hj
  split at hj
  · split at hj
    · exact .inr (Option.some.inj hj)
    · cases hj
  · exact .inl ⟨j, hj⟩

theorem holds_place {slots : Array (Slot κ ν)} {slot : Slot κ ν} {key : κ} {value : ν}
    {hash : UInt32} (h : Holds (place slots slot) key value hash) :
    Holds slots key value hash ∨ slot = .occupied key value hash := by
  cases slot with
  | empty => exact .inl h
  | tombstone => exact .inl h
  | occupied k v g =>
    unfold place at h
    dsimp only at h
    split at h
    · exact holds_setIfInBounds h
    · exact .inl h

theorem holds_foldl_place (l : List (Slot κ ν)) {slots : Array (Slot κ ν)} {key : κ} {value : ν}
    {hash : UInt32} (h : Holds (l.foldl place slots) key value hash) :
    Holds slots key value hash ∨ Slot.occupied key value hash ∈ l := by
  induction l generalizing slots with
  | nil => exact .inl h
  | cons slot l ih =>
    rcases ih h with hs | hm
    · rcases holds_place hs with hs | rfl
      · exact .inl hs
      · exact .inr (by simp)
    · exact .inr (List.mem_cons_of_mem _ hm)

theorem holds_rehash {t : Table κ ν} {capacity : Nat} {key : κ} {value : ν} {hash : UInt32}
    (h : Holds (t.rehash capacity).slots key value hash) : Holds t.slots key value hash := by
  unfold rehash at h
  rw [← Array.foldl_toList] at h
  rcases holds_foldl_place _ h with ⟨i, hi⟩ | hm
  · rw [Array.getElem?_replicate] at hi
    split at hi <;> cases hi
  · obtain ⟨i, hi⟩ := List.getElem?_of_mem hm
    exact ⟨i, by rwa [Array.getElem?_toList] at hi⟩

theorem holds_reserveOne {t : Table κ ν} {key : κ} {value : ν} {hash : UInt32}
    (h : Holds t.reserveOne.slots key value hash) : Holds t.slots key value hash := by
  unfold reserveOne at h
  split at h
  · exact h
  · exact holds_rehash h

theorem holds_insertNew {t : Table κ ν} {k : κ} {g : UInt32} {v : ν} {key : κ} {value : ν}
    {hash : UInt32} (h : Holds (t.insertNew k g v).slots key value hash) :
    Holds t.slots key value hash ∨ (k = key ∧ v = value ∧ g = hash) := by
  unfold insertNew at h
  dsimp only at h
  split at h
  · exact .inl (holds_reserveOne h)
  · rcases holds_setIfInBounds h with hs | he
    · exact .inl (holds_reserveOne hs)
    · cases he
      exact .inr ⟨rfl, rfl, rfl⟩

theorem holds_setValueAt {t : Table κ ν} {i : Nat} {v : ν} {key : κ} {value : ν} {hash : UInt32}
    (h : Holds (t.setValueAt i v).slots key value hash) :
    ∃ old, Holds t.slots key old hash ∧ (value = old ∨ value = v) := by
  unfold setValueAt at h
  split at h
  · next k w g hi =>
    rcases holds_setIfInBounds h with hs | he
    · exact ⟨value, hs, .inl rfl⟩
    · cases he
      exact ⟨w, ⟨i, hi⟩, .inr rfl⟩
  · exact ⟨value, h, .inl rfl⟩

theorem holds_removeAt {t : Table κ ν} {i : Nat} {key : κ} {value : ν} {hash : UInt32}
    (h : Holds (t.removeAt i).2.slots key value hash) : Holds t.slots key value hash := by
  unfold removeAt at h
  split at h
  · exact h
  · rcases holds_setIfInBounds h with hs | he
    · exact hs
    · cases he

theorem valueAt?_eq_some_iff {t : Table κ ν} {i : Nat} {value : ν} :
    t.valueAt? i = some value ↔ ∃ key hash, t.slots[i]? = some (.occupied key value hash) := by
  unfold valueAt?
  split
  · next k v g hi => simp [hi]
  · next hi =>
    constructor
    · intro h
      cases h
    · rintro ⟨key, hash, h⟩
      exact absurd h (hi _ _ _)

theorem mem_entries_of_valueAt? {t : Table κ ν} {i : Nat} {value : ν}
    (h : t.valueAt? i = some value) : ∃ key, (key, value) ∈ t.entries := by
  obtain ⟨key, hash, hi⟩ := valueAt?_eq_some_iff.mp h
  exact ⟨key, mem_entries_iff.mpr ⟨hash, i, hi⟩⟩

theorem removeAt_fst (t : Table κ ν) (i : Nat) : (t.removeAt i).1 = t.valueAt? i := by
  unfold removeAt
  cases t.valueAt? i <;> rfl

/-- The entries of a table after a write: the keys are those of the table and the one written, and
so are the values. -/
theorem mem_entries_write {t : Table Value Value} {slot : Option Nat} {k v key value : Value}
    {hash : UInt32} (h : (key, value) ∈ (t.write slot k hash v).entries) :
    ((∃ w, (key, w) ∈ t.entries) ∨ key = k) ∧ ((∃ x, (x, value) ∈ t.entries) ∨ value = v) := by
  obtain ⟨g, hg⟩ := mem_entries_iff.mp h
  cases slot with
  | some i =>
    obtain ⟨old, ho, hv⟩ := holds_setValueAt hg
    have hold : (key, old) ∈ t.entries := mem_entries_iff.mpr ⟨g, ho⟩
    refine ⟨.inl ⟨old, hold⟩, ?_⟩
    rcases hv with rfl | rfl
    · exact .inl ⟨key, hold⟩
    · exact .inr rfl
  | none =>
    rcases holds_insertNew hg with ho | ⟨rfl, rfl, -⟩
    · have hold : (key, value) ∈ t.entries := mem_entries_iff.mpr ⟨g, ho⟩
      exact ⟨.inl ⟨value, hold⟩, .inl ⟨key, hold⟩⟩
    · exact ⟨.inr rfl, .inr rfl⟩

theorem mem_entries_removeAt {t : Table κ ν} {i : Nat} {p : κ × ν}
    (h : p ∈ (t.removeAt i).2.entries) : p ∈ t.entries := by
  obtain ⟨g, hg⟩ := mem_entries_iff.mp h
  exact mem_entries_iff.mpr ⟨g, holds_removeAt hg⟩

/-- An occupied slot found on a walk holds a key of the table. -/
theorem mem_entries_of_firstOccupied? {l : List (Slot κ ν)} {start i : Nat} {key : κ}
    (h : firstOccupied? start l = some (i, key)) : ∃ v, (key, v) ∈ l.filterMap Slot.entry? := by
  induction l generalizing start with
  | nil => cases h
  | cons slot l ih =>
    cases slot with
    | empty => exact ih h
    | tombstone => exact ih h
    | occupied k v g =>
      cases h
      exact ⟨v, by simp [Slot.entry?]⟩

theorem mem_entries_of_nextOccupied? {t : Table κ ν} {start i : Nat} {key : κ}
    (h : t.nextOccupied? start = some (i, key)) : ∃ v, (key, v) ∈ t.entries := by
  obtain ⟨v, hv⟩ := mem_entries_of_firstOccupied? h
  refine ⟨v, ?_⟩
  exact ((List.drop_sublist start t.slots.toList).filterMap Slot.entry?).subset hv

/-! ## Searching -/

/-- A walk tests keys of the table only, so a test that gives an answer for each of them is as good
as one that cannot fail. -/
theorem probeM_eq_ok {ε : Type} {t : Table κ ν} {hash : UInt32} {test : κ → Except ε Bool}
    {p : κ → Bool} (h : ∀ key value, (key, value) ∈ t.entries → test key = .ok (p key))
    (steps index : Nat) :
    probeM t hash test steps index = .ok (probeM (m := Id) t hash p steps index) := by
  induction steps generalizing index with
  | zero => rfl
  | succ steps ih =>
    unfold probeM
    split
    · rfl
    · rfl
    · exact ih _
    · next key value stored hi =>
      have ht : test key = .ok (p key) := h key value (mem_entries_iff.mpr ⟨stored, index, hi⟩)
      split
      · rw [ht]
        cases p key with
        | true => simp [bind, Except.bind, pure, Except.pure]
        | false => simpa [bind, Except.bind, pure] using ih _
      · exact ih _

theorem findM_eq_ok {ε : Type} {t : Table κ ν} {hash : UInt32} {test : κ → Except ε Bool}
    {p : κ → Bool} (h : ∀ key value, (key, value) ∈ t.entries → test key = .ok (p key)) :
    t.findM hash test = .ok (t.find? hash p) :=
  probeM_eq_ok h _ _

theorem exists_findM_eq_ok {ε : Type} {t : Table κ ν} (hash : UInt32) {test : κ → Except ε Bool}
    (h : ∀ key value, (key, value) ∈ t.entries → ∃ b, test key = .ok b) :
    ∃ slot, t.findM hash test = .ok slot := by
  refine ⟨_, findM_eq_ok (p := fun key => (test key).toOption.getD false) fun key value hm => ?_⟩
  obtain ⟨b, hb⟩ := h key value hm
  simp [hb, Except.toOption]

end ScriptMachine.Table
