import ScriptMachine.Proofs.Heap.Traversal
import ScriptMachine.Proofs.Table.Content

/-!
# Iterations of a map that is thinned out

The state of an iteration over a map is a slot, and it stays good while keys are removed and values
are overwritten: a removal leaves a tombstone, an overwritten entry keeps its slot, and neither
rebuilds the table. So every slot has the key that it had when the iteration began, or none any
more, and a search from the state on passes over nothing but keys that are gone. Only a key that is
new could make entries move, and keys that are set have to be there.

A state is a number, so there must not be more slots than numbers tell apart: the state after slot
2^53 leads back to that slot.

Main definitions:
- `Table.keyAt?`: the key at a slot.
- `IterationEvent`, `ThinningRun`: iterations with removals and overwritten values between the
  steps, and with what is done to other objects.
- `ThinningVisits`: what is to hold at every point of one.

Results:
1. `Table.nextOccupied?_cases`, `Table.Represents.slot_unique`: one step along the slots, and one
   slot for each key.
2. `mapRemove_thins`, `mapSet_thins`: what removals and overwritten values leave at the slots.
3. `ThinningStands.change`, `ThinningStands.next`: the invariant, through what is done to the map
   and through a step.
4. `Reachable.thinningVisits`: all this for every map that a run leads to.
-/

namespace ScriptMachine

/-! ## 1. Slots -/

namespace Table

variable {κ ν K : Type}

/-- The key at a slot, if an entry is there. -/
def keyAt? (t : Table κ ν) (index : Nat) : Option κ :=
  match t.slots[index]? with
  | some (.occupied key _ _) => some key
  | _ => none

theorem keyAt?_eq_some_iff {t : Table κ ν} {i : Nat} {key : κ} :
    t.keyAt? i = some key ↔ ∃ value hash, t.slots[i]? = some (.occupied key value hash) := by
  unfold keyAt?
  split
  · next c v h hi => simp [hi]
  · next hi =>
    simp only [reduceCtorEq, false_iff]
    rintro ⟨value, hash, hs⟩
    exact hi key value hash hs

theorem keyAt?_lt {t : Table κ ν} {i : Nat} {key : κ} (hi : t.keyAt? i = some key) :
    i < t.capacity := by
  obtain ⟨value, hash, hs⟩ := keyAt?_eq_some_iff.mp hi
  exact (Array.getElem?_eq_some_iff.mp hs).1

theorem exists_keyAt? {t : Table κ ν} {key : κ} {value : ν} (hm : (key, value) ∈ t.entries) :
    ∃ i, t.keyAt? i = some key := by
  rw [entries_eq_map] at hm
  obtain ⟨⟨_, _, hash⟩, hrec, heq⟩ := List.mem_map.mp hm
  cases heq
  obtain ⟨i, hi⟩ := mem_slotRecords.mp hrec
  exact ⟨i, keyAt?_eq_some_iff.mpr ⟨_, _, hi⟩⟩

theorem mem_records_of_keyAt? {t : Table κ ν} {i : Nat} {key : κ} (hi : t.keyAt? i = some key) :
    ∃ value hash, (key, value, hash) ∈ t.records := by
  obtain ⟨value, hash, hs⟩ := keyAt?_eq_some_iff.mp hi
  exact ⟨value, hash, mem_slotRecords.mpr ⟨i, hs⟩⟩

theorem keyAt?_eq_none_iff {t : Table κ ν} {i : Nat} :
    t.keyAt? i = none ↔ ∀ key value hash, t.slots[i]? ≠ some (.occupied key value hash) := by
  rw [Option.eq_none_iff_forall_ne_some]
  simp only [ne_eq, keyAt?_eq_some_iff, not_exists]

theorem firstOccupied?_eq_none {slots : List (Slot κ ν)} {start : Nat}
    (hnone : firstOccupied? start slots = none) (i : Nat) (key : κ) (value : ν) (hash : UInt32) :
    slots[i]? ≠ some (.occupied key value hash) := by
  induction slots generalizing start i with
  | nil => simp
  | cons slot slots ih =>
    cases slot with
    | occupied c v h => cases hnone
    | empty | tombstone =>
      cases i with
      | zero => simp
      | succ i => exact ih hnone i

theorem firstOccupied?_eq_some {slots : List (Slot κ ν)} {start found : Nat} {key : κ}
    (hsome : firstOccupied? start slots = some (found, key)) :
    ∃ i value hash, found = start + i ∧ slots[i]? = some (.occupied key value hash) ∧
      ∀ j, j < i → ∀ c v h, slots[j]? ≠ some (.occupied c v h) := by
  induction slots generalizing start with
  | nil => cases hsome
  | cons slot slots ih =>
    cases slot with
    | occupied c v h =>
      cases hsome
      exact ⟨0, v, h, rfl, rfl, by simp⟩
    | empty | tombstone =>
      obtain ⟨i, value, hash, hfound, hi, hbefore⟩ := ih hsome
      refine ⟨i + 1, value, hash, by omega, hi, fun j hj => ?_⟩
      cases j with
      | zero => simp
      | succ j => exact hbefore j (by omega)

/-- The search for the next entry ends at the first slot with a key. -/
theorem nextOccupied?_cases (t : Table κ ν) (start : Nat) :
    (t.nextOccupied? start = none ∧ ∀ i, start ≤ i → t.keyAt? i = none) ∨
      ∃ i key, t.nextOccupied? start = some (i, key) ∧ start ≤ i ∧ t.keyAt? i = some key ∧
        ∀ j, start ≤ j → j < i → t.keyAt? j = none := by
  have hslot : ∀ i, (t.slots.toList.drop start)[i]? = t.slots[start + i]? := by
    intro i
    rw [List.getElem?_drop, Array.getElem?_toList]
  cases hnext : t.nextOccupied? start with
  | none =>
    refine .inl ⟨rfl, fun i hi => keyAt?_eq_none_iff.mpr fun key value hash hs => ?_⟩
    refine firstOccupied?_eq_none hnext (i - start) key value hash ?_
    rw [hslot, Nat.add_sub_cancel' hi, hs]
  | some found =>
    obtain ⟨i, value, hash, hfound, hi, hbefore⟩ := firstOccupied?_eq_some hnext
    rw [hslot, ← hfound] at hi
    refine .inr ⟨found.1, found.2, rfl, by omega, keyAt?_eq_some_iff.mpr ⟨_, _, hi⟩, ?_⟩
    refine fun j hj hlt => keyAt?_eq_none_iff.mpr fun c v h hs => ?_
    refine hbefore (j - start) (by omega) c v h ?_
    rw [hslot, Nat.add_sub_cancel' hj, hs]

/-- No two slots have the same key. -/
theorem Represents.slot_unique {keyOf : κ → Option K} {hashOf : K → UInt32} {t : Table κ ν}
    {f : K → Option (κ × ν)} (hr : t.Represents keyOf hashOf f) {i j : Nat} {c d : κ}
    (hi : t.keyAt? i = some c) (hj : t.keyAt? j = some d) (heq : keyOf c = keyOf d) : i = j := by
  obtain ⟨v, h, hs⟩ := keyAt?_eq_some_iff.mp hi
  obtain ⟨w, g, hs'⟩ := keyAt?_eq_some_iff.mp hj
  have hdistinct := hr.nodup
  rw [List.Nodup, List.pairwise_map, records, slotRecords, List.pairwise_filterMap,
    List.pairwise_iff_getElem] at hdistinct
  obtain ⟨hlt, hs⟩ := Array.getElem?_eq_some_iff.mp hs
  obtain ⟨hlt', hs'⟩ := Array.getElem?_eq_some_iff.mp hs'
  rcases Nat.lt_trichotomy i j with hij | hij | hij
  · exact absurd heq (hdistinct i j hlt hlt' hij (c, v, h) (by simp [hs, Slot.record?]) (d, w, g)
      (by simp [hs', Slot.record?]))
  · exact hij
  · exact absurd heq.symm (hdistinct j i hlt' hlt hij (d, w, g) (by simp [hs', Slot.record?])
      (c, v, h) (by simp [hs, Slot.record?]))

/-- A removal leaves the other slots alone. -/
theorem keyAt?_removeAt {t : Table κ ν} {i : Nat} {key : κ} {value : ν} {hash : UInt32}
    (hi : t.slots[i]? = some (.occupied key value hash)) (j : Nat) :
    (t.removeAt i).2.keyAt? j = if j = i then none else t.keyAt? j := by
  obtain ⟨hsame, hother⟩ := removeAt_slots hi
  by_cases hj : j = i
  · subst hj
    simp only [keyAt?, hsame, if_true]
  · simp only [keyAt?, hother j hj, hj, if_false]

/-- An overwritten entry keeps its slot. -/
theorem keyAt?_setValueAt {t : Table κ ν} {i : Nat} {key : κ} {old : ν} {hash : UInt32}
    (hi : t.slots[i]? = some (.occupied key old hash)) (value : ν) (j : Nat) :
    (t.setValueAt i value).keyAt? j = t.keyAt? j := by
  obtain ⟨hsame, hother⟩ := setValueAt_slots hi value
  unfold keyAt?
  by_cases hj : j = i
  · subst hj
    rw [hsame, hi]
  · rw [hother j hj]

end Table

/-! ## 2. What is done to the map -/

/-- `heap.KeepsSlots m t removed after`: the map of `m`, which had the table `t`, has every key
where it was, apart from those that were removed. -/
def Heap.KeepsSlots (heap : Heap) (m : Handle) (t : Table Value Value) (removed : List (Option Key))
    (after : Heap) : Prop :=
  ∃ t' f, after.get? m = some (.map t') ∧ t'.Represents after.keyOf? Key.hash f ∧
    t'.capacity = t.capacity ∧
    (∀ i c, t'.keyAt? i = some c ↔ t.keyAt? i = some c ∧ heap.keyOf? c ∉ removed) ∧
    ∀ i c, t'.keyAt? i = some c → after.keyOf? c = heap.keyOf? c

section Changes

variable {heap : Heap} {m : Handle} {t : Table Value Value} {f : Key → Option (Value × Value)}

/-- What stands in a table is a key. -/
theorem Table.Represents.keyOf?_keyAt? (hr : t.Represents heap.keyOf? Key.hash f) {i : Nat}
    {c : Value} (hi : t.keyAt? i = some c) : ∃ k v, heap.keyOf? c = some k ∧ f k = some (c, v) := by
  obtain ⟨value, hash, hrec⟩ := Table.mem_records_of_keyAt? hi
  obtain ⟨k, hk, -, hf⟩ := hr.bound c value hash hrec
  exact ⟨k, value, hk, hf⟩

/-- A map that is left alone keeps its slots, if what was removed is no key of it. -/
theorem Heap.keepsSlots_self (hm : heap.get? m = some (.map t))
    (hr : t.Represents heap.keyOf? Key.hash f) {removed : List (Option Key)}
    (hnone : ∀ i c, t.keyAt? i = some c → heap.keyOf? c ∉ removed) :
    heap.KeepsSlots m t removed heap :=
  ⟨t, f, hm, hr, rfl, fun i c => ⟨fun hi => ⟨hi, hnone i c hi⟩, fun hi => hi.1⟩, fun _ _ _ => rfl⟩

theorem mapRemove_thins (hm : heap.get? m = some (.map t))
    (hr : t.Represents heap.keyOf? Key.hash f) (key : Value) :
    Ends (mapRemove m key) heap (.always (heap.KeepsSlots m t [heap.keyOf? key])) := by
  cases hk : heap.keyOf? key with
  | none =>
    -- There is nothing to remove for what cannot be a key.
    have hsame : heap.KeepsSlots m t [none] heap := by
      refine Heap.keepsSlots_self hm hr fun i c hi => ?_
      obtain ⟨k, -, hc, -⟩ := hr.keyOf?_keyAt? hi
      simp [hc]
    refine .get (.read (fun hash? hhash => ?_) fun _ _ => hsame)
    cases hash? with
    | none => exact .pure hsame
    | some hash =>
      obtain ⟨k, hkey, -⟩ := Heap.hashOf_eq_some_iff.mp hhash
      rw [hk] at hkey
      cases hkey
  | some k =>
    refine Heap.mapRemove_ends hm hr hk (fun hf => ?_) fun i stored value hf hi => ?_
    · refine Heap.keepsSlots_self hm hr fun i c hi => ?_
      obtain ⟨j, v, hc, hj⟩ := hr.keyOf?_keyAt? hi
      have hjk : j ≠ k := by
        rintro rfl
        rw [hf] at hj
        cases hj
      simp [hc, hjk]
    · have hstored := (hr.stored k stored value hf).1
      have hslot : t.keyAt? i = some stored := Table.keyAt?_eq_some_iff.mpr ⟨_, _, hi⟩
      refine ⟨(t.removeAt i).2, _, ?_, (hr.removeAt hf hi).congr fun r _ =>
        Heap.keyOf?_replace_map hm _ r.1, ?_, fun j c => ?_, fun j c _ =>
        Heap.keyOf?_replace_map hm _ c⟩
      · rw [Heap.get?_replace hm, if_pos rfl]
      · rw [Table.removeAt_eq hi]
        exact Array.size_setIfInBounds ..
      · rw [Table.keyAt?_removeAt hi]
        by_cases hj : j = i
        · subst hj
          rw [if_pos rfl, hslot]
          refine ⟨fun hc => absurd hc (by simp), fun ⟨hc, hne⟩ => ?_⟩
          cases hc
          exact absurd (List.mem_singleton.mpr hstored) hne
        · rw [if_neg hj]
          refine ⟨fun hc => ⟨hc, fun hgone => hj ?_⟩, fun hc => hc.1⟩
          rw [List.mem_singleton] at hgone
          exact hr.slot_unique hc hslot (hgone.trans hstored.symm)

theorem mapSet_thins (hm : heap.get? m = some (.map t))
    (hr : t.Represents heap.keyOf? Key.hash f) {key old : Value}
    (hthere : heap.lookup t key = .ok (some old)) (value : Value) :
    Ends (mapSet m key value) heap (.always (heap.KeepsSlots m t [])) := by
  obtain ⟨k, hk⟩ : ∃ k, heap.keyOf? key = some k := by
    unfold Heap.lookup at hthere
    cases hhash : heap.hashOf key with
    | error fault =>
      rw [hhash] at hthere
      cases hthere
    | ok hash? =>
      cases hash? with
      | none =>
        rw [hhash] at hthere
        cases hthere
      | some hash =>
        obtain ⟨k, hk, -⟩ := Heap.hashOf_eq_some_iff.mp hhash
        exact ⟨k, hk⟩
  refine Heap.mapSet_ends hm hr hk value ?_
  -- The key has a slot, so its value is overwritten there.
  rw [Heap.lookup_eq hr hk] at hthere
  rcases hr.find?_eq k with ⟨hf, -⟩ | ⟨i, stored, was, hf, hs, hi⟩
  · rw [hf] at hthere
    cases hthere
  · rw [hs]
    have hkeys : ∀ c, ((heap.replace m (.map (t.setValueAt i value))).remeasure m).keyOf? c =
        heap.keyOf? c := by
      intro c
      rw [Heap.keyOf?_remeasure, Heap.keyOf?_replace_map hm]
    refine ⟨t.setValueAt i value, _, ?_, (hr.setValueAt hf hi value).congr fun r _ => hkeys r.1,
      ?_, fun j c => ?_, fun j c _ => hkeys c⟩
    · show ((heap.replace m (.map (t.setValueAt i value))).remeasure m).get? m = _
      rw [Heap.get?_remeasure, Heap.get?_replace hm, if_pos rfl]
    · rw [Table.setValueAt_eq hi]
      exact Array.size_setIfInBounds ..
    · rw [Table.keyAt?_setValueAt hi]
      simp

/-- A step looks for the next slot with a key, and leaves the heap as it is. -/
theorem iterate_map (hm : heap.get? m = some (.map t)) {state : Value} {n : Nat}
    (hn : completedSteps state = .ok n) :
    iterate (.object m) state heap = .ok (match t.nextOccupied? n with
      | some (slot, key) => .yield key (slot + 1)
      | none => .done) heap := by
  have hends : Ends (iterate (.object m) state) heap (.returns fun s after =>
      s = (match t.nextOccupied? n with
        | some (slot, key) => .yield key (slot + 1)
        | none => .done) ∧ after = heap) := by
    refine .check_ok hn (.get (.read_ok (Heap.get_eq_ok_iff.mpr hm) ?_))
    dsimp only
    cases t.nextOccupied? n with
    | none => exact .pure ⟨rfl, rfl⟩
    | some found => exact .pure ⟨rfl, rfl⟩
  obtain ⟨s, hok, rfl, hafter⟩ := hends.exists_ok
  rw [hok, hafter]

end Changes

/-! ## 3. Iterations -/

/-- What happens in an iteration of a map, as far as keys are concerned: a value is yielded that is
a key, or a key is removed. -/
inductive IterationEvent where
  | yielded (k : Option Key) (v : Value)
  | removed (k : Option Key)

/-- The values that were yielded. -/
def shown (history : List IterationEvent) : List Value :=
  history.filterMap fun
    | .yielded _ v => some v
    | .removed _ => none

/-- `ThinningRun m base history state heap`: an iteration of the map of `m` that began on `base`.
Its history, the latest event first, is `history`, it is at `state`, and the heap is `heap` by now.
Between steps keys are removed, whatever they are, keys that are there are set, and anything is done
that does not write the map and leaves it there. -/
inductive ThinningRun (m : Handle) (base : Heap) : List IterationEvent → Value → Heap → Prop
  | start : ThinningRun m base [] .null base
  | remove {history : List IterationEvent} {state : Value} {heap : Heap} (key : Value) :
      ThinningRun m base history state heap →
      ThinningRun m base (.removed (heap.keyOf? key) :: history) state
        ((HeapOp.act (.mapRemove (.object m) key)).after heap)
  | set {history : List IterationEvent} {state : Value} {heap : Heap} {t : Table Value Value}
      {key old : Value} (value : Value) : ThinningRun m base history state heap →
      heap.get? m = some (.map t) → heap.lookup t key = .ok (some old) →
      ThinningRun m base history state ((HeapOp.act (.mapSet (.object m) key value)).after heap)
  | other {history : List IterationEvent} {state : Value} {heap : Heap} (op : HeapOp) :
      ThinningRun m base history state heap → op.target? ≠ some m →
      (op.after heap).isLive m = true → ThinningRun m base history state (op.after heap)
  | next {history : List IterationEvent} {state state' v : Value} {heap after : Heap} :
      ThinningRun m base history state heap →
      iterate (.object m) state heap = .ok (.next state' v) after →
      ThinningRun m base (.yielded (heap.keyOf? v) v :: history) state' after

/-- What holds at every point of an iteration of a map that had the table `table` on `base`. -/
structure ThinningVisits (m : Handle) (base : Heap) (table : Table Value Value)
    (history : List IterationEvent) (state : Value) (heap : Heap) : Prop where
  /-- The next step yields a value or is the last, and changes nothing. -/
  steps : iterate (.object m) state heap = .ok .done heap ∨
    ∃ state' v, iterate (.object m) state heap = .ok (.next state' v) heap
  /-- What was yielded are keys of the table, from one slot after the other. -/
  order : ∃ slots : List Nat, slots.Pairwise (· > ·) ∧
    List.Forall₂ (fun i v => table.keyAt? i = some v) slots (shown history)
  /-- The keys that are there have not moved, and are those that were there and were not removed. -/
  present : ∃ t, heap.get? m = some (.map t) ∧ t.capacity = table.capacity ∧ ∀ i c,
    t.keyAt? i = some c ↔ table.keyAt? i = some c ∧ .removed (base.keyOf? c) ∉ history
  /-- No key is yielded twice, nor after it was removed. -/
  once : history.Pairwise fun later earlier => ∀ k v, later = .yielded k v →
    earlier ≠ .removed k ∧ ∀ w, earlier ≠ .yielded k w
  /-- There are no more steps that yield than slots, and the one after that many is the last. -/
  bounded : (shown history).length ≤ table.capacity ∧
    ((shown history).length = table.capacity → iterate (.object m) state heap = .ok .done heap)
  /-- At the end, every key that was there throughout has been yielded. -/
  complete : iterate (.object m) state heap = .ok .done heap → ∀ key value,
    (key, value) ∈ table.entries → .removed (base.keyOf? key) ∉ history →
    .yielded (base.keyOf? key) key ∈ history

/-! ## 4. The invariant -/

/-- The invariant of iterations of a map that is thinned out, which has the table `t` by now. -/
structure ThinningStands (m : Handle) (base : Heap) (table : Table Value Value)
    (history : List IterationEvent) (state : Value) (heap : Heap) (t : Table Value Value) :
    Prop where
  tidy : heap.Tidy
  here : heap.get? m = some (.map t)
  proper : ∃ f, t.Represents heap.keyOf? Key.hash f
  capacity : t.capacity = table.capacity
  /-- A key is where it was, unless it was removed. -/
  kept : ∀ i c, t.keyAt? i = some c ↔ table.keyAt? i = some c ∧ .removed (base.keyOf? c) ∉ history
  same : ∀ i c, t.keyAt? i = some c → heap.keyOf? c = base.keyOf? c
  /-- From a slot `n` on there is more to come. The slots of what was yielded lie before it, and all
  slots there of keys that were not removed are among them. -/
  reached : ∃ n slots, completedSteps state = .ok n ∧ n ≤ table.capacity ∧
    slots.Pairwise (· > ·) ∧ (∀ i ∈ slots, i < n) ∧
    List.Forall₂ (fun i v => table.keyAt? i = some v) slots (shown history) ∧
    ∀ i c, i < n → t.keyAt? i = some c → i ∈ slots
  named : ∀ k v, .yielded k v ∈ history → k = base.keyOf? v
  once : history.Pairwise fun later earlier => ∀ k v, later = .yielded k v →
    earlier ≠ .removed k ∧ ∀ w, earlier ≠ .yielded k w

theorem mem_shown {history : List IterationEvent} {v : Value} :
    v ∈ shown history ↔ ∃ k, .yielded k v ∈ history := by
  unfold shown
  rw [List.mem_filterMap]
  constructor
  · rintro ⟨e, he, hv⟩
    cases e with
    | yielded k w =>
      cases hv
      exact ⟨k, he⟩
    | removed k => cases hv
  · rintro ⟨k, he⟩
    exact ⟨_, he, rfl⟩

theorem shown_removed (removed : List (Option Key)) (history : List IterationEvent) :
    shown (removed.map .removed ++ history) = shown history := by
  unfold shown
  rw [List.filterMap_append, List.filterMap_map]
  simp

theorem not_mem_removed {removed : List (Option Key)} {history : List IterationEvent}
    {k : Option Key} : .removed k ∉ removed.map .removed ++ history ↔
      k ∉ removed ∧ .removed k ∉ history := by
  simp

theorem exists_of_forall₂ {α β : Type} {related : α → β → Prop} {as : List α} {bs : List β}
    (hall : List.Forall₂ related as bs) {b : β} (hb : b ∈ bs) : ∃ a ∈ as, related a b := by
  induction hall with
  | nil => cases hb
  | cons hab _ ih =>
    rcases List.mem_cons.mp hb with rfl | hb
    · exact ⟨_, List.mem_cons_self, hab⟩
    · obtain ⟨a, ha, hab⟩ := ih hb
      exact ⟨a, List.mem_cons_of_mem _ ha, hab⟩

/-- There are at most as many slots before a slot as it counts. -/
theorem length_le_of_decreasing {slots : List Nat} {n : Nat} (hdecreasing : slots.Pairwise (· > ·))
    (hbefore : ∀ i ∈ slots, i < n) : slots.length ≤ n := by
  induction slots generalizing n with
  | nil => exact Nat.zero_le n
  | cons i slots ih =>
    obtain ⟨hi, hrest⟩ := List.pairwise_cons.mp hdecreasing
    have hlt := hbefore i List.mem_cons_self
    exact Nat.lt_of_le_of_lt (ih hrest hi) hlt

namespace ThinningStands

variable {m : Handle} {base : Heap} {table t : Table Value Value} {history : List IterationEvent}
  {state : Value} {heap : Heap}

theorem start (ht : base.Tidy) (hm : base.get? m = some (.map table))
    (hp : ∃ f, table.Represents base.keyOf? Key.hash f) :
    ThinningStands m base table [] .null base table where
  tidy := ht
  here := hm
  proper := hp
  capacity := rfl
  kept := by simp
  same := fun _ _ _ => rfl
  reached := ⟨0, [], rfl, Nat.zero_le _, .nil, by simp, .nil, by simp⟩
  named := by simp
  once := .nil

/-- Whatever is done to the heap, as long as the keys stay where they are or are removed. -/
theorem change (hs : ThinningStands m base table history state heap t) {after : Heap}
    (ht : after.Tidy) {removed : List (Option Key)} (hk : heap.KeepsSlots m t removed after) :
    ∃ t', ThinningStands m base table (removed.map .removed ++ history) state after t' := by
  obtain ⟨t', f, hm, hr, hcap, hkeys, hsame⟩ := hk
  obtain ⟨n, slots, hstate, hn, hdecreasing, hbefore, hshown, hall⟩ := hs.reached
  refine ⟨t', ht, hm, ⟨f, hr⟩, hcap.trans hs.capacity, fun i c => ?_, fun i c hi => ?_, ?_, ?_, ?_⟩
  · rw [not_mem_removed, hkeys]
    constructor
    · rintro ⟨hi, hgone⟩
      obtain ⟨htable, hold⟩ := (hs.kept i c).mp hi
      exact ⟨htable, hs.same i c hi ▸ hgone, hold⟩
    · rintro ⟨htable, hgone, hold⟩
      have hi := (hs.kept i c).mpr ⟨htable, hold⟩
      exact ⟨hi, (hs.same i c hi).symm ▸ hgone⟩
  · rw [hsame i c hi]
    exact hs.same i c ((hkeys i c).mp hi).1
  · refine ⟨n, slots, hstate, hn, hdecreasing, hbefore, ?_, fun i c hlt hi => ?_⟩
    · rw [shown_removed]
      exact hshown
    · exact hall i c hlt ((hkeys i c).mp hi).1
  · intro k v hmem
    rcases List.mem_append.mp hmem with hnew | hold
    · obtain ⟨j, -, hj⟩ := List.mem_map.mp hnew
      cases hj
    · exact hs.named k v hold
  · have hremoval : ∀ e ∈ removed.map IterationEvent.removed, ∀ k v, e ≠ .yielded k v := by
      intro e he k v
      obtain ⟨j, -, rfl⟩ := List.mem_map.mp he
      simp
    refine List.pairwise_append.mpr ⟨?_, hs.once, fun e he _ _ k v heq => ?_⟩
    · exact List.pairwise_of_forall_mem_list fun e he _ _ k v heq => absurd heq (hremoval e he k v)
    · exact absurd heq (hremoval e he k v)

/-- The step that the iteration takes next, from the slot that it has come to. -/
theorem iterate_cases (hs : ThinningStands m base table history state heap t) {n : Nat}
    (hn : completedSteps state = .ok n) :
    (iterate (.object m) state heap = .ok .done heap ∧ ∀ i, n ≤ i → t.keyAt? i = none) ∨
      ∃ i c, iterate (.object m) state heap = .ok (.yield c (i + 1)) heap ∧ n ≤ i ∧
        t.keyAt? i = some c ∧ ∀ j, n ≤ j → j < i → t.keyAt? j = none := by
  have hstep := iterate_map hs.here hn
  rcases t.nextOccupied?_cases n with ⟨hnone, hrest⟩ | ⟨i, c, hsome, hle, hi, hskipped⟩
  · rw [hnone] at hstep
    exact .inl ⟨hstep, hrest⟩
  · rw [hsome] at hstep
    exact .inr ⟨i, c, hstep, hle, hi, hskipped⟩

/-- A step leads to the next point. -/
theorem next (hs : ThinningStands m base table history state heap t)
    (hrep : ∃ f, table.Represents base.keyOf? Key.hash f) (hsize : table.capacity ≤ 2 ^ 53)
    {state' v : Value} {after : Heap}
    (hstep : iterate (.object m) state heap = .ok (.next state' v) after) :
    ThinningStands m base table (.yielded (heap.keyOf? v) v :: history) state' after t := by
  obtain ⟨n, slots, hstate, hn, hdecreasing, hbefore, hshown, hall⟩ := hs.reached
  rcases hs.iterate_cases hstate with ⟨hdone, -⟩ | ⟨i, c, hok, hle, hi, hskipped⟩
  · rw [hdone] at hstep
    cases hstep
  · rw [hok] at hstep
    cases hstep
    have hkey := hs.same i v hi
    obtain ⟨htable, hthere⟩ := (hs.kept i v).mp hi
    have hlt : i < table.capacity := Table.keyAt?_lt htable
    refine ⟨hs.tidy, hs.here, hs.proper, hs.capacity, fun j c => ?_, hs.same, ?_, ?_, ?_⟩
    · rw [hs.kept]
      simp
    · refine ⟨i + 1, i :: slots, completedSteps_ofNat (by omega), hlt, ?_, ?_,
        .cons htable hshown, fun j c hj hc => ?_⟩
      · exact List.pairwise_cons.mpr ⟨fun j hj => Nat.lt_of_lt_of_le (hbefore j hj) hle,
          hdecreasing⟩
      · intro j hj
        rcases List.mem_cons.mp hj with rfl | hj
        · exact Nat.lt_succ_self _
        · have := hbefore j hj
          omega
      · -- Between the slot where the search began and the one where it ended there is no key.
        rcases Nat.lt_or_ge j n with hjn | hjn
        · exact List.mem_cons_of_mem _ (hall j c hjn hc)
        · rcases Nat.lt_or_eq_of_le (Nat.le_of_lt_succ hj) with hji | rfl
          · rw [hskipped j hjn hji] at hc
            cases hc
          · exact List.mem_cons_self
    · intro k w hmem
      rcases List.mem_cons.mp hmem with heq | hold
      · cases heq
        exact hkey
      · exact hs.named k w hold
    · refine List.pairwise_cons.mpr ⟨fun e he k w heq => ?_, hs.once⟩
      cases heq
      rw [hkey]
      refine ⟨fun hremoved => hthere (hremoved ▸ he), fun u hyielded => ?_⟩
      -- What was yielded before came from an earlier slot, and no two slots have the same key.
      subst hyielded
      obtain ⟨j, hj, hu⟩ := exists_of_forall₂ hshown (mem_shown.mpr ⟨_, he⟩)
      obtain ⟨f, hf⟩ := hrep
      have hji : j = i := hf.slot_unique hu htable (hs.named _ _ he).symm
      have := hbefore j hj
      omega

theorem visits (hs : ThinningStands m base table history state heap t) :
    ThinningVisits m base table history state heap := by
  obtain ⟨n, slots, hstate, hn, hdecreasing, hbefore, hshown, hall⟩ := hs.reached
  have hlength : slots.length ≤ n := length_le_of_decreasing hdecreasing hbefore
  rw [hshown.length_eq] at hlength
  have hcases := hs.iterate_cases hstate
  refine ⟨?_, ⟨slots, hdecreasing, hshown⟩, ⟨t, hs.here, hs.capacity, hs.kept⟩, hs.once,
    ⟨Nat.le_trans hlength hn, fun hfull => ?_⟩, fun hdone key value hmem hthere => ?_⟩
  · rcases hcases with ⟨hdone, -⟩ | ⟨i, c, hok, -⟩
    · exact .inl hdone
    · exact .inr ⟨_, c, hok⟩
  · rcases hcases with ⟨hdone, -⟩ | ⟨i, c, -, hle, hi, -⟩
    · exact hdone
    · have hlt := Table.keyAt?_lt hi
      rw [hs.capacity] at hlt
      omega
  · obtain ⟨i, hi⟩ := Table.exists_keyAt? hmem
    have hhere := (hs.kept i key).mpr ⟨hi, hthere⟩
    rcases hcases with ⟨-, hrest⟩ | ⟨j, c, hok, -⟩
    · have hin : i < n := by
        refine Nat.lt_of_not_le fun hle => ?_
        rw [hrest i hle] at hhere
        cases hhere
      obtain ⟨v, hv, hkey⟩ := exists_of_forall₂ hshown.flip (hall i key hin hhere)
      rw [hi] at hkey
      cases hkey
      obtain ⟨k, hk⟩ := mem_shown.mp hv
      exact hs.named k key hk ▸ hk
    · rw [hok] at hdone
      cases hdone

end ThinningStands

/-! ## 5. Runs -/

theorem ThinningRun.stands {m : Handle} {base : Heap} {table : Table Value Value}
    (hstart : ThinningStands m base table [] .null base table) (hsize : table.capacity ≤ 2 ^ 53)
    {history : List IterationEvent} {state : Value} {heap : Heap}
    (hr : ThinningRun m base history state heap) :
    ∃ t, ThinningStands m base table history state heap t := by
  induction hr with
  | start => exact ⟨table, hstart⟩
  | @remove history state heap key _ ih =>
    obtain ⟨t, hs⟩ := ih
    obtain ⟨f, hf⟩ := hs.proper
    have hends : Ends (HeapAction.mapRemove (.object m) key).perform heap
        (.always (heap.KeepsSlots m t [heap.keyOf? key])) :=
      (mapRemove_thins hs.here hf key).andThen_always _
    have hkeeps : heap.KeepsSlots m t [heap.keyOf? key]
        ((HeapOp.act (.mapRemove (.object m) key)).after heap) := hends.heapAfter
    exact hs.change (HeapOp.after_tidy _ hs.tidy) hkeeps
  | @set history state heap t key old value _ hm hthere ih =>
    obtain ⟨t', hs⟩ := ih
    obtain rfl : t' = t := by simpa [hs.here] using hm
    obtain ⟨f, hf⟩ := hs.proper
    have hends : Ends (HeapAction.mapSet (.object m) key value).perform heap
        (.always (heap.KeepsSlots m t' [])) :=
      (mapSet_thins hs.here hf hthere value).andThen_always fun _ => Finding.nothing
    have hkeeps : heap.KeepsSlots m t' []
        ((HeapOp.act (.mapSet (.object m) key value)).after heap) := hends.heapAfter
    exact hs.change (HeapOp.after_tidy _ hs.tidy) hkeeps
  | @other history state heap op _ htarget hl ih =>
    obtain ⟨t, hs⟩ := ih
    obtain ⟨f, hf⟩ := hs.proper
    have hkeeps : heap.KeepsSlots m t [] (op.after heap) := by
      refine ⟨t, f, op.get?_of_isLive hs.tidy hs.here (.inl htarget) hl,
        HeapOp.represents hs.tidy hs.here hf hl, rfl, by simp, fun i c hi => ?_⟩
      obtain ⟨value, hash, hrec⟩ := Table.mem_records_of_keyAt? hi
      exact op.keyOf?_eq hs.tidy hs.here hf hl hrec
    exact hs.change (op.after_tidy hs.tidy) hkeeps
  | @next history state state' v heap after _ hstep ih =>
    obtain ⟨t, hs⟩ := ih
    exact ⟨t, hs.next hstart.proper hsize hstep⟩

/-- Every iteration of a map that a run leads to, with keys removed and values overwritten between
its steps, yields every key that is there throughout, none twice, none that is gone, by slot, and
comes to its end. The states are numbers, and these tell all slots of the map apart. -/
theorem Reachable.thinningVisits {tuning : Tuning} {base : Heap}
    (hr : Reachable (fun _ op => op.MapsEmpty) tuning base) {m : Handle}
    {table : Table Value Value} (hm : base.get? m = some (.map table))
    (hsize : table.capacity ≤ 2 ^ 53) {history : List IterationEvent} {state : Value} {heap : Heap}
    (hrun : ThinningRun m base history state heap) :
    ThinningVisits m base table history state heap := by
  have hstart : ThinningStands m base table [] .null base table :=
    .start hr.tidy hm (hr.mapsProper m table hm)
  obtain ⟨t, hs⟩ := hrun.stands hstart hsize
  exact hs.visits

/-- A map with two keys. The first is yielded and then removed. The iteration has not come to its
end, since the other key was there throughout. -/
theorem Reachable.thinningVisits_of_removal :
    let m : Handle := ⟨0, 0⟩
    let created := (HeapOp.act .newMap).after (.empty .standard)
    let filled := (HeapOp.act (.mapSet (.object m) .null .null)).after created
    let base := (HeapOp.act (.mapSet (.object m) (.bool true) .null)).after filled
    let history : List IterationEvent := [.removed (some .null), .yielded (some .null) .null]
    Reachable (fun _ op => op.MapsEmpty) .standard base ∧
    ∃ table state heap, base.get? m = some (.map table) ∧ table.capacity ≤ 2 ^ 53 ∧
      ThinningRun m base history state heap ∧ ThinningVisits m base table history state heap ∧
      ∃ state' v, iterate (.object m) state heap = .ok (.next state' v) heap := by
  intro m created filled base history
  have hempty : ∀ a, (HeapOp.act a).MapsEmpty := by
    intro a table htable
    cases htable
  have hcreated : Reachable (fun _ op => op.MapsEmpty) .standard created := .step .start (hempty _)
  have hfilled : Reachable (fun _ op => op.MapsEmpty) .standard filled := .step hcreated (hempty _)
  have hr : Reachable (fun _ op => op.MapsEmpty) .standard base := .step hfilled (hempty _)
  let table : Table Value Value := ⟨#[.empty, .empty, .empty, .empty,
    .occupied .null .null (hashWord 1), .occupied (.bool true) .null (hashWord 3), .empty, .empty],
    2, 0⟩
  have hm : base.get? m = some (.map table) := by decide +kernel
  have hother : (.bool true, .null) ∈ table.entries := by decide +kernel
  have hzero : completedSteps .null = .ok 0 := rfl
  have hfirst : iterate (.object m) .null base = .ok (.yield .null 5) base := iterate_map hm hzero
  have hremoved : ThinningRun m base history _ _ := (ThinningRun.start.next hfirst).remove .null
  have hvisits := hr.thinningVisits hm (by decide) hremoved
  refine ⟨hr, table, _, _, hm, by decide, hremoved, hvisits, ?_⟩
  rcases hvisits.steps with hdone | hnext
  · have hshown := hvisits.complete hdone (.bool true) .null hother (by simp [history, Heap.keyOf?])
    simp [history] at hshown
  · exact hnext

end ScriptMachine
