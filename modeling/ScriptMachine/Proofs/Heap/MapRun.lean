import ScriptMachine.Proofs.Heap.KeyClass
import ScriptMachine.Proofs.Heap.Survival
import ScriptMachine.Proofs.Table.FiniteMap

/-!
# Maps are finite maps

The life of a map is a history of keys set and removed, with other things done to the heap in
between: other objects come, change and go, and collections run. As long as the map lives, its
keys do, so what they stand for stays what it was, and the table of the map stands for what the
history leaves bound.

Main definitions:
- `MapEvent`, `bindingAfter`: histories, and what they leave bound.
- `MapRun`: the runs of a map from its creation on.

Results:
1. `Heap.findKey_eq`: a search on the heap is a search of the table for the key.
2. `MapRun.represents`: at every point of a run the table stands for what the history left bound.
3. `MapRun.finite_map`: what this means for the operations on maps.
-/

namespace ScriptMachine

/-! ## 1. Histories and runs -/

/-- What is done to a map: a value is set as a key, or a key is removed. -/
inductive MapEvent where
  | set (k : Key) (stored value : Value)
  | remove (k : Key)

/-- The stored form and the value that a history, latest event first, leaves bound to a key: the
value is that of the last time the key was set, unless it was removed since, and the form is that
of the first time since it was absent. -/
def bindingAfter : List MapEvent → Key → Option (Value × Value)
  | [], _ => none
  | .set j stored value :: earlier, k =>
    if k = j then some (((bindingAfter earlier j).map (·.1)).getD stored, value)
    else bindingAfter earlier k
  | .remove j :: earlier, k => if k = j then none else bindingAfter earlier k

/-- The runs of the map of handle `m`, with their histories. A run begins with the creation of the
map on any heap. Then keys that are there are set and removed, and anything is done that does not
write the map and leaves it alive. -/
inductive MapRun (tuning : Tuning) (m : Handle) : List MapEvent → Heap → Prop
  | created {heap : Heap} : Reachable (fun _ _ => True) tuning heap →
      (heap.alloc (.map .empty)).1 = m →
      MapRun tuning m [] ((HeapOp.act .newMap).after heap)
  | set {history : List MapEvent} {heap : Heap} {key : Value} {k : Key} (value : Value) :
      MapRun tuning m history heap → heap.keyOf? key = some k →
      MapRun tuning m (.set k key value :: history)
        ((HeapOp.act (.mapSet (.object m) key value)).after heap)
  | remove {history : List MapEvent} {heap : Heap} {key : Value} {k : Key} :
      MapRun tuning m history heap → heap.keyOf? key = some k →
      MapRun tuning m (.remove k :: history)
        ((HeapOp.act (.mapRemove (.object m) key)).after heap)
  | other {history : List MapEvent} {heap : Heap} {op : HeapOp} :
      MapRun tuning m history heap → op.target? ≠ some m →
      (op.after heap).isLive m = true → MapRun tuning m history (op.after heap)

theorem MapRun.tidy {tuning : Tuning} {m : Handle} {history : List MapEvent} {heap : Heap}
    (hr : MapRun tuning m history heap) : heap.Tidy := by
  induction hr with
  | created hreach _ => exact HeapOp.after_tidy _ hreach.tidy
  | set _ _ _ ih => exact HeapOp.after_tidy _ ih
  | remove _ _ ih => exact HeapOp.after_tidy _ ih
  | other _ _ _ ih => exact HeapOp.after_tidy _ ih

/-! ## 2. Operations on a map -/

namespace Heap

variable {heap : Heap} {m : Handle} {table : Table Value Value} {f : Key → Option (Value × Value)}

/-- A search for a key on the heap is a search for what it stands for. -/
theorem findKey_eq (hr : table.Represents heap.keyOf? Key.hash f) {key : Value} {k : Key}
    (hk : heap.keyOf? key = some k) :
    heap.findKey table k.hash key =
      .ok (table.find? k.hash fun c => decide (heap.keyOf? c = some k)) := by
  refine Table.findM_eq_ok fun c v hm => ?_
  rw [Table.entries_eq_map] at hm
  obtain ⟨⟨_, _, hash⟩, hrec, heq⟩ := List.mem_map.mp hm
  cases heq
  obtain ⟨j, hj, -⟩ := hr.bound _ _ _ hrec
  rw [equal_of_keyOf? hj hk, hj]
  simp

theorem lookup_eq (hr : table.Represents heap.keyOf? Key.hash f) {key : Value} {k : Key}
    (hk : heap.keyOf? key = some k) : heap.lookup table key = .ok ((f k).map (·.2)) := by
  unfold lookup
  rw [hashOf_of_keyOf? hk]
  show (do return (← heap.findKey table k.hash key).bind table.valueAt? :
    Except Fault (Option Value)) = _
  rw [findKey_eq hr hk, ← hr.valueAt?_find? k]
  rfl

/-- Writing a map changes no string, so no key. -/
theorem keyOf?_replace_map (hm : heap.get? m = some (.map table)) (table' : Table Value Value)
    (v : Value) : (heap.replace m (.map table')).keyOf? v = heap.keyOf? v := by
  cases v with
  | object h =>
    by_cases hh : h = m
    · subst hh
      simp only [keyOf?, get?_replace hm, hm, if_true]
    · simp only [keyOf?, get?_replace hm, hh, if_false]
  | _ => rfl

theorem keyOf?_remeasure (heap : Heap) (m : Handle) (v : Value) :
    (heap.remeasure m).keyOf? v = heap.keyOf? v := by
  cases v with
  | object h =>
    unfold keyOf?
    dsimp only
    rw [get?_remeasure]
  | _ => rfl

/-- The table after a write stands for the map with the key bound anew. The stored form is the old
one, if there is one. -/
theorem write_represents (hr : table.Represents heap.keyOf? Key.hash f) {key : Value} {k : Key}
    (hk : heap.keyOf? key = some k) (value : Value) :
    (table.write (table.find? k.hash fun c => decide (heap.keyOf? c = some k)) key k.hash
      value).Represents heap.keyOf? Key.hash
        (Table.rebind f k (some (((f k).map (·.1)).getD key, value))) := by
  rcases hr.find?_eq k with ⟨hf, hn⟩ | ⟨i, stored, old, hf, hs, hi⟩
  · rw [hn, hf]
    exact hr.insertNew hk hf value
  · rw [hs, hf]
    exact hr.setValueAt hf hi value

/-- Setting a key writes to where a search for the key leads. -/
theorem mapSet_ends (hm : heap.get? m = some (.map table))
    (hr : table.Represents heap.keyOf? Key.hash f) {key : Value} {k : Key}
    (hk : heap.keyOf? key = some k) (value : Value) {Q : Endings Unit}
    (hok : Q.ok () ((heap.replace m (.map (table.write (table.find? k.hash fun c =>
      decide (heap.keyOf? c = some k)) key k.hash value))).remeasure m)) :
    Ends (mapSet m key value) heap Q := by
  refine .get (.read_ok (get_eq_ok_iff.mpr hm) (.read_ok (hashOf_of_keyOf? hk)
    (.read_ok (findKey_eq hr hk) (.set ?_))))
  rw [writeMap_eq]
  exact hok

/-- Setting a key that is there succeeds, and binds it. -/
theorem mapSet_returns (hm : heap.get? m = some (.map table))
    (hr : table.Represents heap.keyOf? Key.hash f) {key : Value} {k : Key}
    (hk : heap.keyOf? key = some k) (value : Value) :
    Ends (mapSet m key value) heap (.returns fun _ after => ∃ table',
      after.get? m = some (.map table') ∧ table'.Represents after.keyOf? Key.hash
        (Table.rebind f k (some (((f k).map (·.1)).getD key, value)))) := by
  refine mapSet_ends hm hr hk value ?_
  refine ⟨table.write (table.find? k.hash fun c => decide (heap.keyOf? c = some k)) key k.hash
    value, ?_, ?_⟩
  · rw [get?_remeasure, get?_replace hm, if_pos rfl]
  · refine (write_represents hr hk value).congr fun r _ => ?_
    rw [keyOf?_remeasure, keyOf?_replace_map hm]

/-- Removing a key clears the slot of its entry, if it has one. -/
theorem mapRemove_ends (hm : heap.get? m = some (.map table))
    (hr : table.Represents heap.keyOf? Key.hash f) {key : Value} {k : Key}
    (hk : heap.keyOf? key = some k) {Q : Endings (Option Value)}
    (habsent : f k = none → Q.ok none heap)
    (hpresent : ∀ (i : Nat) stored value, f k = some (stored, value) →
      table.slots[i]? = some (.occupied stored value k.hash) →
      Q.ok (some value) (heap.replace m (.map (table.removeAt i).2))) :
    Ends (mapRemove m key) heap Q := by
  refine .get (.read_ok (hashOf_of_keyOf? hk) (.read_ok (get_eq_ok_iff.mpr hm) ?_))
  refine .read_ok (findKey_eq hr hk) ?_
  rcases hr.find?_eq k with ⟨hf, hn⟩ | ⟨i, stored, value, hf, hs, hi⟩
  · rw [hn]
    exact .pure (habsent hf)
  · rw [hs]
    have hvalue : (table.removeAt i).1 = some value := congrArg Prod.fst (Table.removeAt_eq hi)
    refine .bind (.set (.pure ?_))
    show Q.ok (table.removeAt i).1 (heap.replace m (.map (table.removeAt i).2))
    rw [hvalue]
    exact hpresent i stored value hf hi

/-- Removing a key that is there gives the value it is bound to, if any, and unbinds it. -/
theorem mapRemove_returns (hm : heap.get? m = some (.map table))
    (hr : table.Represents heap.keyOf? Key.hash f) {key : Value} {k : Key}
    (hk : heap.keyOf? key = some k) :
    Ends (mapRemove m key) heap (.returns fun removed after => removed = (f k).map (·.2) ∧
      ∃ table', after.get? m = some (.map table') ∧
        table'.Represents after.keyOf? Key.hash (Table.rebind f k none)) := by
  refine mapRemove_ends hm hr hk (fun hf => ?_) fun i stored value hf hi => ?_
  · have hsame : Table.rebind f k none = f := by
      funext j
      unfold Table.rebind
      split
      · next hj => rw [hj, hf]
      · rfl
    rw [hf]
    exact ⟨rfl, table, hm, hsame.symm ▸ hr⟩
  · rw [hf]
    refine ⟨rfl, (table.removeAt i).2, ?_, ?_⟩
    · rw [get?_replace hm, if_pos rfl]
    · refine (hr.removeAt hf hi).congr fun r _ => ?_
      exact keyOf?_replace_map hm _ r.1

theorem mapGet_returns (hm : heap.get? m = some (.map table))
    (hr : table.Represents heap.keyOf? Key.hash f) {key : Value} {k : Key}
    (hk : heap.keyOf? key = some k) :
    Ends (HeapAction.mapGet (.object m) key).perform heap
      (.returns fun finding after => finding = .option ((f k).map (·.2)) ∧ after = heap) := by
  have hmap : heap.asMap (.object m) = .ok (some table) := by
    rw [asMap, view_object, get_eq_ok_iff.mpr hm]
    rfl
  exact .get (.read_ok hmap (.read_ok (lookup_eq hr hk) (.pure ⟨rfl, rfl⟩)))

end Heap

/-! ## 3. Runs of a map -/

/-- The keys of a map stay what they are as long as the map stays. -/
theorem HeapOp.keyOf?_eq {op : HeapOp} {heap : Heap} (ht : heap.Tidy) {m : Handle}
    {table : Table Value Value} {f : Key → Option (Value × Value)}
    (hm : heap.get? m = some (.map table)) (hr : table.Represents heap.keyOf? Key.hash f)
    (hl : (op.after heap).isLive m = true) {r : Value × Value × UInt32} (hrec : r ∈ table.records) :
    (op.after heap).keyOf? r.1 = heap.keyOf? r.1 := by
  obtain ⟨k, hk, -⟩ := hr.bound r.1 r.2.1 r.2.2 hrec
  rw [hk]
  refine Heap.keyOf?_mono hk fun h s hkey hs => ?_
  have hchild : h ∈ (Object.map table).children := by
    refine List.mem_flatMap.mpr ⟨(r.1, r.2.1), ?_, by simp [hkey, Value.handle?]⟩
    rw [Table.entries_eq_map]
    exact List.mem_map.mpr ⟨r, hrec, rfl⟩
  have hlive := op.isLive_child ht hm hl hchild (Heap.isLive_iff.mpr ⟨_, hs⟩)
  exact op.get?_of_isLive ht hs (.inr rfl) hlive

theorem HeapOp.represents {op : HeapOp} {heap : Heap} (ht : heap.Tidy) {m : Handle}
    {table : Table Value Value} {f : Key → Option (Value × Value)}
    (hm : heap.get? m = some (.map table)) (hr : table.Represents heap.keyOf? Key.hash f)
    (hl : (op.after heap).isLive m = true) :
    table.Represents (op.after heap).keyOf? Key.hash f :=
  hr.congr fun _ hrec => op.keyOf?_eq ht hm hr hl hrec

/-- At every point of a run, the map is there, and its table stands for what the history left
bound. -/
theorem MapRun.represents {tuning : Tuning} {m : Handle} {history : List MapEvent} {heap : Heap}
    (hr : MapRun tuning m history heap) :
    ∃ table, heap.get? m = some (.map table) ∧
      table.Represents heap.keyOf? Key.hash (bindingAfter history) := by
  induction hr with
  | @created heap hreach hnew =>
    refine ⟨.empty, ?_, Table.empty_represents⟩
    obtain ⟨base, hbase, ha, -⟩ := Heap.exists_alloc_base hreach.tidy (.map .empty)
    show (heap.alloc (.map .empty)).2.get? m = _
    rw [← hnew, ha, (Heap.get?_store hbase _ _).2, if_pos rfl]
  | @set history heap key k value _ hk ih =>
    obtain ⟨table, hm, hrep⟩ := ih
    have hends : Ends (HeapAction.mapSet (.object m) key value).perform heap
        (.returns fun _ after => ∃ table', after.get? m = some (.map table') ∧
          table'.Represents after.keyOf? Key.hash (bindingAfter (.set k key value :: history))) :=
      .bind ((Heap.mapSet_returns hm hrep hk value).mono (fun _ _ h => .pure h)
        (fun _ _ h => h) fun _ _ h => h)
    exact hends.exists_ok.elim fun _ h => h.2
  | @remove history heap key k _ hk ih =>
    obtain ⟨table, hm, hrep⟩ := ih
    have hends : Ends (HeapAction.mapRemove (.object m) key).perform heap (.returns fun _ after =>
        ∃ table', after.get? m = some (.map table') ∧
          table'.Represents after.keyOf? Key.hash (bindingAfter (.remove k :: history))) :=
      .bind ((Heap.mapRemove_returns hm hrep hk).mono (fun _ _ h => .pure h.2)
        (fun _ _ h => h) fun _ _ h => h)
    exact hends.exists_ok.elim fun _ h => h.2
  | @other history heap op hrun htarget hlive ih =>
    obtain ⟨table, hm, hrep⟩ := ih
    have ht := hrun.tidy
    -- Nothing has written the table, and its keys live on with the map that holds them.
    exact ⟨table, op.get?_of_isLive ht hm (.inl htarget) hlive, HeapOp.represents ht hm hrep hlive⟩

/-- A map is a finite map at every point of every run. Reading a key gives the value that the
history left bound to it, removing it gives the same, setting it succeeds. The entries are the
bindings, each key once and in the form in which it was first stored, and the map counts them. -/
theorem MapRun.finite_map {tuning : Tuning} {m : Handle} {history : List MapEvent} {heap : Heap}
    (hr : MapRun tuning m history heap) :
    (∀ key k, heap.keyOf? key = some k →
      (HeapAction.mapGet (.object m) key).perform heap =
        .ok (.option ((bindingAfter history k).map (·.2))) heap ∧
      (∃ after, (HeapAction.mapRemove (.object m) key).perform heap =
        .ok (.option ((bindingAfter history k).map (·.2))) after) ∧
      ∀ value, ∃ after, (HeapAction.mapSet (.object m) key value).perform heap =
        .ok .nothing after) ∧
    ∃ (table : Table Value Value) (keys : List Key), heap.get? m = some (.map table) ∧
      keys.Nodup ∧ (∀ k, k ∈ keys ↔ (bindingAfter history k).isSome = true) ∧
      table.count = keys.length ∧
      (table.entries.map fun entry => heap.keyOf? entry.1) = keys.map some ∧
      ∀ key value, (key, value) ∈ table.entries →
        ∃ k, heap.keyOf? key = some k ∧ bindingAfter history k = some (key, value) := by
  obtain ⟨table, hm, hrep⟩ := hr.represents
  refine ⟨fun key k hk => ⟨?_, ?_, fun value => ?_⟩, ?_⟩
  · obtain ⟨finding, hok, rfl, hafter⟩ := (Heap.mapGet_returns hm hrep hk).exists_ok
    rw [hok, hafter]
  · have hends : Ends (HeapAction.mapRemove (.object m) key).perform heap
        (.returns fun finding _ => finding = .option ((bindingAfter history k).map (·.2))) :=
      .bind ((Heap.mapRemove_returns hm hrep hk).mono (fun _ _ h => .pure (congrArg _ h.1))
        (fun _ _ h => h) fun _ _ h => h)
    obtain ⟨finding, hok, rfl⟩ := hends.exists_ok
    exact ⟨_, hok⟩
  · have hends : Ends (HeapAction.mapSet (.object m) key value).perform heap
        (.returns fun finding _ => finding = .nothing) :=
      .bind ((Heap.mapSet_returns hm hrep hk value).mono (fun _ _ _ => .pure rfl)
        (fun _ _ h => h) fun _ _ h => h)
    obtain ⟨finding, hok, rfl⟩ := hends.exists_ok
    exact ⟨_, hok⟩
  · obtain ⟨keys, hentries, hnodup, hmem, hcount⟩ := hrep.exists_keys
    refine ⟨table, keys, hm, hnodup, hmem, hcount, hentries, fun key value hentry => ?_⟩
    rw [Table.entries_eq_map] at hentry
    obtain ⟨⟨_, _, hash⟩, hrec, heq⟩ := List.mem_map.mp hentry
    cases heq
    obtain ⟨k, hk, -, hbound⟩ := hrep.bound _ _ _ hrec
    exact ⟨k, hk, hbound⟩

/-- A string is allocated, then one zero is set and then the other, and one NaN and then another:
the zeros are one key, and so are the NaNs, each stored as the first of them. -/
theorem MapRun.finite_map_of_zeros :
    let m : Handle := ⟨0, 0⟩
    let minusZero : Double := ⟨0x8000000000000000⟩
    let someNaN : Double := ⟨0xFFF0000000000001⟩
    let history : List MapEvent :=
      [.set .nan (.number .nan) (.bool false), .set .nan (.number someNaN) .null,
        .set .zero (.number 0) .null, .set .zero (.number minusZero) (.bool true)]
    bindingAfter history .zero = some (.number minusZero, .null) ∧
    bindingAfter history .nan = some (.number someNaN, .bool false) ∧
    ∃ heap, MapRun .standard m history heap ∧
      (HeapAction.mapGet (.object m) (.number 0)).perform heap = .ok (.option (some .null)) heap ∧
      (HeapAction.mapGet (.object m) (.number someNaN)).perform heap =
        .ok (.option (some (.bool false))) heap ∧
      ∃ table, heap.get? m = some (.map table) ∧ ∀ key value, (key, value) ∈ table.entries →
        ∃ k, heap.keyOf? key = some k ∧ bindingAfter history k = some (key, value) := by
  intro m minusZero someNaN history
  have hzero : Key.ofNumber 0 = .zero := by decide +kernel
  have hminus : Key.ofNumber minusZero = .zero := by decide +kernel
  have hnan : Key.ofNumber .nan = .nan := by decide +kernel
  have hsome : Key.ofNumber someNaN = .nan := by decide +kernel
  let created := (HeapOp.act .newMap).after (.empty .standard)
  let later := (HeapOp.act (.newString [97])).after created
  have hlater : MapRun .standard m [] later :=
    .other (.created .start rfl) (by simp [HeapOp.target?, HeapAction.receiver?]) rfl
  have hrun : MapRun .standard m history _ :=
    .set _ (.set _ (.set _ (.set _ hlater (congrArg some hminus)) (congrArg some hzero))
      (congrArg some hsome)) (congrArg some hnan)
  obtain ⟨hkeys, table, keys, hm, -, -, -, -, hentries⟩ := hrun.finite_map
  exact ⟨rfl, rfl, _, hrun, (hkeys (.number 0) .zero (congrArg some hzero)).1,
    (hkeys (.number someNaN) .nan (congrArg some hsome)).1, table, hm, hentries⟩

end ScriptMachine
