import ScriptMachine.Proofs.Heap.Maps
import ScriptMachine.Proofs.Number.Rounding

/-!
# Iterations visit everything once, in order

The state of an iteration is a number that the caller holds. Between two steps anything may be done
to the heap, and the steps over a string allocate themselves, so collections pass. Still the states
lead through the whole container: a state says from which slot on there is more to come, and what
comes from there is what has not been shown yet. For a map the slots with entries are fewer than
the slots, so the state is no count of what was shown; it is a position all the same.

A cursor carries its state along. Its container is pinned, so that nothing but the end of the pin
takes it away, and that it has finished is kept apart from the state, so that nothing that is done
to the heap makes it go on.

Main definitions:
- `Item`, `Item.Shows`: what an iteration is to yield, and that a value is it.
- `Object.items?`: what the iteration of a container is to yield in all.
- `Traversal`, `CursorRun`: iterations, by hand and with a cursor, with other things done between.
- `Visits`, `CursorVisits`: what is to hold at every point of one.

Results:
1. `iterate_steps`: one step, from any slot.
2. `Stands.visits`: a point that is reached by steps has shown the first items, and the next step
   shows the next one.
3. `CursorStands.op`, `CursorRun.completes`: a cursor whose container is pinned outlives every
   operation, and comes to the end.
4. `Reachable.iterates`: all this for every container that a run leads to.
-/

namespace ScriptMachine

/-! ## 1. Items -/

/-- What an iteration is to yield: a byte, as a new string, or a value as it is. -/
inductive Item where
  | byte (b : UInt8)
  | value (v : Value)

/-- On the heap, the value is the item. -/
def Item.Shows (heap : Heap) : Item → Value → Prop
  | byte b, v => ∃ k, v = .object k ∧ heap.get? k = some (.string (.ofBytes [b]))
  | value w, v => v = w

namespace Object

/-- What the iteration of a string, a list or a map is to yield in all: the bytes, the elements, or
the keys in the order of the entries. -/
def items? : Object → Option (List Item)
  | string s => some (s.bytes.map .byte)
  | list elements => some (elements.toList.map .value)
  | map table => some (table.entries.map fun entry => .value entry.1)
  | _ => none

/-- The number of positions in a container, with those of a map that have no entry. -/
def slotCount : Object → Nat
  | string s => s.length
  | list elements => elements.size
  | map table => table.capacity
  | _ => 0

/-- What there is from a slot on. -/
def itemsFrom (slot : Nat) : Object → List Item
  | string s => (s.bytes.drop slot).map .byte
  | list elements => (elements.toList.drop slot).map .value
  | map table => ((table.slots.toList.drop slot).filterMap Table.Slot.entry?).map
      fun entry => .value entry.1
  | _ => []

theorem itemsFrom_zero {o : Object} {items : List Item} (hitems : o.items? = some items) :
    o.itemsFrom 0 = items := by
  cases o <;> cases hitems <;> rfl

end Object

/-! ## 2. One step -/

/-- The number of a count is taken for the count. -/
theorem requireInteger_ofNat {n : Nat} (hn : n ≤ 2 ^ 53) (what : String) :
    requireInteger (.number (.ofNat n)) what = .ok (n : Int) := by
  have hclamp : clampInt64 n = n := by
    unfold clampInt64
    omega
  unfold requireInteger
  rw [show (Value.number (.ofNat n)).asNumber?.bind integerOf? = some (n : Int) from
    integerOf?_ofNat hn]
  show Except.ok (clampInt64 n) = _
  rw [hclamp]

theorem completedSteps_ofNat {n : Nat} (hn : n ≤ 2 ^ 53) :
    completedSteps (.number (.ofNat n)) = .ok n := by
  show (do return (← requireInteger _ "Iterator state").toNat : Except EvalError Nat) = _
  rw [requireInteger_ofNat hn]
  rfl

/-- The search for the next entry of a map skips what is no entry, and nothing else. -/
theorem Table.firstOccupied?_cases {κ ν : Type} (slots : List (Slot κ ν)) (start : Nat) :
    (firstOccupied? start slots = none ∧ slots.filterMap Slot.entry? = []) ∨
      ∃ skipped key value, firstOccupied? start slots = some (start + skipped, key) ∧
        slots.filterMap Slot.entry? =
          (key, value) :: (slots.drop (skipped + 1)).filterMap Slot.entry? ∧
        skipped < slots.length := by
  induction slots generalizing start with
  | nil => exact .inl ⟨rfl, rfl⟩
  | cons slot slots ih =>
    have hskip (hslot : slot.entry? = none)
        (hfirst : firstOccupied? start (slot :: slots) = firstOccupied? (start + 1) slots) :
        (firstOccupied? start (slot :: slots) = none ∧
          (slot :: slots).filterMap Slot.entry? = []) ∨
        ∃ skipped key value, firstOccupied? start (slot :: slots) = some (start + skipped, key) ∧
          (slot :: slots).filterMap Slot.entry? =
            (key, value) :: ((slot :: slots).drop (skipped + 1)).filterMap Slot.entry? ∧
          skipped < (slot :: slots).length := by
      rw [List.filterMap_cons_none hslot, hfirst]
      rcases ih (start + 1) with hnone | ⟨skipped, key, value, hfound, hrest, hlt⟩
      · exact .inl hnone
      · refine .inr ⟨skipped + 1, key, value, ?_, hrest, Nat.succ_lt_succ hlt⟩
        rw [hfound, Nat.add_assoc, Nat.add_comm 1]
    cases slot with
    | empty => exact hskip rfl rfl
    | tombstone => exact hskip rfl rfl
    | occupied key value hash =>
      exact .inr ⟨0, key, value, rfl, rfl, Nat.succ_pos _⟩

/-- `Steps heap o slot step after`: what a step from `slot` may come to. It shows the first item
from the slot on, and leads to a slot from which there are the others; without an item it is the
last. It leaves the heap as it is, or allocates a string. -/
inductive Steps (heap : Heap) (o : Object) (slot : Nat) : IterationStep → Heap → Prop
  | last : o.itemsFrom slot = [] → Steps heap o slot .done heap
  | shows (item : Item) {rest : List Item} {slot' : Nat} {v : Value} {after : Heap} :
      o.itemsFrom slot = item :: rest → item.Shows after v → o.itemsFrom slot' = rest →
      slot' ≤ o.slotCount → (after = heap ∨ ∃ s, after = (heap.alloc (.string s)).2) →
      Steps heap o slot (.yield v slot') after

section Step

variable {heap : Heap} {h : Handle} {o : Object}

theorem iterate_steps (ht : heap.Tidy) (ho : heap.get? h = some o) {items : List Item}
    (hitems : o.items? = some items) {state : Value} {slot : Nat}
    (hstate : completedSteps state = .ok slot) :
    Ends (iterate (.object h) state) heap (.returns (Steps heap o slot)) := by
  refine .check_ok hstate (.get (.read_ok (Heap.get_eq_ok_iff.mpr ho) ?_))
  cases o with
  | string s =>
    dsimp only
    split
    · next byte hbyte =>
      obtain ⟨hlt, hbyte⟩ := List.getElem?_eq_some_iff.mp hbyte
      refine .bind (.newObject (.pure (.shows (.byte byte) ?_ ⟨_, rfl, ?_⟩ rfl hlt ?_)))
      · show (s.bytes.drop slot).map Item.byte = _ :: (s.bytes.drop (slot + 1)).map Item.byte
        rw [List.drop_eq_getElem_cons hlt, hbyte]
        rfl
      · exact Heap.get?_alloc_new ht _
      · exact .inr ⟨_, rfl⟩
    · next hnone =>
      refine .pure (.last ?_)
      show (s.bytes.drop slot).map Item.byte = []
      rw [List.drop_eq_nil_iff.mpr (List.getElem?_eq_none_iff.mp hnone)]
      rfl
  | list elements =>
    dsimp only
    split
    · next element helement =>
      rw [← Buffer.getElem?_toList] at helement
      obtain ⟨hlt, helement⟩ := List.getElem?_eq_some_iff.mp helement
      refine .pure (.shows (.value element) ?_ rfl rfl ?_ (.inl rfl))
      · show (elements.toList.drop slot).map Item.value =
          _ :: (elements.toList.drop (slot + 1)).map Item.value
        rw [List.drop_eq_getElem_cons hlt, helement]
        rfl
      · exact hlt
    · next hnone =>
      rw [← Buffer.getElem?_toList] at hnone
      refine .pure (.last ?_)
      show (elements.toList.drop slot).map Item.value = []
      rw [List.drop_eq_nil_iff.mpr (List.getElem?_eq_none_iff.mp hnone)]
      rfl
  | map table =>
    dsimp only
    rcases Table.firstOccupied?_cases (table.slots.toList.drop slot) slot with
      ⟨hnone, hrest⟩ | ⟨skipped, key, value, hnext, hrest, hlt⟩
    · rw [show table.nextOccupied? slot = none from hnone]
      refine .pure (.last ?_)
      show ((table.slots.toList.drop slot).filterMap Table.Slot.entry?).map _ = []
      rw [hrest]
      rfl
    · rw [show table.nextOccupied? slot = some (slot + skipped, key) from hnext]
      rw [List.drop_drop, ← Nat.add_assoc] at hrest
      refine .pure (.shows (.value key) ?_ rfl rfl ?_ (.inl rfl))
      · show ((table.slots.toList.drop slot).filterMap Table.Slot.entry?).map _ = _
        rw [hrest]
        rfl
      · rw [List.length_drop, Array.length_toList] at hlt
        show slot + skipped + 1 ≤ table.slots.size
        omega
  | _ => cases hitems

theorem requirePosition_ofNat {i length : Nat} (hi : i < length) (hlength : length < 2 ^ 53)
    (container : String) :
    requirePosition (.number (.ofNat i)) length container = .ok i := by
  unfold requirePosition
  rw [requireInteger_ofNat (Nat.lt_trans hi hlength).le]
  show requireIndex i length container = _
  unfold requireIndex
  rw [if_pos ⟨Int.natCast_nonneg i, Int.ofNat_lt.mpr hi⟩, Int.toNat_natCast]

/-- Reading a position gives the item that an iteration shows there. -/
theorem getSubscript_items (ht : heap.Tidy) (ho : heap.get? h = some o) {items : List Item}
    (hitems : o.items? = some items) (hsize : o.slotCount < 2 ^ 53) (hkind : o.kind ≠ .map)
    {i : Nat} {item : Item} (hi : items[i]? = some item) :
    Ends (getSubscript (.object h) (.number (.ofNat i))) heap
      (.returns fun v after => item.Shows after v) := by
  refine .get (.read_ok (Heap.get_eq_ok_iff.mpr ho) ?_)
  cases o with
  | string s =>
    cases hitems
    rw [List.getElem?_map, Option.map_eq_some_iff] at hi
    obtain ⟨byte, hbyte, rfl⟩ := hi
    obtain ⟨hlt, hbyte⟩ := List.getElem?_eq_some_iff.mp hbyte
    have hone : (s.bytes.drop i).take 1 = [byte] := by
      rw [List.drop_eq_getElem_cons hlt, hbyte]
      rfl
    refine .check_ok (requirePosition_ofNat hlt hsize _) ?_
    rw [hone]
    exact .newObject ⟨_, rfl, Heap.get?_alloc_new ht _⟩
  | list elements =>
    cases hitems
    rw [List.getElem?_map, Option.map_eq_some_iff] at hi
    obtain ⟨element, helement, rfl⟩ := hi
    have hlt : i < elements.size := (List.getElem?_eq_some_iff.mp helement).1
    rw [Buffer.getElem?_toList] at helement
    refine .check_ok (requirePosition_ofNat hlt hsize _) ?_
    rw [helement]
    exact .pure rfl
  | map table => exact absurd rfl hkind
  | _ => cases hitems

end Step

/-! ## 3. Points of an iteration -/

/-- What was yielded, with the heaps right after, are the items. -/
def Yielded (items : List Item) (trace : List (Value × Heap)) : Prop :=
  List.Forall₂ (fun (item : Item) (seen : Value × Heap) => item.Shows seen.2 seen.1) items trace

/-- The invariant of iterations. The iteration of `o` has yielded `trace`, and from its state on
there is what is left of the items. -/
structure Stands (h : Handle) (o : Object) (items : List Item) (trace : List (Value × Heap))
    (state : Value) (heap : Heap) : Prop where
  tidy : heap.Tidy
  here : heap.get? h = some o
  proper : ∀ table, o = .map table → ∃ f, table.Represents heap.keyOf? Key.hash f
  shown : Yielded (items.take trace.length) trace
  rest : ∃ slot, completedSteps state = .ok slot ∧ o.itemsFrom slot = items.drop trace.length

namespace Stands

variable {h : Handle} {o : Object} {items : List Item} {trace : List (Value × Heap)}
  {state : Value} {heap : Heap}

theorem start (hitems : o.items? = some items) (ht : heap.Tidy) (ho : heap.get? h = some o)
    (hp : ∀ table, o = .map table → ∃ f, table.Represents heap.keyOf? Key.hash f) :
    Stands h o items [] .null heap where
  tidy := ht
  here := ho
  proper := hp
  shown := .nil
  rest := ⟨0, rfl, Object.itemsFrom_zero hitems⟩

/-- Whatever is done to the heap, as long as the container is there and is not written. -/
theorem op (hs : Stands h o items trace state heap) (op : HeapOp) (htarget : op.target? ≠ some h)
    (hl : (op.after heap).isLive h = true) : Stands h o items trace state (op.after heap) where
  tidy := op.after_tidy hs.tidy
  here := op.get?_of_isLive hs.tidy hs.here (.inl htarget) hl
  proper := by
    rintro table rfl
    obtain ⟨f, hr⟩ := hs.proper table rfl
    exact ⟨f, HeapOp.represents hs.tidy hs.here hr hl⟩
  shown := hs.shown
  rest := hs.rest

/-- The step that an iteration takes next. -/
theorem steps (hs : Stands h o items trace state heap) (hitems : o.items? = some items) :
    ∃ slot step after, iterate (.object h) state heap = .ok step after ∧
      Steps heap o slot step after ∧ o.itemsFrom slot = items.drop trace.length := by
  obtain ⟨slot, hslot, hrest⟩ := hs.rest
  obtain ⟨step, hok, hsteps⟩ := (iterate_steps hs.tidy hs.here hitems hslot).exists_ok
  exact ⟨slot, step, _, hok, hsteps, hrest⟩

theorem iterate_done (hs : Stands h o items trace state heap) (hitems : o.items? = some items)
    (hend : trace.length = items.length) :
    iterate (.object h) state heap = .ok .done heap := by
  obtain ⟨slot, step, after, hok, hsteps, hrest⟩ := hs.steps hitems
  rw [hend, List.drop_length] at hrest
  cases hsteps with
  | last _ => exact hok
  | shows item hfirst _ _ _ _ =>
    rw [hrest] at hfirst
    cases hfirst

theorem iterate_next (hs : Stands h o items trace state heap) (hitems : o.items? = some items)
    {item : Item} (hitem : items[trace.length]? = some item) :
    ∃ slot v after, iterate (.object h) state heap = .ok (.yield v slot) after ∧
      item.Shows after v ∧ o.itemsFrom slot = items.drop (trace.length + 1) ∧
      slot ≤ o.slotCount ∧ (after = heap ∨ ∃ s, after = (heap.alloc (.string s)).2) := by
  obtain ⟨slot, step, after, hok, hsteps, hrest⟩ := hs.steps hitems
  obtain ⟨hlt, hitem⟩ := List.getElem?_eq_some_iff.mp hitem
  rw [List.drop_eq_getElem_cons hlt, hitem] at hrest
  cases hsteps with
  | last hnone =>
    rw [hrest] at hnone
    cases hnone
  | shows item' hfirst hshows hothers hslot hafter =>
    rw [hrest] at hfirst
    cases hfirst
    exact ⟨_, _, _, hok, hshows, hothers, hslot, hafter⟩

/-- There is as much left to show as has not been shown. -/
theorem length_le (hs : Stands h o items trace state heap) : trace.length ≤ items.length := by
  have hlength := hs.shown.length_eq
  rw [List.length_take] at hlength
  omega

/-- A step leads to the next point. -/
theorem next (hs : Stands h o items trace state heap) (hitems : o.items? = some items)
    (hsize : o.slotCount < 2 ^ 53) {state' v : Value} {after : Heap}
    (hstep : iterate (.object h) state heap = .ok (.next state' v) after)
    (hl : after.isLive h = true) : Stands h o items (trace ++ [(v, after)]) state' after := by
  -- A step is an operation that writes nothing.
  have hafter : (HeapOp.act (.iterate (.object h) state)).after heap = after := by
    show heapAfter (do return Finding.step (← iterate (.object h) state)) heap = after
    simp only [heapAfter, bind, EStateM.bind, hstep, pure, EStateM.pure]
  have hstill : Stands h o items trace state after := by
    have hop := hs.op (.act (.iterate (.object h) state)) (by simp [HeapOp.target?,
      HeapAction.receiver?])
    rw [hafter] at hop
    exact hop hl
  have hlt : trace.length < items.length := by
    rcases Nat.lt_or_eq_of_le hs.length_le with hlt | hend
    · exact hlt
    · rw [hs.iterate_done hitems hend] at hstep
      cases hstep
  obtain ⟨slot, w, after', hok, hshows, hothers, hslot, -⟩ :=
    hs.iterate_next hitems (List.getElem?_eq_getElem hlt)
  rw [hok] at hstep
  cases hstep
  refine ⟨hstill.tidy, hstill.here, hstill.proper, ?_, ?_⟩
  · rw [List.length_append, List.length_singleton, List.take_succ_eq_append_getElem hlt]
    exact List.rel_append hs.shown (.cons hshows .nil)
  · refine ⟨slot, completedSteps_ofNat (Nat.lt_of_le_of_lt hslot hsize).le, ?_⟩
    rw [List.length_append, List.length_singleton]
    exact hothers

end Stands

/-! ## 4. Iterations -/

/-- `Traversal h start trace state heap`: an iteration of the container of `h` that began on
`start`. It has yielded `trace`, is at `state`, and the heap is `heap` by now. Between steps
anything may be done that does not write the container and leaves it there. -/
inductive Traversal (h : Handle) (start : Heap) : List (Value × Heap) → Value → Heap → Prop
  | start : Traversal h start [] .null start
  | other {trace : List (Value × Heap)} {state : Value} {heap : Heap} (op : HeapOp) :
      Traversal h start trace state heap → op.target? ≠ some h →
      (op.after heap).isLive h = true → Traversal h start trace state (op.after heap)
  | next {trace : List (Value × Heap)} {state state' v : Value} {heap after : Heap} :
      Traversal h start trace state heap →
      iterate (.object h) state heap = .ok (.next state' v) after → after.isLive h = true →
      Traversal h start (trace ++ [(v, after)]) state' after

/-- What holds at every point of an iteration of `o`. -/
structure Visits (h : Handle) (o : Object) (items : List Item) (trace : List (Value × Heap))
    (state : Value) (heap : Heap) : Prop where
  content : heap.get? h = some o
  /-- What was yielded are the first items, in order. -/
  shown : Yielded (items.take trace.length) trace
  /-- If there is an item left, the next step shows the first of them. -/
  next : ∀ item, items[trace.length]? = some item → ∃ state' v after,
    iterate (.object h) state heap = .ok (.next state' v) after ∧ item.Shows after v
  /-- If there is none, the next step says so. -/
  done : trace.length = items.length → iterate (.object h) state heap = .ok .done heap
  /-- No two keys of a map are the same key. -/
  distinct : ∀ table, o = .map table →
    (table.entries.map (·.1)).Pairwise fun a b => heap.equal a b = .ok false
  /-- In a string or a list, the items are what is read at the positions. -/
  subscript : o.kind ≠ .map → ∀ (i : Nat) item, items[i]? = some item → ∃ v after,
    getSubscript (.object h) (.number (.ofNat i)) heap = .ok v after ∧ item.Shows after v

section Container

variable {h : Handle} {o : Object} {items : List Item} (hitems : o.items? = some items)
  (hsize : o.slotCount < 2 ^ 53)
include hitems hsize

theorem Stands.visits {trace : List (Value × Heap)} {state : Value} {heap : Heap}
    (hs : Stands h o items trace state heap) : Visits h o items trace state heap where
  content := hs.here
  shown := hs.shown
  next := by
    intro item hitem
    obtain ⟨slot, v, after, hok, hshows, -⟩ := hs.iterate_next hitems hitem
    exact ⟨_, v, after, hok, hshows⟩
  done := hs.iterate_done hitems
  distinct := by
    intro table htable
    obtain ⟨f, hr⟩ := hs.proper table htable
    exact hr.keys_distinct
  subscript := by
    intro hkind i item hi
    obtain ⟨v, hok, hshows⟩ :=
      (getSubscript_items hs.tidy hs.here hitems hsize hkind hi).exists_ok
    exact ⟨v, _, hok, hshows⟩

theorem Traversal.stands {start : Heap} (hstart : Stands h o items [] .null start)
    {trace : List (Value × Heap)} {state : Value} {heap : Heap}
    (hr : Traversal h start trace state heap) : Stands h o items trace state heap := by
  induction hr with
  | start => exact hstart
  | other op _ htarget hl ih => exact ih.op op htarget hl
  | next _ hstep hl ih => exact ih.next hitems hsize hstep hl

end Container

/-! ## 5. Cursors -/

/-- `CursorRun h base trace c heap`: the cursor `c` was made on `base` for the container of `h`,
with the container pinned, and has yielded `trace` since it was made or restarted. In between
anything may be done that does not write the container and leaves the pin. -/
inductive CursorRun (h : Handle) (base : Heap) : List (Value × Heap) → Cursor → Heap → Prop
  | start : CursorRun h base [] (.start (.object h)) (base.pin [.object h])
  | other {trace : List (Value × Heap)} {c : Cursor} {heap : Heap} (op : HeapOp) :
      CursorRun h base trace c heap → op.target? ≠ some h → h ∈ (op.after heap).pins →
      CursorRun h base trace c (op.after heap)
  | next {trace : List (Value × Heap)} {c c' : Cursor} {heap after : Heap} {v : Value} :
      CursorRun h base trace c heap → c.advance heap = .ok (some (.ok v), c') after →
      CursorRun h base (trace ++ [(v, after)]) c' after
  | stop {trace : List (Value × Heap)} {c c' : Cursor} {heap after : Heap} :
      CursorRun h base trace c heap → c.advance heap = .ok (none, c') after →
      CursorRun h base trace c' after
  | restart {trace : List (Value × Heap)} {c : Cursor} {heap : Heap} :
      CursorRun h base trace c heap → CursorRun h base [] c.restart heap

namespace Cursor

theorem advance_of_finished {c : Cursor} (hf : c.finished = true) (heap : Heap) :
    c.advance heap = .ok (none, c) heap := by
  unfold advance
  rw [if_pos hf]
  rfl

theorem advance_of_next {c : Cursor} (hf : c.finished = false) {heap after : Heap}
    {state v : Value} (hok : iterate c.container c.state heap = .ok (.next state v) after) :
    c.advance heap = .ok (some (.ok v), { c with state }) after := by
  unfold advance
  rw [if_neg (by rw [hf]; decide)]
  simp only [bind, EStateM.bind, attempt, hok]
  rfl

theorem advance_of_done {c : Cursor} (hf : c.finished = false) {heap after : Heap}
    (hok : iterate c.container c.state heap = .ok .done after) :
    c.advance heap = .ok (none, { c with finished := true }) after := by
  unfold advance
  rw [if_neg (by rw [hf]; decide)]
  simp only [bind, EStateM.bind, attempt, hok]
  rfl

/-- A cursor that has brought nothing, or an error, is finished. -/
theorem finished_of_advance {c c' : Cursor} {heap after : Heap}
    {found : Option (Except EvalError Value)} (hok : c.advance heap = .ok (found, c') after)
    (hfound : ∀ v, found ≠ some (.ok v)) : c'.finished = true := by
  unfold advance at hok
  split at hok
  · next hf =>
    cases hok
    exact hf
  · simp only [bind, EStateM.bind, attempt] at hok
    cases hstep : iterate c.container c.state heap with
    | ok step now =>
      rw [hstep] at hok
      cases step with
      | next state v =>
        cases hok
        exact absurd rfl (hfound v)
      | done =>
        cases hok
        rfl
    | error failure now =>
      rw [hstep] at hok
      cases failure with
      | error e =>
        cases hok
        rfl
      | fault f => cases hok

end Cursor

/-- What holds at every point of a cursor's life. -/
structure CursorVisits (h : Handle) (items : List Item) (trace : List (Value × Heap)) (c : Cursor)
    (heap : Heap) : Prop where
  live : heap.isLive h = true
  /-- What was yielded are the first items, in order. -/
  shown : Yielded (items.take trace.length) trace
  /-- If there is an item left, the cursor is not finished and shows the first of them. -/
  next : ∀ item, items[trace.length]? = some item → c.finished = false ∧ ∃ v c' after,
    c.advance heap = .ok (some (.ok v), c') after ∧ item.Shows after v
  /-- If there is none, it brings nothing. -/
  none : trace.length = items.length → ∃ c', c.advance heap = .ok (none, c') heap

/-- The invariant of cursors: an iteration whose container is pinned, and which is not said to be
finished before it is. -/
structure CursorStands (h : Handle) (o : Object) (items : List Item)
    (trace : List (Value × Heap)) (c : Cursor) (heap : Heap) : Prop where
  stands : Stands h o items trace c.state heap
  container : c.container = .object h
  pinned : h ∈ heap.pins
  finished : c.finished = true → trace.length = items.length

namespace CursorStands

variable {h : Handle} {o : Object} {items : List Item} {trace : List (Value × Heap)} {c : Cursor}
  {heap : Heap}

theorem anchored (hs : CursorStands h o items trace c heap) : h ∈ heap.anchors :=
  List.mem_append_right _ hs.pinned

theorem live (hs : CursorStands h o items trace c heap) : heap.isLive h = true :=
  Heap.isLive_iff.mpr ⟨o, hs.stands.here⟩

/-- The pin keeps the container through whatever is done, so nothing has to be asked of it. -/
theorem op (hs : CursorStands h o items trace c heap) (op : HeapOp)
    (htarget : op.target? ≠ some h) (hpin : h ∈ (op.after heap).pins) :
    CursorStands h o items trace c (op.after heap) where
  stands := hs.stands.op op htarget
    (op.isLive_of_anchored hs.stands.tidy hs.anchored hs.live)
  container := hs.container
  pinned := hpin
  finished := hs.finished

theorem restart (hs : CursorStands h o items trace c heap) (hitems : o.items? = some items) :
    CursorStands h o items [] c.restart heap where
  stands := .start hitems hs.stands.tidy hs.stands.here hs.stands.proper
  container := hs.container
  pinned := hs.pinned
  finished := by
    intro hf
    cases hf

/-- With an item left, the cursor shows it and comes to the next point. -/
theorem advance_next (hs : CursorStands h o items trace c heap) (hitems : o.items? = some items)
    (hsize : o.slotCount < 2 ^ 53) {item : Item} (hitem : items[trace.length]? = some item) :
    c.finished = false ∧ ∃ v c' after, c.advance heap = .ok (some (.ok v), c') after ∧
      item.Shows after v ∧ CursorStands h o items (trace ++ [(v, after)]) c' after := by
  have hlt := (List.getElem?_eq_some_iff.mp hitem).1
  have hf : c.finished = false := by
    rw [← Bool.not_eq_true]
    intro hf
    exact Nat.ne_of_lt hlt (hs.finished hf)
  obtain ⟨slot, v, after, hok, hshows, -, -, hafter⟩ := hs.stands.iterate_next hitems hitem
  have hpin : h ∈ after.pins := by
    rcases hafter with rfl | ⟨s, rfl⟩
    · exact hs.pinned
    · rw [Heap.alloc_pins]
      exact hs.pinned
  have hlive : after.isLive h = true := by
    rcases hafter with rfl | ⟨s, rfl⟩
    · exact hs.live
    · exact Heap.isLive_iff.mpr
        ⟨o, Heap.get?_alloc_of_anchored hs.stands.tidy _ hs.anchored hs.stands.here⟩
  refine ⟨hf, v, _, after, Cursor.advance_of_next hf (by rw [hs.container]; exact hok), hshows, ?_⟩
  refine ⟨hs.stands.next hitems hsize hok hlive, hs.container, hpin, fun hf' => ?_⟩
  rw [show c.finished = true from hf'] at hf
  cases hf

/-- Without one it brings nothing, and stays where it is. -/
theorem advance_none (hs : CursorStands h o items trace c heap) (hitems : o.items? = some items)
    (hend : trace.length = items.length) :
    ∃ c', c.advance heap = .ok (none, c') heap ∧ CursorStands h o items trace c' heap := by
  cases hf : c.finished with
  | true => exact ⟨c, Cursor.advance_of_finished hf heap, hs⟩
  | false =>
    have hdone := hs.stands.iterate_done hitems hend
    refine ⟨_, Cursor.advance_of_done hf (by rw [hs.container]; exact hdone), ?_⟩
    exact ⟨hs.stands, hs.container, hs.pinned, fun _ => hend⟩

theorem visits (hs : CursorStands h o items trace c heap) (hitems : o.items? = some items)
    (hsize : o.slotCount < 2 ^ 53) : CursorVisits h items trace c heap where
  live := hs.live
  shown := hs.stands.shown
  next := by
    intro item hitem
    obtain ⟨hf, v, c', after, hok, hshows, -⟩ := hs.advance_next hitems hsize hitem
    exact ⟨hf, v, c', after, hok, hshows⟩
  none := by
    intro hend
    obtain ⟨c', hok, -⟩ := hs.advance_none hitems hend
    exact ⟨c', hok⟩

end CursorStands

section Container

variable {h : Handle} {o : Object} {items : List Item} (hitems : o.items? = some items)
  (hsize : o.slotCount < 2 ^ 53)
include hitems hsize

theorem CursorRun.stands {base : Heap} (hbase : Stands h o items [] .null base)
    {trace : List (Value × Heap)} {c : Cursor} {heap : Heap}
    (hr : CursorRun h base trace c heap) : CursorStands h o items trace c heap := by
  induction hr with
  | start =>
    have hpinned : Stands h o items [] .null (base.pin [.object h]) :=
      hbase.op (.act (.pin [.object h])) (by simp [HeapOp.target?, HeapAction.receiver?])
        (Heap.isLive_iff.mpr ⟨o, hbase.here⟩)
    exact ⟨hpinned, rfl, List.mem_cons_self, fun hf => by cases hf⟩
  | other op _ htarget hpin ih => exact ih.op op htarget hpin
  | @next trace c c' heap after v _ hok ih =>
    rcases Nat.lt_or_eq_of_le ih.stands.length_le with hlt | hend
    · obtain ⟨-, w, d, now, hok', -, hnext⟩ :=
        ih.advance_next hitems hsize (List.getElem?_eq_getElem hlt)
      rw [hok'] at hok
      cases hok
      exact hnext
    · obtain ⟨d, hok', -⟩ := ih.advance_none hitems hend
      rw [hok'] at hok
      cases hok
  | @stop trace c c' heap after _ hok ih =>
    rcases Nat.lt_or_eq_of_le ih.stands.length_le with hlt | hend
    · obtain ⟨-, w, d, now, hok', -, -⟩ :=
        ih.advance_next hitems hsize (List.getElem?_eq_getElem hlt)
      rw [hok'] at hok
      cases hok
    · obtain ⟨d, hok', hstop⟩ := ih.advance_none hitems hend
      rw [hok'] at hok
      cases hok
      exact hstop
  | restart _ ih => exact ih.restart hitems

/-- From every point a cursor can be advanced until it has yielded everything. -/
theorem CursorRun.completes {base : Heap} (hbase : Stands h o items [] .null base)
    {trace : List (Value × Heap)} {c : Cursor} {heap : Heap}
    (hr : CursorRun h base trace c heap) : ∃ more c' later,
      CursorRun h base (trace ++ more) c' later ∧ Yielded items (trace ++ more) := by
  have hs := hr.stands hitems hsize hbase
  rcases Nat.lt_or_eq_of_le hs.stands.length_le with hlt | hend
  · obtain ⟨-, v, c', after, hok, -, -⟩ :=
      hs.advance_next hitems hsize (List.getElem?_eq_getElem hlt)
    obtain ⟨more, d, later, hlater, hall⟩ := CursorRun.completes hbase (hr.next hok)
    rw [List.append_assoc] at hlater hall
    exact ⟨_, d, later, hlater, hall⟩
  · refine ⟨[], c, heap, by rwa [List.append_nil], ?_⟩
    have hshown := hs.stands.shown
    rw [hend, List.take_length] at hshown
    rwa [List.append_nil]
termination_by items.length - trace.length
decreasing_by
  rw [List.length_append, List.length_singleton]
  omega

end Container

/-! ## 6. Runs -/

/-- Every iteration of a string, a list or a map that a run leads to shows what there is to show,
in order and once, and then ends; a cursor does the same, from its making and from every restart
on. What ends a cursor ends it for good, whatever heap it is asked on. -/
theorem Reachable.iterates {tuning : Tuning} {heap : Heap}
    (hr : Reachable (fun _ op => op.MapsEmpty) tuning heap) {h : Handle} {o : Object}
    {items : List Item} (ho : heap.get? h = some o) (hitems : o.items? = some items)
    (hsize : o.slotCount < 2 ^ 53) :
    (∀ trace state now, Traversal h heap trace state now → Visits h o items trace state now) ∧
    (∀ trace c now, CursorRun h heap trace c now →
      CursorVisits h items trace c now ∧ ∃ more c' later,
        CursorRun h heap (trace ++ more) c' later ∧ Yielded items (trace ++ more)) ∧
    ∀ (c c' : Cursor) now found after, c.advance now = .ok (found, c') after →
      (found = none ∨ ∃ e, found = some (.error e)) →
      ∀ later, c'.advance later = .ok (none, c') later := by
  have hstart : Stands h o items [] .null heap := by
    refine .start hitems hr.tidy ho fun table htable => ?_
    exact hr.mapsProper h table (htable ▸ ho)
  refine ⟨fun trace state now hrun => ?_, fun trace c now hrun => ⟨?_, ?_⟩,
    fun c c' now found after hok hfound later => ?_⟩
  · exact (hrun.stands hitems hsize hstart).visits hitems hsize
  · exact (hrun.stands hitems hsize hstart).visits hitems hsize
  · exact hrun.completes hitems hsize hstart
  · refine Cursor.advance_of_finished (Cursor.finished_of_advance hok fun v hv => ?_) later
    rcases hfound with rfl | ⟨e, rfl⟩ <;> cases hv

/-- A string of two bytes that nothing but its cursor keeps. Each step collects before it allocates
the string that it yields, and both bytes come. -/
theorem Reachable.iterates_of_pin :
    let text : Object := .string (.ofBytes [97, 98])
    let h := ((Heap.empty .stressed).alloc text).1
    let heap := (HeapOp.act (.newString [97, 98])).after (.empty .stressed)
    Reachable (fun _ op => op.MapsEmpty) .stressed heap ∧ heap.get? h = some text ∧
      ∃ trace c now, CursorRun h heap trace c now ∧ Yielded [.byte 97, .byte 98] trace := by
  intro text h heap
  have hr : Reachable (fun _ op => op.MapsEmpty) .stressed heap :=
    .step .start fun table htable => by cases htable
  have ho : heap.get? h = some text := Heap.get?_alloc_new (Heap.empty_tidy _) text
  obtain ⟨-, more, c, now, hrun, hall⟩ := (hr.iterates ho rfl (by decide)).2.1 _ _ _ .start
  exact ⟨hr, ho, more, c, now, hrun, hall⟩

end ScriptMachine
