import Mathlib
import ScriptMachine.Proofs.Heap.Survival

/-!
# The byte count

The heap keeps a running count of bytes. The size of an object is measured when it is stored, when
a collection passes, and by some writes; other writes leave the measure out of date on purpose. The
count follows the measures and not the objects, so every subtraction takes off what was once added.

Main definitions:
- `Heap.sizeAt`, `Heap.footprintAt`: the size of an object as measured last, and as it is.
- `Heap.Balanced`: the count is the sum of the measured sizes.
- `sweepTally`: the count in the course of a sweep, cell by cell.
- `Heap.Books`: what holds of the count, and of the next collection.

Results:
1. `sum_liveHandles`: sums over objects are sums over cells.
2. `store_balanced`, `replace_balanced`, `remeasure_balanced`, `collect_bytes`: every write keeps
   the balance.
3. `HeapOp.moves`: everything that can be asked of a heap is done by elementary changes.
4. `Balanced.books`: what the balance means.
-/

namespace ScriptMachine

/-! ## 1. Sums over the objects of a heap -/

namespace Heap

/-- The size of the object behind a handle when it was last measured. -/
def sizeAt (heap : Heap) (h : Handle) : Nat :=
  match heap.entry? h with
  | some e => e.size
  | none => 0

/-- The size of the object behind a handle as it is. -/
def footprintAt (heap : Heap) (h : Handle) : Nat :=
  match heap.get? h with
  | some o => o.footprint
  | none => 0

end Heap

theorem totalSize_eq_sum (cells : Array Cell) :
    totalSize cells = (cells.toList.map Cell.size).sum := by
  rw [totalSize, List.sum_eq_foldr, List.foldr_map]

theorem sweptBytes_eq_sum (cells : Array Cell) :
    sweptBytes cells =
      (cells.toList.map fun c => if c.isUnmarked then c.size else 0).sum := by
  rw [sweptBytes, List.sum_eq_foldr, List.foldr_map]

theorem sum_map_filter_filterMap {α β : Type} (l : List α) (F : α → Option β) (p : β → Bool)
    (f : β → Nat) :
    (((l.filterMap F).filter p).map f).sum =
      (l.map fun x => ((F x).map fun b => if p b then f b else 0).getD 0).sum := by
  induction l with
  | nil => rfl
  | cons x l ih =>
    rw [List.map_cons, List.sum_cons, ← ih, List.filterMap_cons]
    cases F x with
    | none => simp
    | some b => cases hp : p b <;> simp [hp]

theorem sum_map_sub {α : Type} (l : List α) (f g : α → Nat) :
    (l.map fun x => (f x : Int) - g x).sum = ((l.map f).sum : Int) - (l.map g).sum := by
  induction l with
  | nil => rfl
  | cons x l ih =>
    simp only [List.map_cons, List.sum_cons, ih]
    omega

/-- A sum over some of the objects of a heap is a sum over cells, of this heap or of another that
has as many: each object adds what its cell does, and vacant cells add nothing. -/
theorem Heap.sum_liveHandles {heap : Heap} {cells : Array Cell}
    (hsize : cells.size = heap.cells.size) {p : Handle → Bool} {f : Handle → Nat} {g : Cell → Nat}
    (hcell : ∀ (i : Nat) (c d : Cell), heap.cells[i]? = some c → cells[i]? = some d →
      (if c.entry.isSome ∧ p ⟨i, c.generation⟩ then f ⟨i, c.generation⟩ else 0) = g d) :
    ((heap.liveHandles.filter p).map f).sum = (cells.toList.map g).sum := by
  unfold liveHandles
  rw [sum_map_filter_filterMap]
  congr 1
  apply List.ext_getElem?
  intro i
  rw [List.getElem?_map, List.getElem?_map, List.getElem?_zipIdx, Array.getElem?_toList,
    Array.getElem?_toList]
  by_cases hi : i < heap.cells.size
  · have hc := Array.getElem?_eq_getElem hi
    have hd := Array.getElem?_eq_getElem (hsize ▸ hi)
    have hsum := hcell i _ _ hc hd
    rw [hc, hd]
    simp only [Option.map_some, Nat.zero_add, Option.some.injEq]
    rw [← hsum]
    cases heap.cells[i].entry <;> simp
  · rw [Array.getElem?_eq_none (Nat.le_of_not_lt hi),
      Array.getElem?_eq_none (hsize ▸ Nat.le_of_not_lt hi)]
    rfl

theorem Heap.sizeAt_of_cell {heap : Heap} {i : Nat} {c : Cell} (hc : heap.cells[i]? = some c) :
    heap.sizeAt ⟨i, c.generation⟩ = c.size := by
  have he : heap.entry? ⟨i, c.generation⟩ = c.entry := by
    unfold entry?
    simp [hc]
  unfold sizeAt
  rw [he]
  obtain ⟨g, _ | e⟩ := c <;> rfl

theorem Heap.sum_sizeAt (heap : Heap) :
    (heap.liveHandles.map heap.sizeAt).sum = totalSize heap.cells := by
  have hall : heap.liveHandles = heap.liveHandles.filter fun _ => true := by simp
  rw [totalSize_eq_sum, hall]
  refine sum_liveHandles rfl fun i c d hc hd => ?_
  cases hc.symm.trans hd
  rw [sizeAt_of_cell hc]
  cases he : c.entry <;> simp [Cell.size, he]

/-! ## 2. Writes keep the balance -/

theorem totalSize_setIfInBounds {cells : Array Cell} {i : Nat} {old : Cell}
    (hi : cells[i]? = some old) (new : Cell) :
    totalSize (cells.setIfInBounds i new) + old.size = totalSize cells + new.size := by
  obtain ⟨hlt, hget⟩ := Array.getElem?_eq_some_iff.mp hi
  have hlt' : i < cells.toList.length := by simpa using hlt
  have hold : cells.toList = cells.toList.take i ++ old :: cells.toList.drop (i + 1) := by
    rw [← hget, ← Array.getElem_toList, List.getElem_cons_drop, List.take_append_drop]
  rw [totalSize_eq_sum, totalSize_eq_sum, Array.toList_setIfInBounds,
    List.set_eq_take_append_cons_drop, if_pos hlt']
  conv => rhs; rw [hold]
  simp only [List.map_append, List.map_cons, List.sum_append, List.sum_cons]
  omega

theorem totalSize_push (cells : Array Cell) (c : Cell) :
    totalSize (cells.push c) = totalSize cells + c.size := by
  simp [totalSize_eq_sum]

theorem totalSize_markFrom (cells : Array Cell) (gray : List Handle) :
    totalSize (markFrom cells gray) = totalSize cells := by
  have hsize : ∀ c : Cell, c.unmark.size = c.size := by
    intro c
    unfold Cell.unmark Cell.size
    cases c.entry <;> rfl
  rw [totalSize_eq_sum, totalSize_eq_sum]
  congr 1
  apply List.ext_getElem?
  intro i
  have hu := congrArg (Option.map Cell.size) (markFrom_unmark cells gray i)
  rw [Option.map_map, Option.map_map] at hu
  simpa [Function.comp_def, hsize] using hu

namespace Heap

variable {heap : Heap}

/-- The count is the sum of the measured sizes. -/
def Balanced (heap : Heap) : Prop :=
  heap.bytes = totalSize heap.cells

theorem empty_balanced (tuning : Tuning) : (empty tuning).Balanced := rfl

/-- What is measured is counted, so it can be taken off. -/
theorem Balanced.size_le (hb : heap.Balanced) {h : Handle} {e : Entry}
    (he : heap.entry? h = some e) : e.size ≤ heap.bytes := by
  have hsum := totalSize_setIfInBounds (entryAt?_eq_some_iff.mp he) ⟨h.generation, none⟩
  have hsize : (⟨h.generation, some e⟩ : Cell).size = e.size := rfl
  have hnone : (⟨h.generation, none⟩ : Cell).size = 0 := rfl
  rw [hb]
  omega

theorem store_balanced (ht : heap.Tidy) (hb : heap.Balanced) (o : Object) :
    (heap.store o).2.Balanced := by
  have hbytes : (heap.store o).2.bytes = heap.bytes + o.footprint := by
    unfold store
    dsimp only
    split <;> rfl
  unfold Balanced at hb ⊢
  rw [hbytes, hb]
  rcases store_cases ht o with ⟨i, g, free, -, hg, -, -, hc⟩ | ⟨-, -, -, hc⟩
  · rw [hc]
    exact (totalSize_setIfInBounds hg ⟨g, some ⟨o, o.footprint, false⟩⟩).symm
  · rw [hc, totalSize_push]
    rfl

theorem replace_balanced (hb : heap.Balanced) (h : Handle) (o : Object) :
    (heap.replace h o).Balanced := by
  cases he : heap.entry? h with
  | none =>
    rw [replace_of_dead (by simp [get?, he])]
    exact hb
  | some e =>
    -- The measure is out of date now, and the count stays with it.
    have hsum := totalSize_setIfInBounds (entryAt?_eq_some_iff.mp he)
      ⟨h.generation, some { e with object := o }⟩
    simp only [Cell.size] at hsum
    unfold Balanced at hb ⊢
    simp only [replace, he]
    omega

theorem remeasure_balanced (hb : heap.Balanced) (h : Handle) : (heap.remeasure h).Balanced := by
  cases he : heap.entry? h with
  | none =>
    rw [remeasure_of_dead he]
    exact hb
  | some e =>
    have hsum := totalSize_setIfInBounds (entryAt?_eq_some_iff.mp he)
      ⟨h.generation, some { e with size := e.object.footprint }⟩
    have hle := hb.size_le he
    simp only [Cell.size] at hsum
    unfold Balanced at hb ⊢
    simp only [remeasure, he]
    omega

theorem collect_bytes (hb : heap.Balanced) :
    heap.collect.2.bytes = totalSize heap.collect.2.cells := by
  show heap.bytes + totalSize ((markFrom heap.cells heap.anchors).map Cell.sweep) -
    totalSize (markFrom heap.cells heap.anchors) = _
  rw [totalSize_markFrom, ← hb, Nat.add_sub_cancel_left]
  rfl

theorem alloc_balanced (ht : heap.Tidy) (hb : heap.Balanced) (o : Object) :
    (heap.alloc o).2.Balanced := by
  obtain ⟨base, hbase, ha, rfl | rfl⟩ := exists_alloc_base ht o
  · rw [ha]
    exact store_balanced hbase hb o
  · rw [ha]
    refine store_balanced hbase ?_ o
    rw [collectKeeping_eq]
    exact collect_bytes hb

/-! ## 3. Elementary changes -/

/-- The elementary changes of a heap: everything that is done to a heap is done by these. Any
object may be written in the place of another. -/
inductive Move (heap : Heap) : Heap → Prop
  | alloc (o : Object) : Move heap (heap.alloc o).2
  | replace (h : Handle) (o : Object) : Move heap (heap.replace h o)
  | remeasure (h : Handle) : Move heap (heap.remeasure h)
  | anchor (roots pins : List Handle) : Move heap { heap with roots := roots, pins := pins }
  | collect : Move heap heap.collect.2

/-- Elementary changes one after the other. -/
abbrev Moves : Heap → Heap → Prop :=
  Relation.ReflTransGen Move

theorem Move.tidy {after : Heap} (hm : heap.Move after) (ht : heap.Tidy) : after.Tidy := by
  cases hm with
  | alloc o => exact alloc_tidy ht o
  | replace h o => exact replace_tidy ht h o
  | remeasure h => exact remeasure_tidy ht h
  | anchor roots pins => exact ht.of_cells rfl rfl
  | collect => exact collect_tidy ht

theorem Move.balanced {after : Heap} (hm : heap.Move after) (ht : heap.Tidy)
    (hb : heap.Balanced) : after.Balanced := by
  cases hm with
  | alloc o => exact alloc_balanced ht hb o
  | replace h o => exact replace_balanced hb h o
  | remeasure h => exact remeasure_balanced hb h
  | anchor roots pins => exact hb
  | collect => exact collect_bytes hb

theorem Moves.balanced {after : Heap} (hm : heap.Moves after) (ht : heap.Tidy)
    (hb : heap.Balanced) : after.Tidy ∧ after.Balanced := by
  induction hm with
  | refl => exact ⟨ht, hb⟩
  | tail _ hstep ih => exact ⟨hstep.tidy ih.1, hstep.balanced ih.1 ih.2⟩

end Heap

theorem Change.moves {given : List Handle} {target : Option Handle} {heap after : Heap}
    (hc : Change given target heap after) : heap.Moves after := by
  cases hc with
  | none => exact .refl
  | alloc o _ _ => exact .single (.alloc o)
  | write _ _ _ => exact .single (.replace _ _)
  | writeMeasured _ _ _ => exact (Relation.ReflTransGen.single (.replace _ _)).tail (.remeasure _)
  | anchor roots pins => exact .single (.anchor roots pins)
  | collect => exact .single .collect

theorem HeapOp.moves (op : HeapOp) (heap : Heap) : heap.Moves (op.after heap) := by
  rcases op.after_cases heap with ⟨a, -, hc⟩ | ⟨o, -, ha⟩ |
    ⟨h, o', -, ha | ⟨o, -, -, ha⟩⟩ | ⟨h, -, ha⟩
  · exact hc.moves
  · rw [ha]
    exact .single (.alloc o)
  · rw [ha]
  · rw [ha]
    exact .single (.replace h o')
  · rw [ha]
    exact .single (.remeasure h)

/-! ## 4. Collections -/

/-- The count in the course of a sweep, which goes from cell to cell: the old measure of the tenant
is taken off, and what remains of it is added. Nothing comes out if more would be taken off than
was counted. -/
def sweepTally : List Cell → Nat → Option Nat
  | [], bytes => some bytes
  | c :: cells, bytes =>
    if c.size ≤ bytes then sweepTally cells (bytes - c.size + c.sweep.size) else none

theorem sweepTally_eq_some {cells : List Cell} {bytes : Nat}
    (hle : (cells.map Cell.size).sum ≤ bytes) :
    sweepTally cells bytes =
      some (bytes - (cells.map Cell.size).sum + (cells.map fun c => c.sweep.size).sum) := by
  induction cells generalizing bytes with
  | nil => rfl
  | cons c cells ih =>
    simp only [List.map_cons, List.sum_cons] at hle ⊢
    rw [sweepTally, if_pos (by omega), ih (by omega)]
    congr 1
    omega

namespace Heap

variable {heap : Heap}

/-- What holds of the byte count of a heap, and of its next collection. -/
structure Books (heap : Heap) : Prop where
  /-- The count is the sum of the measured sizes of the objects. -/
  balance : heap.bytes = (heap.liveHandles.map heap.sizeAt).sum
  /-- To measure an object anew, its old measure can be taken off. -/
  remeasure : ∀ h e, heap.entry? h = some e → e.size ≤ heap.bytes
  /-- So can the measures that a sweep takes off on its way, and this is the count it leaves. -/
  sweep : sweepTally (markFrom heap.cells heap.anchors).toList heap.bytes =
    some heap.collect.2.bytes
  /-- A collection tells the measured sizes of the objects that go. -/
  freed : heap.collect.1 =
    ((heap.liveHandles.filter fun h => !heap.collect.2.isLive h).map heap.sizeAt).sum
  /-- It leaves the sizes of the objects that stay, as they are. -/
  left : heap.collect.2.bytes =
    (heap.collect.2.liveHandles.map heap.collect.2.footprintAt).sum
  /-- The count before, less what went, and with the measures brought up to date. -/
  change : (heap.collect.2.bytes : Int) = heap.bytes - heap.collect.1 +
    ((heap.liveHandles.filter fun h => heap.collect.2.isLive h).map
      fun h => (heap.footprintAt h : Int) - heap.sizeAt h).sum

theorem size_markFrom (heap : Heap) :
    (markFrom heap.cells heap.anchors).size = heap.cells.size := by
  have hsize := collect_size heap
  rwa [collect_cells, Array.size_map] at hsize

theorem footprintAt_of_cell {i : Nat} {g : UInt32} {e : Entry}
    (hc : heap.cells[i]? = some ⟨g, some e⟩) :
    heap.footprintAt ⟨i, g⟩ = e.object.footprint := by
  have hg : heap.get? ⟨i, g⟩ = some e.object :=
    get?_eq_some_iff.mpr ⟨e, entryAt?_eq_some_iff.mpr hc, rfl⟩
  simp [footprintAt, hg]

/-- The objects that a collection frees are those in whose cells the sweep finds no mark. -/
theorem sum_freed (ht : heap.Tidy) :
    ((heap.liveHandles.filter fun h => !heap.collect.2.isLive h).map heap.sizeAt).sum =
      sweptBytes (markFrom heap.cells heap.anchors) := by
  rw [sweptBytes_eq_sum]
  refine sum_liveHandles heap.size_markFrom fun i c d hc hd => ?_
  obtain ⟨g, _ | e⟩ := c
  · cases (markFrom_cell_empty hc).symm.trans hd
    rfl
  · obtain ⟨m, hm, hiff⟩ := markFrom_cell ht heap.anchors hc
    cases hm.symm.trans hd
    have hlive : heap.collect.2.isLive ⟨i, g⟩ = m := by
      rw [Bool.eq_iff_iff, isLive_collect ht, hiff]
    rw [sizeAt_of_cell hc, hlive]
    cases m <;> rfl

/-- What a collection leaves, added up over the heap before it. -/
theorem sum_kept (ht : heap.Tidy) :
    ((heap.liveHandles.filter fun h => heap.collect.2.isLive h).map heap.footprintAt).sum =
      totalSize heap.collect.2.cells := by
  rw [totalSize_eq_sum]
  refine sum_liveHandles (collect_size heap) fun i c d hc hd => ?_
  obtain ⟨g, _ | e⟩ := c
  · cases (collect_cell_empty hc).symm.trans hd
    rfl
  · by_cases hr : heap.Reaches heap.anchors ⟨i, g⟩
    · cases (collect_cell_kept ht hc hr).symm.trans hd
      simp [(isLive_collect ht).mpr hr, footprintAt_of_cell hc, Cell.size]
    · cases (collect_cell_freed ht hc hr).symm.trans hd
      have hdead : heap.collect.2.isLive ⟨i, g⟩ = false := by
        simpa using mt (isLive_collect ht).mp hr
      simp [hdead, Cell.size]

/-- After a collection every object is as large as it was measured. -/
theorem sum_footprintAt_collect (heap : Heap) :
    (heap.collect.2.liveHandles.map heap.collect.2.footprintAt).sum =
      totalSize heap.collect.2.cells := by
  have hall : heap.collect.2.liveHandles = heap.collect.2.liveHandles.filter fun _ => true := by
    simp
  rw [totalSize_eq_sum, hall]
  refine sum_liveHandles rfl fun i c d hc hd => ?_
  cases hc.symm.trans hd
  obtain ⟨g, _ | e⟩ := c
  · rfl
  · have hfresh : e.size = e.object.footprint := by
      rw [collect_cells, Array.getElem?_map] at hc
      obtain ⟨⟨g', _ | e'⟩, -, hs⟩ := Option.map_eq_some_iff.mp hc
      · cases hs
      · cases hm : e'.marked <;> simp [Cell.sweep, hm] at hs
        rw [← hs.2]
    simp [footprintAt_of_cell hc, Cell.size, hfresh]

/-- What the balance of a tidy heap means. -/
theorem Balanced.books (ht : heap.Tidy) (hb : heap.Balanced) : heap.Books := by
  have hfreed : heap.collect.1 = sweptBytes (markFrom heap.cells heap.anchors) := rfl
  have hleft := collect_bytes hb
  refine ⟨hb.trans heap.sum_sizeAt.symm, fun h e he => hb.size_le he, ?_,
    hfreed.trans (sum_freed ht).symm, hleft.trans heap.sum_footprintAt_collect.symm, ?_⟩
  · have htotal : heap.bytes = ((markFrom heap.cells heap.anchors).toList.map Cell.size).sum := by
      rw [← totalSize_eq_sum, totalSize_markFrom]
      exact hb
    rw [sweepTally_eq_some (Nat.le_of_eq htotal.symm), hleft, htotal, Nat.sub_self, Nat.zero_add,
      totalSize_eq_sum, collect_cells, Array.toList_map, List.map_map]
    rfl
  · -- The objects before are those that go and those that stay.
    have hsplit : (heap.liveHandles.map heap.sizeAt).sum =
        ((heap.liveHandles.filter fun h => heap.collect.2.isLive h).map heap.sizeAt).sum +
          ((heap.liveHandles.filter fun h => !heap.collect.2.isLive h).map heap.sizeAt).sum := by
      rw [← List.sum_append, ← List.map_append]
      exact ((List.filter_append_perm _ _).map heap.sizeAt).symm.sum_eq
    have hbefore : heap.bytes = (heap.liveHandles.map heap.sizeAt).sum :=
      hb.trans heap.sum_sizeAt.symm
    rw [sum_freed ht, ← hfreed, ← hbefore] at hsplit
    rw [sum_map_sub, sum_kept ht, ← hleft]
    omega

end Heap

end ScriptMachine
