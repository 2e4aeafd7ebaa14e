import ScriptMachine.Proofs.Machine.Accounting

/-!
# The upkeep of the arena

The free list says which cells are vacant, and it is all that an allocation looks at. If it named a
cell twice, two objects would live in one cell; if it left one out, the cell would never be used
again. Neither happens in any run. Cells are vacated by collections only, and a collection does its
work in one go: made once more right away, it finds nothing to do.

Main definitions:
- `Heap.cleared`: the heap in which an allocation looks for a cell.
- `Heap.InOrder`: what holds of an arena between operations.
- `Heap.Clean`: a heap with nothing to collect and nothing to measure.

Results:
1. `liveCount_add_length_free`: every cell is occupied or on the free list.
2. `alloc_extends`, `arena_of_comesAbout`: the arena grows when no cell is vacant.
3. `collect_clean`, `Clean.collect_eq`: a collection leaves a clean heap, and a clean heap as it is.
4. `ComesAbout.collect_collect`: a collection right after another.
-/

namespace ScriptMachine

namespace Heap

variable {heap : Heap}

/-! ## 1. Vacant cells -/

/-- The free list is a list of the vacant cells, in some order. -/
theorem Tidy.free_perm (ht : heap.Tidy) :
    heap.free.Perm (heap.cells.toList.findIdxs fun c => decide ¬c.entry.isSome = true) := by
  refine (List.perm_ext_iff_of_nodup ht.nodup List.nodup_findIdxs).mpr fun i => ?_
  rw [ht.mem_free, List.mem_findIdxs_iff_exists_getElem_pos]
  constructor
  · rintro ⟨g, hc⟩
    obtain ⟨hi, hget⟩ := Array.getElem?_eq_some_iff.mp hc
    exact ⟨hi, by simp [hget]⟩
  · rintro ⟨hi, hnone⟩
    rw [Array.getElem_toList] at hnone
    refine ⟨heap.cells[i].generation, Array.getElem?_eq_some_iff.mpr ⟨hi, ?_⟩⟩
    cases hc : heap.cells[i] with
    | mk g entry =>
      rw [hc] at hnone
      cases entry with
      | none => rfl
      | some e => simp at hnone

/-- Every cell is occupied or on the free list. -/
theorem liveCount_add_length_free (ht : heap.Tidy) :
    heap.liveCount + heap.free.length = heap.cells.size := by
  rw [ht.free_perm.length_eq, List.length_findIdxs, liveCount, ← Array.countP_toList,
    ← List.length_eq_countP_add_countP, Array.length_toList]

/-! ## 2. New cells -/

/-- The heap in which an allocation looks for a cell: a collection that was due has been made. -/
def cleared (heap : Heap) (o : Object) : Heap :=
  if heap.needsCollection o.footprint then heap.collectKeeping o.children else heap

theorem alloc_eq_store (heap : Heap) (o : Object) : heap.alloc o = (heap.cleared o).store o := by
  unfold alloc cleared
  split <;> rfl

theorem cleared_tidy (ht : heap.Tidy) (o : Object) : (heap.cleared o).Tidy := by
  unfold cleared
  split
  · exact collectKeeping_tidy ht _
  · exact ht

theorem cleared_size (heap : Heap) (o : Object) :
    (heap.cleared o).cells.size = heap.cells.size := by
  unfold cleared
  split
  · exact collectKeeping_size heap _
  · rfl

/-- A vacant cell stays vacant until it is used, behind those that are vacated later. -/
theorem free_suffix_cleared (heap : Heap) (o : Object) : heap.free <:+ (heap.cleared o).free := by
  unfold cleared
  split
  · rw [collectKeeping_eq]
    exact ⟨_, (collect_free_eq (heap.keeping o.children)).symm⟩
  · exact List.suffix_rfl

/-- The first vacant cell is used if there is one. -/
theorem alloc_reuses (ht : heap.Tidy) {o : Object} {i : Nat} {free : List Nat}
    (hfree : (heap.cleared o).free = i :: free) :
    (heap.alloc o).1.index = i ∧ (heap.alloc o).2.free = free ∧
      (heap.alloc o).2.cells.size = heap.cells.size := by
  rw [alloc_eq_store, ← cleared_size heap o]
  obtain ⟨j, g, rest, hj, -, hhandle, hrest, hcells⟩ | ⟨hnil, -⟩ :=
    store_cases (cleared_tidy ht o) o
  · cases hfree.symm.trans hj
    rw [hhandle, hrest, hcells, Array.size_setIfInBounds]
    exact ⟨rfl, rfl, rfl⟩
  · cases hfree.symm.trans hnil

/-- One cell is added if there is none. -/
theorem alloc_extends (ht : heap.Tidy) {o : Object} (hfree : (heap.cleared o).free = []) :
    (heap.alloc o).1 = ⟨heap.cells.size, 0⟩ ∧ (heap.alloc o).2.free = [] ∧
      (heap.alloc o).2.cells.size = heap.cells.size + 1 := by
  rw [alloc_eq_store, ← cleared_size heap o]
  obtain ⟨j, g, rest, hj, -⟩ | ⟨-, hhandle, hrest, hcells⟩ := store_cases (cleared_tidy ht o) o
  · cases hfree.symm.trans hj
  · rw [hhandle, hrest, hcells, Array.size_push]
    exact ⟨rfl, rfl, rfl⟩

/-- What holds of an arena between operations. The free list holds the vacant cells, each of them
once, and no object is marked. -/
structure InOrder (heap : Heap) : Prop extends heap.Tidy where
  enough : heap.free.length ≤ heap.cells.size
  /-- All other cells have an object. -/
  count : heap.liveCount = heap.cells.size - heap.free.length
  /-- The arena grows by one cell if an allocation finds none that is vacant, and not otherwise. -/
  grows : ∀ o, (heap.alloc o).2.cells.size =
    heap.cells.size + if (heap.cleared o).free = [] then 1 else 0
  /-- The allocation has looked at all cells that were vacant before. -/
  looked : ∀ o, heap.free <:+ (heap.cleared o).free
  /-- A vacant cell that is used is taken off the list. -/
  reuses : ∀ o i free, (heap.cleared o).free = i :: free →
    (heap.alloc o).1.index = i ∧ (heap.alloc o).2.free = free

theorem Tidy.inOrder (ht : heap.Tidy) : heap.InOrder where
  toTidy := ht
  enough := liveCount_add_length_free ht ▸ Nat.le_add_left _ _
  count := Nat.eq_sub_of_add_eq (liveCount_add_length_free ht)
  grows := by
    intro o
    cases hfree : (heap.cleared o).free with
    | nil => exact (alloc_extends ht hfree).2.2
    | cons i free => exact (alloc_reuses ht hfree).2.2
  looked := free_suffix_cleared heap
  reuses := by
    intro o i free hfree
    obtain ⟨hindex, hrest, -⟩ := alloc_reuses ht hfree
    exact ⟨hindex, hrest⟩

/-- In every heap that any run leads to, the free list holds the vacant cells and nothing else, the
objects are as many as the other cells, and the arena grows only when no cell is vacant. -/
theorem arena_of_comesAbout (h : heap.ComesAbout) : heap.InOrder :=
  h.balanced.1.inOrder

/-- Two lists are made and collected. The next list moves into the cell that was vacated last, and
the one after it into the other. -/
theorem arena_of_comesAbout_vacated :
    let list : HeapOp := .act (.newList [])
    let filled := list.after (list.after (.empty .standard))
    let heap := list.after ((HeapOp.act .collect).after filled)
    heap.ComesAbout ∧ heap.get? ⟨1, 1⟩ = some (.list .empty) ∧ heap.free = [0] ∧
      heap.liveCount = 1 ∧ (heap.alloc (.list .empty)).1.index = 0 ∧ heap.InOrder := by
  intro list filled heap
  have hheap : heap.ComesAbout :=
    .operation _ (.operation _ (.operation _ (.operation _ (.start .standard))))
  -- There are no roots and no pins, so nothing is marked.
  have hmark : markFrom filled.cells filled.anchors = filled.cells := by
    rw [show filled.anchors = [] from rfl, markFrom]
  have hvacated : (HeapOp.act .collect).after filled =
      ⟨#[⟨1, none⟩, ⟨1, none⟩], [1, 0], 0, 1048576, .standard, [], [], 1⟩ := by
    show filled.collect.2 = _
    unfold Heap.collect
    rw [hmark]
    decide +kernel
  have hlast := congrArg list.after hvacated
  have horder := arena_of_comesAbout hheap
  have hfree : (heap.cleared (.list .empty)).free = [0] := by
    rw [show heap = _ from hlast]
    decide +kernel
  refine ⟨hheap, ?_, ?_, ?_, (horder.reuses _ _ _ hfree).1, horder⟩
  all_goals
    rw [show heap = _ from hlast]
    decide +kernel

/-! ## 3. Clean heaps -/

/-- There is nothing to collect and nothing to measure: every object is reached, and has the size it
was last found to have. -/
structure Clean (heap : Heap) : Prop extends heap.Tidy where
  reached : ∀ (i : Nat) (g : UInt32) (e : Entry), heap.cells[i]? = some ⟨g, some e⟩ →
    heap.Reaches heap.anchors ⟨i, g⟩
  measured : ∀ (i : Nat) (g : UInt32) (e : Entry), heap.cells[i]? = some ⟨g, some e⟩ →
    e.size = e.object.footprint

/-- What was reached before a collection is reached after it, by the same way. -/
theorem Reaches.collect (ht : heap.Tidy) {h : Handle} (hr : heap.Reaches heap.anchors h) :
    heap.collect.2.Reaches heap.collect.2.anchors h := by
  induction hr with
  | start hmem hl => exact .start hmem ((isLive_collect ht).mpr (.start hmem hl))
  | child hr ho hk hl ih =>
    exact .child ih ((get?_collect ht).mpr ⟨ho, hr⟩) hk
      ((isLive_collect ht).mpr (.child hr ho hk hl))

/-- An object that a collection leaves in its cell was reached there, and has been measured. -/
theorem collect_cell_occupied (ht : heap.Tidy) {i : Nat} {g : UInt32} {e : Entry}
    (hc : heap.collect.2.cells[i]? = some ⟨g, some e⟩) :
    heap.Reaches heap.anchors ⟨i, g⟩ ∧ e.size = e.object.footprint := by
  have hi : i < heap.cells.size := by
    rw [← collect_size]
    exact (Array.getElem?_eq_some_iff.mp hc).1
  obtain ⟨⟨g', _ | e'⟩, hold⟩ : ∃ c, heap.cells[i]? = some c := ⟨_, Array.getElem?_eq_getElem hi⟩
  · cases (collect_cell_empty hold).symm.trans hc
  · by_cases hr : heap.Reaches heap.anchors ⟨i, g'⟩
    · cases (collect_cell_kept ht hold hr).symm.trans hc
      exact ⟨hr, rfl⟩
    · cases (collect_cell_freed ht hold hr).symm.trans hc

theorem collect_clean (ht : heap.Tidy) : heap.collect.2.Clean where
  toTidy := collect_tidy ht
  reached := fun _ _ _ hc => (collect_cell_occupied ht hc).1.collect ht
  measured := fun _ _ _ hc => (collect_cell_occupied ht hc).2

/-- In a clean heap the marking marks everything. -/
theorem Clean.markFrom_eq (hc : heap.Clean) :
    markFrom heap.cells heap.anchors = heap.cells.map Cell.mark := by
  apply Array.ext_getElem?
  intro i
  rw [Array.getElem?_map]
  cases hcell : heap.cells[i]? with
  | none =>
    refine Array.getElem?_eq_none_iff.mpr ?_
    rw [size_markFrom]
    exact Array.getElem?_eq_none_iff.mp hcell
  | some c =>
    obtain ⟨g, _ | e⟩ := c
    · exact markFrom_cell_empty hcell
    · obtain ⟨m, hm, hiff⟩ := markFrom_cell hc.toTidy heap.anchors hcell
      rw [hm, hiff.mpr (hc.reached i g e hcell)]
      rfl

/-- The sweep takes the marks away again, and finds no object to take away or to measure. -/
theorem Clean.map_sweep (hc : heap.Clean) :
    (heap.cells.map Cell.mark).map Cell.sweep = heap.cells := by
  apply Array.ext_getElem?
  intro i
  rw [Array.getElem?_map, Array.getElem?_map]
  cases hcell : heap.cells[i]? with
  | none => rfl
  | some c =>
    obtain ⟨g, _ | ⟨o, size, marked⟩⟩ := c
    · rfl
    · have hsize : size = o.footprint := hc.measured i g _ hcell
      have hmarked : marked = false := hc.unmarked i g _ hcell
      subst hsize hmarked
      rfl

end Heap

/-- Where everything is marked, nothing is swept. -/
theorem sweptIndices_map_mark (cells : Array Cell) : sweptIndices (cells.map Cell.mark) = [] := by
  refine List.eq_nil_iff_forall_not_mem.mpr fun i hi => ?_
  obtain ⟨c, hc, hu⟩ := mem_sweptIndices.mp hi
  rw [Array.getElem?_map] at hc
  obtain ⟨d, -, rfl⟩ := Option.map_eq_some_iff.mp hc
  rw [Cell.isUnmarked_mark] at hu
  cases hu

theorem sweptBytes_map_mark (cells : Array Cell) : sweptBytes (cells.map Cell.mark) = 0 := by
  simp [sweptBytes_eq_sum, Function.comp_def, Cell.isUnmarked_mark]

namespace Heap

variable {heap : Heap}

/-- A collection of a clean heap frees nothing and leaves the heap as it is, but for the next
threshold and the number of collections. -/
theorem Clean.collect_eq (hc : heap.Clean) :
    heap.collect = (0, { heap with
      threshold := nextThreshold heap.tuning heap.bytes
      collections := heap.collections + 1 }) := by
  have htotal : totalSize (heap.cells.map Cell.mark) = totalSize heap.cells := by
    rw [← hc.markFrom_eq, totalSize_markFrom]
  simp only [collect, sweep, hc.markFrom_eq, hc.map_sweep, sweptIndices_map_mark,
    sweptBytes_map_mark, htotal, List.reverse_nil, List.nil_append, Nat.add_sub_cancel]

/-! ## 4. Collecting twice -/

/-- After a collection of any heap that a run leads to, another one frees nothing. It leaves all
cells with their objects, sizes and generations as they are, and all books, but that it is counted
itself. -/
theorem ComesAbout.collect_collect (h : heap.ComesAbout) :
    heap.collect.2.collect = (0, { heap.collect.2 with
      collections := heap.collect.2.collections + 1 }) := by
  have hclean := collect_clean h.balanced.1
  -- The threshold was set by the first collection, from the same number of bytes.
  have hthreshold : heap.collect.2.threshold =
      nextThreshold heap.collect.2.tuning heap.collect.2.bytes := rfl
  rw [hclean.collect_eq, ← hthreshold]

/-- A list inside itself goes, and a list that has grown since it was measured stays. -/
theorem ComesAbout.collect_collect_of_growth :
    let made := (HeapOp.act (.newList [])).after ((HeapOp.act (.newList [])).after
      (.empty .standard))
    let heap := (HeapOp.act (.listPush (.object ⟨1, 0⟩) .null)).after
      ((HeapOp.act (.addRoot (.object ⟨1, 0⟩))).after
        ((HeapOp.act (.listPush (.object ⟨0, 0⟩) (.object ⟨0, 0⟩))).after made))
    heap.ComesAbout ∧ heap.isLive ⟨0, 0⟩ = true ∧ heap.collect.2.isLive ⟨0, 0⟩ = false ∧
      heap.sizeAt ⟨1, 0⟩ = 80 ∧ heap.footprintAt ⟨1, 0⟩ = 144 ∧
      heap.collect.2.collect = (0, { heap.collect.2 with
        collections := heap.collect.2.collections + 1 }) := by
  intro made heap
  have hheap : heap.ComesAbout :=
    .operation _ (.operation _ (.operation _ (.operation _ (.operation _ (.start .standard)))))
  have hlist : heap.get? ⟨1, 0⟩ = some (.list ⟨#[.null], 4, by decide⟩) := rfl
  -- The root holds no other object.
  have honly : ∀ k, heap.Reaches heap.anchors k → k = ⟨1, 0⟩ := by
    intro k hk
    induction hk with
    | start hmem _ => exact List.mem_singleton.mp hmem
    | child _ ho hchild _ ih =>
      rw [ih, hlist] at ho
      cases ho
      cases hchild
  refine ⟨hheap, by decide +kernel, ?_, by decide +kernel, by decide +kernel,
    hheap.collect_collect⟩
  rw [Bool.eq_false_iff, ne_eq, isLive_collect hheap.balanced.1]
  intro hr
  cases honly _ hr

end Heap

end ScriptMachine
