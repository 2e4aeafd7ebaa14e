import ScriptMachine.Proofs.Heap.Change

/-!
# Collections are exact

A collection takes away what the roots and pins do not reach, and nothing else. The heap may hold
any graph of objects, with handles in it whose objects have been gone for long: every heap that a
run leads to is collected exactly, whatever the run did.

Main definitions:
- `Heap.CollectedTo`: what a collection that is exact makes of a heap.

Results:
1. `Reachable.collectedTo`: every collection is exact.
-/

namespace ScriptMachine

/-- The cell at `i` is vacated by a collection: its object is not reached. -/
def Heap.Vacates (heap : Heap) (i : Nat) : Prop :=
  ∃ g e, heap.cells[i]? = some ⟨g, some e⟩ ∧ ¬ heap.Reaches heap.anchors ⟨i, g⟩

/-- `heap.CollectedTo after`: the marking loop comes to an end on `heap`, and `after` is `heap`
without the objects that the roots and pins do not reach. -/
structure Heap.CollectedTo (heap after : Heap) : Prop where
  /-- After finitely many turns nothing is left to visit, and this is what gets swept. -/
  ends : ∃ n, markTurn^[n] (heap.cells, heap.anchors) = (markFrom heap.cells heap.anchors, [])
  /-- Exactly the objects that are reached stay. -/
  live : ∀ h, after.isLive h = true ↔ heap.isLive h = true ∧ heap.Reaches heap.anchors h
  /-- What stays is not changed. -/
  content : ∀ h, after.isLive h = true → after.get? h = heap.get? h
  /-- A cell that is vacated waits for its next tenant. -/
  vacated : ∀ (i : Nat) (g : UInt32) (e : Entry),
    heap.cells[i]? = some ⟨g, some e⟩ → ¬ heap.Reaches heap.anchors ⟨i, g⟩ →
    after.cells[i]? = some ⟨g + 1, none⟩ ∧ i ∈ after.free
  /-- A cell that was vacant stays as it was. -/
  vacant : ∀ (i : Nat) (g : UInt32), heap.cells[i]? = some ⟨g, none⟩ →
    after.cells[i]? = some ⟨g, none⟩
  /-- The vacated cells come before the vacant ones, each of them once. -/
  free : ∃ freed, after.free = freed ++ heap.free ∧ freed.Nodup ∧
    ∀ i, i ∈ freed ↔ heap.Vacates i
  size : after.cells.size = heap.cells.size
  roots : after.roots = heap.roots
  pins : after.pins = heap.pins
  unmarked : ∀ (i : Nat) (g : UInt32) (e : Entry), after.cells[i]? = some ⟨g, some e⟩ →
    e.marked = false

namespace Heap

/-- Tidiness is all that exactness needs: no object is marked when the marking begins. -/
theorem collect_collectedTo {heap : Heap} (ht : heap.Tidy) :
    heap.CollectedTo heap.collect.2 where
  ends := markFrom_turns heap.cells heap.anchors
  live := by
    intro h
    rw [isLive_collect ht]
    exact ⟨fun hr => ⟨hr.isLive, hr⟩, fun hr => hr.2⟩
  content := by
    intro h hl
    obtain ⟨o, ho⟩ := isLive_iff.mp hl
    rw [ho, (get?_collect ht).mp ho |>.1]
  vacated := by
    intro i g e hc hr
    refine ⟨collect_cell_freed ht hc hr, ?_⟩
    rw [collect_free_eq, List.mem_append, List.mem_reverse]
    exact .inl ((mem_sweptIndices_markFrom ht).mpr ⟨g, e, hc, hr⟩)
  vacant := fun i g hc => collect_cell_empty hc
  free := by
    refine ⟨_, collect_free_eq heap, List.nodup_reverse.mpr (sweptIndices_nodup _), fun i => ?_⟩
    rw [List.mem_reverse]
    exact mem_sweptIndices_markFrom ht
  size := collect_size heap
  roots := rfl
  pins := rfl
  unmarked := (collect_tidy ht).unmarked

end Heap

/-- Every collection is exact, on every heap that any run of any operations leads to. The run may
hand out handles whose objects are gone, and leave them among the roots, the pins and the fields
of objects. -/
theorem Reachable.collectedTo {tuning : Tuning} {heap : Heap}
    (hr : Reachable (fun _ _ => True) tuning heap) : heap.CollectedTo heap.collect.2 :=
  Heap.collect_collectedTo hr.tidy

/-- A list inside itself that nothing refers to goes, one that is rooted and holds a handle of no
object stays. -/
theorem Reachable.collectedTo_of_cycle :
    let cycle : HeapOp := .act (.listPush (.object ⟨0, 0⟩) (.object ⟨0, 0⟩))
    let stale : HeapOp := .act (.newList [.object ⟨7, 3⟩])
    let root : HeapOp := .act (.addRoot (.object ⟨1, 0⟩))
    let heap := root.after (stale.after (cycle.after
      ((HeapOp.act (.newList [])).after (.empty .standard))))
    Reachable (fun _ _ => True) .standard heap ∧
      heap.get? ⟨0, 0⟩ = some (.list ⟨#[.object ⟨0, 0⟩], 4, by decide⟩) ∧
      heap.get? ⟨1, 0⟩ = some (.list ⟨#[.object ⟨7, 3⟩], 1, by decide⟩) ∧
      heap.roots = [⟨1, 0⟩] ∧ heap.CollectedTo heap.collect.2 := by
  intro cycle stale root heap
  have hr : Reachable (fun _ _ => True) .standard heap :=
    .step (.step (.step (.step .start trivial) trivial) trivial) trivial
  exact ⟨hr, rfl, rfl, rfl, hr.collectedTo⟩

end ScriptMachine
