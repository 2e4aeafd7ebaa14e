import ScriptMachine.Proofs.Heap.Survival

/-!
# What an allocation promises

An allocation may collect first, and the object it makes room for is not on the heap yet when that
collection runs. So what the object holds is pinned for as long as the collection takes, and after
it the pins are the old ones again. An object that goes leaves its cell to a later generation, so
the new object may move into that cell and still no handle comes to mean another object.

Main definitions:
- `Heap.AllocatedTo`: what an allocation that keeps its promises makes of a heap.

Results:
1. `Heap.isLive_alloc_of_collection`: a collection leaves nothing that is out of reach.
2. `Reachable.allocatedTo`: every allocation keeps its promises.
-/

namespace ScriptMachine

/-- `heap.AllocatedTo o h after`: with `o` allocated under the handle `h`, `heap` has become
`after`. -/
structure Heap.AllocatedTo (heap : Heap) (o : Object) (h : Handle) (after : Heap) : Prop where
  /-- The handle named nothing before. -/
  fresh : heap.isLive h = false
  object : after.get? h = some o
  roots : after.roots = heap.roots
  pins : after.pins = heap.pins
  /-- What is reached from the roots, from the pins or from the new object is there as it was. -/
  kept : ∀ k, heap.Reaches (heap.roots ++ heap.pins ++ o.children) k →
    after.isLive k = true ∧ after.get? k = heap.get? k
  /-- If no collection ran, so is all the rest. -/
  undisturbed : after.collections = heap.collections → ∀ k, heap.isLive k = true →
    after.isLive k = true ∧ after.get? k = heap.get? k
  /-- If one ran, all the rest is gone. -/
  collected : after.collections ≠ heap.collections → ∀ k, heap.isLive k = true →
    ¬ heap.Reaches (heap.roots ++ heap.pins ++ o.children) k → after.isLive k = false
  /-- A collection runs when it is due, and only then. -/
  due : after.collections = heap.collections +
    if heap.tuning.stress = true ∨ heap.threshold < heap.bytes + o.footprint then 1 else 0

namespace Heap

variable {heap : Heap}

theorem needsCollection_iff (heap : Heap) (size : Nat) : heap.needsCollection size = true ↔
    heap.tuning.stress = true ∨ heap.threshold < heap.bytes + size := by
  simp [needsCollection]

/-- An allocation that collects keeps nothing else. -/
theorem isLive_alloc_of_collection (ht : heap.Tidy) (o : Object)
    (hn : heap.needsCollection o.footprint = true) {k : Handle} (hk : heap.isLive k = true)
    (hr : ¬ heap.Reaches (heap.roots ++ heap.pins ++ o.children) k) :
    (heap.alloc o).2.isLive k = false := by
  rw [← Bool.not_eq_true, isLive_iff]
  rintro ⟨p, hp⟩
  have hne : k ≠ (heap.alloc o).1 := by
    rintro rfl
    obtain ⟨q, hq⟩ := isLive_iff.mp hk
    rw [get?_alloc_self ht o] at hq
    cases hq
  rcases alloc_cases heap o with ⟨hn', -⟩ | ⟨-, ha⟩
  · rw [hn'] at hn
    cases hn
  · rw [ha] at hp hne
    rw [(get?_store (collectKeeping_tidy ht _) o k).2, if_neg hne] at hp
    refine hr (((get?_collectKeeping ht).mp hp).2.mono fun j hj => ?_)
    simp only [List.mem_append] at hj ⊢
    rcases hj with hroot | hchild | hpin
    · exact .inl (.inl hroot)
    · exact .inr hchild
    · exact .inl (.inr hpin)

/-- An allocation that does not collect keeps everything. -/
theorem get?_alloc_of_no_collection (ht : heap.Tidy) (o : Object)
    (hn : heap.needsCollection o.footprint = false) {k : Handle} (hk : heap.isLive k = true) :
    (heap.alloc o).2.get? k = heap.get? k := by
  obtain ⟨p, hp⟩ := isLive_iff.mp hk
  rcases alloc_cases heap o with ⟨-, ha⟩ | ⟨hn', -⟩
  · rw [ha, hp]
    exact get?_store_of_some ht o hp
  · rw [hn] at hn'
    cases hn'

/-- The count of collections tells whether one ran. -/
theorem alloc_collections_eq_iff (heap : Heap) (o : Object) :
    (heap.alloc o).2.collections = heap.collections ↔
      heap.needsCollection o.footprint = false := by
  rw [alloc_collections]
  cases heap.needsCollection o.footprint <;> simp

theorem alloc_allocatedTo (ht : heap.Tidy) (o : Object) :
    heap.AllocatedTo o (heap.alloc o).1 (heap.alloc o).2 where
  fresh := by rw [isLive, get?_alloc_self ht o, Option.isSome_none]
  object := get?_alloc_new ht o
  roots := alloc_roots heap o
  pins := alloc_pins heap o
  kept k hr := by
    have hsame := get?_alloc_of_reached ht o hr
    exact ⟨by rw [isLive, hsame]; exact hr.isLive, hsame⟩
  undisturbed hc k hk := by
    have hsame := get?_alloc_of_no_collection ht o ((alloc_collections_eq_iff heap o).mp hc) hk
    exact ⟨by rw [isLive, hsame]; exact hk, hsame⟩
  collected hc k hk hr := by
    rw [Ne, alloc_collections_eq_iff, Bool.not_eq_false] at hc
    exact isLive_alloc_of_collection ht o hc hk hr
  due := by
    rw [alloc_collections]
    simp only [needsCollection_iff]

end Heap

/-- Every allocation of any object keeps its promises, on every heap that any run of any operations
leads to. What the object holds, and what is found on the heap, may include handles whose objects
are gone. -/
theorem Reachable.allocatedTo {tuning : Tuning} {heap : Heap}
    (hr : Reachable (fun _ _ => True) tuning heap) (o : Object) :
    heap.AllocatedTo o (heap.alloc o).1 (heap.alloc o).2 :=
  Heap.alloc_allocatedTo hr.tidy o

/-- Of two strings one is put on a list when there is no room for it. That one stays, and the other
goes. -/
theorem Reachable.allocatedTo_of_room :
    let tuning : Tuning := ⟨162, 162, 0, false⟩
    let heap := (HeapOp.act (.newString [98])).after
      ((HeapOp.act (.newString [97])).after (.empty tuning))
    let list : Object := .list (.ofList [.object ⟨0, 0⟩])
    let after := (heap.alloc list).2
    Reachable (fun _ _ => True) tuning heap ∧ heap.AllocatedTo list (heap.alloc list).1 after ∧
      heap.isLive ⟨1, 0⟩ = true ∧ after.collections = 1 ∧
      after.get? ⟨0, 0⟩ = some (.string (.ofBytes [97])) ∧ after.isLive ⟨1, 0⟩ = false := by
  intro tuning heap list after
  have hr : Reachable (fun _ _ => True) tuning heap := .step (.step .start trivial) trivial
  have hanchors : heap.roots ++ heap.pins ++ list.children = [⟨0, 0⟩] := rfl
  have hfirst : heap.get? ⟨0, 0⟩ = some (.string (.ofBytes [97])) := rfl
  have hsecond : heap.isLive ⟨1, 0⟩ = true := rfl
  obtain ⟨-, -, -, -, hkept, -, hcollected, hdue⟩ := hr.allocatedTo list
  have hcount : after.collections = 1 := hdue
  rw [hanchors] at hkept hcollected
  -- A string holds nothing, so the list reaches no other object.
  have honly : ∀ k, heap.Reaches [⟨0, 0⟩] k → k = ⟨0, 0⟩ := by
    intro k hk
    induction hk with
    | start hm _ => exact List.mem_singleton.mp hm
    | child _ ho hc _ ih =>
      rw [ih, hfirst] at ho
      cases ho
      cases hc
  have hgone : ¬ heap.Reaches [⟨0, 0⟩] ⟨1, 0⟩ := fun hk => by cases honly _ hk
  have hchanged : after.collections ≠ heap.collections := by
    rw [hcount]
    decide
  exact ⟨hr, hr.allocatedTo list, hsecond, hcount,
    (hkept _ (.start List.mem_cons_self (Heap.isLive_iff.mpr ⟨_, hfirst⟩))).2.trans hfirst,
    hcollected hchanged _ hsecond hgone⟩

end ScriptMachine
