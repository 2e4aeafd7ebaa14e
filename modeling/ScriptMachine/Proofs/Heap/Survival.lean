import ScriptMachine.Proofs.Heap.Change

/-!
# What survives an operation

An object that is there after an operation as well as before it is the same object, with the same
content unless the operation was meant to write it; no cell passes from one tenant to the next
under one handle. And an object that survives takes along what it holds.

Results:
1. `Heap.get?_alloc_self`: an allocation never gives out a handle in use, and
   `Heap.get?_alloc_of_reached`: it takes away nothing that is reached.
2. `Change.get?_of_isLive`, `HeapOp.get?_of_isLive`: survivors keep their content.
3. `Change.isLive_child`, `HeapOp.isLive_child`: what a survivor holds survives with it.
4. `HeapOp.isLive_of_anchored`: what a root or a pin names survives, and
   `HeapOp.isLive_of_reached`: so does all that is reached from there.
-/

namespace ScriptMachine

namespace Heap

variable {heap : Heap}

/-- The heap in which an allocation stores its object: the one it met, or what a collection made of
it. -/
theorem exists_alloc_base (ht : heap.Tidy) (o : Object) :
    ∃ base : Heap, base.Tidy ∧ heap.alloc o = base.store o ∧
      (base = heap ∨ base = heap.collectKeeping o.children) := by
  rcases alloc_cases heap o with ⟨-, ha⟩ | ⟨-, ha⟩
  · exact ⟨heap, ht, ha, .inl rfl⟩
  · exact ⟨_, collectKeeping_tidy ht _, ha, .inr rfl⟩

/-- A cell that an allocation finds empty after a collection had no tenant of its present
generation before. -/
theorem get?_of_collectKeeping_empty (ht : heap.Tidy) {handles : List Handle} {i : Nat}
    {g : UInt32} (hc : (heap.collectKeeping handles).cells[i]? = some ⟨g, none⟩) :
    heap.get? ⟨i, g⟩ = none := by
  have hk : (heap.keeping handles).Tidy := ht.of_cells rfl rfl
  have hc : (heap.keeping handles).collect.2.cells[i]? = some ⟨g, none⟩ := by
    rw [collectKeeping_eq] at hc
    exact hc
  cases hget : heap.get? ⟨i, g⟩ with
  | none => rfl
  | some o =>
    obtain ⟨e, he, -⟩ := get?_eq_some_iff.mp hget
    have hcell : (heap.keeping handles).cells[i]? = some ⟨g, some e⟩ := entryAt?_eq_some_iff.mp he
    -- If it was kept it would not be empty, and if it was freed it would wait for another tenant.
    by_cases hr : (heap.keeping handles).Reaches (heap.keeping handles).anchors ⟨i, g⟩
    · rw [collect_cell_kept hk hcell hr] at hc
      cases hc
    · rw [collect_cell_freed hk hcell hr] at hc
      have hg : g + 1 = g := congrArg Cell.generation (Option.some.inj hc)
      simp at hg

theorem collectKeeping_size (heap : Heap) (handles : List Handle) :
    (heap.collectKeeping handles).cells.size = heap.cells.size := by
  rw [collectKeeping_eq]
  exact collect_size (heap.keeping handles)

/-- The handle of a new object was not in use. -/
theorem get?_alloc_self (ht : heap.Tidy) (o : Object) : heap.get? (heap.alloc o).1 = none := by
  obtain ⟨base, hbase, ha, rfl | rfl⟩ := exists_alloc_base ht o
  · rw [ha]
    exact (get?_store hbase o (base.store o).1).1
  · rw [ha]
    rcases store_cases hbase o with ⟨i, g, free, -, hg, hh, -, -⟩ | ⟨-, hh, -, -⟩
    · rw [hh]
      exact get?_of_collectKeeping_empty ht hg
    · rw [hh, collectKeeping_size]
      unfold get? entry?
      rw [Array.getElem?_eq_none (Nat.le_refl _)]
      rfl

/-- A new object is behind its handle. -/
theorem get?_alloc_new (ht : heap.Tidy) (o : Object) :
    (heap.alloc o).2.get? (heap.alloc o).1 = some o := by
  obtain ⟨base, hbase, ha, -⟩ := exists_alloc_base ht o
  rw [ha, (get?_store hbase o _).2, if_pos rfl]

/-- An allocation keeps what is reached from the roots, the pins, and what the new object holds. -/
theorem get?_alloc_of_reached (ht : heap.Tidy) (x : Object) {h : Handle}
    (hr : heap.Reaches (heap.roots ++ heap.pins ++ x.children) h) :
    (heap.alloc x).2.get? h = heap.get? h := by
  obtain ⟨o, ho⟩ := isLive_iff.mp hr.isLive
  rw [ho]
  obtain ⟨base, hbase, ha, rfl | rfl⟩ := exists_alloc_base ht x
  · rw [ha]
    exact get?_store_of_some hbase x ho
  · rw [ha]
    refine get?_store_of_some hbase x ((get?_collectKeeping ht).mpr ⟨ho, hr.mono fun k hk => ?_⟩)
    simp only [List.mem_append] at hk ⊢
    rcases hk with (hroot | hpin) | hchild
    · exact .inl hroot
    · exact .inr (.inr hpin)
    · exact .inr (.inl hchild)

theorem get?_alloc_of_reaches (ht : heap.Tidy) (x : Object) {h : Handle} {o : Object}
    (hr : heap.Reaches (heap.roots ++ x.children) h) (ho : heap.get? h = some o) :
    (heap.alloc x).2.get? h = some o := by
  rw [get?_alloc_of_reached ht x (hr.mono (by simp)), ho]

/-- An allocation keeps what a root or a pin names. -/
theorem get?_alloc_of_anchored (ht : heap.Tidy) (x : Object) {h : Handle} {o : Object}
    (ha : h ∈ heap.anchors) (ho : heap.get? h = some o) : (heap.alloc x).2.get? h = some o := by
  have hr : heap.Reaches (heap.roots ++ heap.pins ++ x.children) h :=
    .start (List.mem_append_left _ ha) (isLive_iff.mpr ⟨o, ho⟩)
  rw [get?_alloc_of_reached ht x hr, ho]

/-- What survives an allocation. -/
theorem get?_alloc_of_isLive (ht : heap.Tidy) (x : Object) {h : Handle} {o : Object}
    (ho : heap.get? h = some o) (hl : (heap.alloc x).2.isLive h = true) :
    (heap.alloc x).2.get? h = some o ∧
      ∀ k ∈ o.children, heap.isLive k = true → (heap.alloc x).2.isLive k = true := by
  have hne : h ≠ (heap.alloc x).1 := by
    rintro rfl
    rw [get?_alloc_self ht x] at ho
    cases ho
  obtain ⟨base, hbase, ha, hcase⟩ := exists_alloc_base ht x
  obtain ⟨p, hp⟩ := isLive_iff.mp hl
  have hstay : ∀ k q, base.get? k = some q → (heap.alloc x).2.get? k = some q := by
    intro k q hq
    rw [ha]
    exact get?_store_of_some hbase x hq
  rw [ha] at hne
  rw [ha, (get?_store hbase x h).2, if_neg hne] at hp
  rcases hcase with rfl | rfl
  · refine ⟨hstay h o ho, fun k _ hk => ?_⟩
    obtain ⟨q, hq⟩ := isLive_iff.mp hk
    exact isLive_iff.mpr ⟨q, hstay k q hq⟩
  · obtain ⟨hop, hr⟩ := (get?_collectKeeping ht).mp hp
    rw [ho] at hop
    cases hop
    refine ⟨hstay h o hp, fun k hk hkl => ?_⟩
    obtain ⟨q, hq⟩ := isLive_iff.mp hkl
    exact isLive_iff.mpr ⟨q, hstay k q ((get?_collectKeeping ht).mpr ⟨hq, .child hr ho hk hkl⟩)⟩

/-- What is there after an allocation was there before, unless it is the new object. -/
theorem get?_of_alloc (ht : heap.Tidy) {x o : Object} {h : Handle}
    (ho : (heap.alloc x).2.get? h = some o) :
    h = (heap.alloc x).1 ∧ o = x ∨ heap.get? h = some o := by
  obtain ⟨base, hbase, ha, hcase⟩ := exists_alloc_base ht x
  rw [ha] at ho ⊢
  rw [(get?_store hbase x h).2] at ho
  split at ho
  · next heq =>
    cases ho
    exact .inl ⟨heq, rfl⟩
  · rcases hcase with rfl | rfl
    · exact .inr ho
    · exact .inr ((get?_collectKeeping ht).mp ho).1

end Heap

/-! ## Changes and operations -/

/-- An object that is there before and after a change keeps its content, unless it is the target;
a string keeps it in any case. -/
theorem Change.get?_of_isLive {given : List Handle} {target : Option Handle} {heap after : Heap}
    (hch : Change given target heap after) (ht : heap.Tidy) {h : Handle} {o : Object}
    (ho : heap.get? h = some o) (hkeep : target ≠ some h ∨ o.kind = .string)
    (hl : after.isLive h = true) : after.get? h = some o := by
  have hwrite : ∀ {k : Handle} {p p' : Object}, target = some k → heap.get? k = some p →
      Rewrite heap given p p' → (heap.replace k p').get? h = some o := by
    intro k p p' htarget hp hw
    have hne : h ≠ k := by
      rintro rfl
      rw [ho] at hp
      cases hp
      exact hkeep.elim (fun hne => hne htarget) hw.notString
    rw [Heap.get?_replace hp, if_neg hne, ho]
  cases hch with
  | none => exact ho
  | alloc x _ _ => exact (Heap.get?_alloc_of_isLive ht x ho hl).1
  | write htarget hp hw => exact hwrite htarget hp hw
  | writeMeasured htarget hp hw =>
    rw [Heap.get?_remeasure]
    exact hwrite htarget hp hw
  | anchor roots pins => exact ho
  | collect => exact (Heap.get?_collect ht).mpr ⟨ho, (Heap.isLive_collect ht).mp hl⟩

/-- What an object holds is there as long as the object is. -/
theorem Change.isLive_child {given : List Handle} {target : Option Handle} {heap after : Heap}
    (hch : Change given target heap after) (ht : heap.Tidy) {h k : Handle} {o : Object}
    (ho : heap.get? h = some o) (hl : after.isLive h = true) (hk : k ∈ o.children)
    (hkl : heap.isLive k = true) : after.isLive k = true := by
  cases hch with
  | none => exact hkl
  | alloc x _ _ => exact (Heap.get?_alloc_of_isLive ht x ho hl).2 k hk hkl
  | write _ _ _ =>
    rw [Heap.isLive_replace]
    exact hkl
  | writeMeasured _ _ _ =>
    unfold Heap.isLive
    rw [Heap.get?_remeasure]
    show (Heap.replace _ _ _).isLive k = true
    rw [Heap.isLive_replace]
    exact hkl
  | anchor roots pins => exact hkl
  | collect =>
    exact (Heap.isLive_collect ht).mpr (.child ((Heap.isLive_collect ht).mp hl) ho hk hkl)

theorem HeapOp.get?_of_isLive (op : HeapOp) {heap : Heap} (ht : heap.Tidy) {h : Handle}
    {o : Object} (ho : heap.get? h = some o) (hkeep : op.target? ≠ some h ∨ o.kind = .string)
    (hl : (op.after heap).isLive h = true) : (op.after heap).get? h = some o := by
  rcases op.after_cases heap with ⟨a, rfl, hch⟩ | ⟨x, rfl, ha⟩ |
    ⟨k, o', rfl, ha | ⟨p, hp, hw, ha⟩⟩ | ⟨k, rfl, ha⟩
  · exact hch.get?_of_isLive ht ho hkeep hl
  · rw [ha] at hl ⊢
    exact (Heap.get?_alloc_of_isLive ht x ho hl).1
  · rw [ha]
    exact ho
  · have hne : h ≠ k := by
      rintro rfl
      rw [ho] at hp
      cases hp
      exact hkeep.elim (fun hne => hne rfl) hw.notString
    rw [ha, Heap.get?_replace hp, if_neg hne, ho]
  · rw [ha, Heap.get?_remeasure, ho]

theorem HeapOp.isLive_child (op : HeapOp) {heap : Heap} (ht : heap.Tidy) {h k : Handle}
    {o : Object} (ho : heap.get? h = some o) (hl : (op.after heap).isLive h = true)
    (hk : k ∈ o.children) (hkl : heap.isLive k = true) : (op.after heap).isLive k = true := by
  rcases op.after_cases heap with ⟨a, rfl, hch⟩ | ⟨x, rfl, ha⟩ |
    ⟨j, o', rfl, ha | ⟨p, hp, hw, ha⟩⟩ | ⟨j, rfl, ha⟩
  · exact hch.isLive_child ht ho hl hk hkl
  · rw [ha] at hl ⊢
    exact (Heap.get?_alloc_of_isLive ht x ho hl).2 k hk hkl
  · rw [ha]
    exact hkl
  · rw [ha, Heap.isLive_replace]
    exact hkl
  · rw [ha, Heap.isLive, Heap.get?_remeasure]
    exact hkl

/-! ## Roots and pins -/

/-- What a root or a pin names is there after every change. -/
theorem Change.isLive_of_anchored {given : List Handle} {target : Option Handle}
    {heap after : Heap} (hch : Change given target heap after) (ht : heap.Tidy) {h : Handle}
    (ha : h ∈ heap.anchors) (hl : heap.isLive h = true) : after.isLive h = true := by
  obtain ⟨o, ho⟩ := Heap.isLive_iff.mp hl
  cases hch with
  | none => exact hl
  | alloc x _ _ => exact Heap.isLive_iff.mpr ⟨o, Heap.get?_alloc_of_anchored ht x ha ho⟩
  | write _ _ _ =>
    rw [Heap.isLive_replace]
    exact hl
  | writeMeasured _ _ _ =>
    unfold Heap.isLive
    rw [Heap.get?_remeasure]
    show (Heap.replace _ _ _).isLive h = true
    rw [Heap.isLive_replace]
    exact hl
  | anchor roots pins => exact hl
  | collect => exact (Heap.isLive_collect ht).mpr (.start ha hl)

theorem HeapOp.isLive_of_anchored (op : HeapOp) {heap : Heap} (ht : heap.Tidy) {h : Handle}
    (ha : h ∈ heap.anchors) (hl : heap.isLive h = true) : (op.after heap).isLive h = true := by
  obtain ⟨o, ho⟩ := Heap.isLive_iff.mp hl
  rcases op.after_cases heap with ⟨a, rfl, hch⟩ | ⟨x, rfl, hafter⟩ |
    ⟨k, o', rfl, hafter | ⟨p, hp, hw, hafter⟩⟩ | ⟨k, rfl, hafter⟩
  · exact hch.isLive_of_anchored ht ha hl
  · rw [hafter]
    exact Heap.isLive_iff.mpr ⟨o, Heap.get?_alloc_of_anchored ht x ha ho⟩
  · rw [hafter]
    exact hl
  · rw [hafter, Heap.isLive_replace]
    exact hl
  · rw [hafter, Heap.isLive, Heap.get?_remeasure]
    exact hl

theorem HeapOp.isLive_of_reached (op : HeapOp) {heap : Heap} (ht : heap.Tidy) {h : Handle}
    (hr : heap.Reaches heap.anchors h) : (op.after heap).isLive h = true := by
  induction hr with
  | start ha hl => exact op.isLive_of_anchored ht ha hl
  | child _ ho hk hl ih => exact op.isLive_child ht ho ih hk hl

end ScriptMachine
