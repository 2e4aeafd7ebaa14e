import Mathlib.Data.List.Nodup
import Mathlib.Logic.Function.Iterate
import ScriptMachine.Proofs.Heap.Arena

/-!
# What a collection keeps

The marking loop works off a list of handles. Two things hold at every turn: whatever has a mark
was reached from where the loop began, and whatever a marked object refers to has a mark or is
still on the list. When the list is empty the two meet, and the marks are exactly the reachable
objects; the sweep then acts cell by cell.

Results:
1. `markFrom_turns`: the loop ends, and `markFrom` is its outcome.
2. `markFrom_unmark`: marking changes nothing but marks.
3. `isMarked_markFrom_iff`: from an arena without marks, the marks are what the list reaches.
4. `collect_cell_empty`, `collect_cell_kept`, `collect_cell_freed`, `collect_free_eq`: a collection,
   cell by cell; `get?_collect`: the same, seen through handles.
5. `get?_collectKeeping`, `alloc_cases`: a collection for an allocation, and the allocation.
-/

namespace ScriptMachine

/-! ## 1. Turns of the loop -/

/-- One turn of the marking loop: the first handle leaves the list. If it names an object without
a mark, the object gets one and its children go on the list. -/
def markTurn : Array Cell × List Handle → Array Cell × List Handle
  | (cells, []) => (cells, [])
  | (cells, h :: rest) =>
    match entryAt? cells h with
    | some e =>
      if e.marked then (cells, rest)
      else (cells.setIfInBounds h.index ⟨h.generation, some { e with marked := true }⟩,
        e.object.children ++ rest)
    | none => (cells, rest)

theorem markFrom_cons (cells : Array Cell) (h : Handle) (rest : List Handle) :
    markFrom cells (h :: rest) =
      markFrom (markTurn (cells, h :: rest)).1 (markTurn (cells, h :: rest)).2 := by
  rw [markFrom]
  simp only [markTurn, entryAt?]
  by_cases hi : h.index < cells.size
  · rw [dif_pos hi, Array.getElem?_eq_getElem hi]
    rcases hc : cells[h.index] with ⟨g, _ | e⟩
    · by_cases hg : g = h.generation <;> simp [hg, Cell.isUnmarked]
    · by_cases hg : g = h.generation
      · cases hm : e.marked <;>
          simp [hg, hm, Cell.isUnmarked, Cell.mark, Cell.children, Array.setIfInBounds, hi]
      · simp [hg]
  · rw [dif_neg hi, Array.getElem?_eq_none (by omega)]

/-- The loop as an induction: a handle at the head of the list is visited or skipped. -/
theorem markFrom_induction {motive : Array Cell → List Handle → Array Cell → Prop}
    (nil : ∀ cells, motive cells [] cells)
    (visit : ∀ cells h rest e out, entryAt? cells h = some e → e.marked = false →
      motive (cells.setIfInBounds h.index ⟨h.generation, some { e with marked := true }⟩)
        (e.object.children ++ rest) out → motive cells (h :: rest) out)
    (skip : ∀ cells h rest out, (∀ e, entryAt? cells h = some e → e.marked = true) →
      motive cells rest out → motive cells (h :: rest) out)
    (cells : Array Cell) (gray : List Handle) : motive cells gray (markFrom cells gray) := by
  have hskip : ∀ (cells : Array Cell) (h : Handle) (rest : List Handle),
      (∀ e, entryAt? cells h = some e → e.marked = true) →
      markTurn (cells, h :: rest) = (cells, rest) := by
    intro cells h rest hm
    cases he : entryAt? cells h with
    | none => simp [markTurn, he]
    | some e => simp [markTurn, he, hm e he]
  induction cells, gray using markFrom.induct with
  | case1 cells =>
    rw [markFrom]
    exact nil cells
  | case2 cells h rest hi hu ih =>
    obtain ⟨hg, hm⟩ := hu
    rcases hc : cells[h.index] with ⟨g, _ | e⟩
    · simp [hc, Cell.isUnmarked] at hm
    · simp only [hc] at hg
      subst hg
      have he : entryAt? cells h = some e := by
        rw [entryAt?_eq_some_iff, Array.getElem?_eq_getElem hi, hc]
      have hm' : e.marked = false := by simpa [hc, Cell.isUnmarked] using hm
      have hset : cells.set h.index cells[h.index].mark hi =
          cells.setIfInBounds h.index ⟨h.generation, some { e with marked := true }⟩ := by
        simp [Array.setIfInBounds, hi, hc, Cell.mark]
      rw [markFrom_cons]
      simp only [markTurn, he, hm', Bool.false_eq_true, if_false]
      rw [hset] at ih
      refine visit cells h rest e _ he hm' ?_
      simpa [hc, Cell.children] using ih
  | case3 cells h rest hi hu ih =>
    have hm : ∀ e, entryAt? cells h = some e → e.marked = true := by
      intro e he
      rw [entryAt?_eq_some_iff, Array.getElem?_eq_getElem hi, Option.some.injEq] at he
      simpa [he, Cell.isUnmarked] using hu
    rw [markFrom_cons, hskip cells h rest hm]
    exact skip cells h rest _ hm ih
  | case4 cells h rest hi ih =>
    have hm : ∀ e, entryAt? cells h = some e → e.marked = true := by
      intro e he
      rw [entryAt?_eq_some_iff, Array.getElem?_eq_none (by omega)] at he
      cases he
    rw [markFrom_cons, hskip cells h rest hm]
    exact skip cells h rest _ hm ih

/-- The loop ends: after some number of turns the list is empty, and the cells are those of
`markFrom`. -/
theorem markFrom_turns (cells : Array Cell) (gray : List Handle) :
    ∃ n, markTurn^[n] (cells, gray) = (markFrom cells gray, []) := by
  refine markFrom_induction (motive := fun cells gray out =>
    ∃ n, markTurn^[n] (cells, gray) = (out, [])) ?_ ?_ ?_ cells gray
  · exact fun cells => ⟨0, rfl⟩
  · rintro cells h rest e out he hm ⟨n, hn⟩
    refine ⟨n + 1, ?_⟩
    rw [Function.iterate_succ_apply, ← hn]
    simp [markTurn, he, hm]
  · rintro cells h rest out hm ⟨n, hn⟩
    refine ⟨n + 1, ?_⟩
    rw [Function.iterate_succ_apply, ← hn]
    cases he : entryAt? cells h with
    | none => simp [markTurn, he]
    | some e => simp [markTurn, he, hm e he]

/-! ## 2. Marks are all that changes -/

/-- The cell with its tenant's mark taken away. -/
def Cell.unmark (c : Cell) : Cell :=
  { c with entry := c.entry.map fun e => { e with marked := false } }

theorem markFrom_unmark (cells : Array Cell) (gray : List Handle) (i : Nat) :
    (markFrom cells gray)[i]?.map Cell.unmark = cells[i]?.map Cell.unmark := by
  refine markFrom_induction (motive := fun cells _ out =>
    out[i]?.map Cell.unmark = cells[i]?.map Cell.unmark) ?_ ?_ ?_ cells gray
  · exact fun cells => rfl
  · intro cells h rest e out he _ ih
    have hc := entryAt?_eq_some_iff.mp he
    rw [ih, Array.getElem?_setIfInBounds]
    split
    · next hi =>
      subst hi
      obtain ⟨hlt, -⟩ := Array.getElem?_eq_some_iff.mp hc
      rw [hc]
      simp [Cell.unmark, hlt]
    · rfl
  · exact fun cells h rest out _ ih => ih

theorem entryAt?_unmark {cells out : Array Cell}
    (hu : ∀ i : Nat, out[i]?.map Cell.unmark = cells[i]?.map Cell.unmark) (h : Handle) :
    (entryAt? out h).map (·.object) = (entryAt? cells h).map (·.object) := by
  have hi := hu h.index
  unfold entryAt?
  cases ho : out[h.index]? with
  | none =>
    cases hc : cells[h.index]? with
    | none => rfl
    | some c => simp [ho, hc] at hi
  | some d =>
    cases hc : cells[h.index]? with
    | none => simp [ho, hc] at hi
    | some c =>
      obtain ⟨gd, ed⟩ := d
      obtain ⟨gc, ec⟩ := c
      simp only [ho, hc, Option.map_some, Cell.unmark, Option.some.injEq, Cell.mk.injEq] at hi
      obtain ⟨rfl, he⟩ := hi
      cases ed <;> cases ec <;> simp_all

/-! ## 3. Marks and reachability -/

/-- `heap.Reaches start h`: the object of `h` is on the heap, and is on the list `start` or held by
an object that the list reaches. Handles whose objects are gone lead nowhere. -/
inductive Heap.Reaches (heap : Heap) (start : List Handle) : Handle → Prop
  | start {h : Handle} : h ∈ start → heap.isLive h = true → heap.Reaches start h
  | child {h k : Handle} {o : Object} : heap.Reaches start h → heap.get? h = some o →
      k ∈ o.children → heap.isLive k = true → heap.Reaches start k

theorem Heap.Reaches.isLive {heap : Heap} {start : List Handle} {h : Handle}
    (hr : heap.Reaches start h) : heap.isLive h = true := by
  cases hr with
  | start _ hl => exact hl
  | child _ _ _ hl => exact hl

/-- A list reaches what any list of reached objects reaches. -/
theorem Heap.Reaches.trans {heap : Heap} {start start' : List Handle}
    (hs : ∀ k ∈ start, heap.isLive k = true → heap.Reaches start' k) {h : Handle}
    (hr : heap.Reaches start h) : heap.Reaches start' h := by
  induction hr with
  | start hm hl => exact hs _ hm hl
  | child _ ho hk hl ih => exact .child ih ho hk hl

theorem Heap.Reaches.mono {heap : Heap} {start start' : List Handle} (hs : start ⊆ start')
    {h : Handle} (hr : heap.Reaches start h) : heap.Reaches start' h :=
  hr.trans fun _ hk hl => .start (hs hk) hl

/-- Reachability depends on the objects only. -/
theorem Heap.Reaches.congr {heap other : Heap} {start : List Handle}
    (hv : ∀ h, heap.get? h = other.get? h) {h : Handle} (hr : heap.Reaches start h) :
    other.Reaches start h := by
  have hlive : ∀ k, heap.isLive k = other.isLive k := fun k => by simp only [Heap.isLive, hv]
  induction hr with
  | start hm hl => exact .start hm (hlive _ ▸ hl)
  | child _ ho hk hl ih => exact .child ih (hv _ ▸ ho) hk (hlive _ ▸ hl)

/-- The handle names an object with a mark. -/
def IsMarked (cells : Array Cell) (h : Handle) : Prop :=
  ∃ e, entryAt? cells h = some e ∧ e.marked = true

theorem isMarked_setIfInBounds {cells : Array Cell} {h k : Handle} {e : Entry}
    (he : entryAt? cells h = some e) :
    IsMarked (cells.setIfInBounds h.index ⟨h.generation, some { e with marked := true }⟩) k ↔
      k = h ∨ IsMarked cells k := by
  unfold IsMarked
  rw [entryAt?_setIfInBounds he]
  by_cases hk : k = h <;> simp [hk]

theorem objectAt?_setIfInBounds {cells : Array Cell} {h : Handle} {e : Entry}
    (he : entryAt? cells h = some e) (k : Handle) :
    (entryAt? (cells.setIfInBounds h.index ⟨h.generation, some { e with marked := true }⟩) k).map
      (·.object) = (entryAt? cells k).map (·.object) := by
  rw [entryAt?_setIfInBounds he]
  by_cases hk : k = h
  · simp [hk, he]
  · simp [hk]

/-- Whatever the loop marks was marked before or is reached from the list. -/
theorem isMarked_markFrom (heap : Heap) {cells : Array Cell} {gray : List Handle}
    (hv : ∀ h, (entryAt? cells h).map (·.object) = heap.get? h) {k : Handle}
    (hk : IsMarked (markFrom cells gray) k) : IsMarked cells k ∨ heap.Reaches gray k := by
  refine markFrom_induction (motive := fun cells gray out =>
    (∀ h, (entryAt? cells h).map (·.object) = heap.get? h) → IsMarked out k →
      IsMarked cells k ∨ heap.Reaches gray k) ?_ ?_ ?_ cells gray hv hk
  · exact fun cells _ hk => .inl hk
  · intro cells h rest e out he _ ih hv hk
    have ho : heap.get? h = some e.object := by rw [← hv, he]; rfl
    have hh : heap.Reaches (h :: rest) h :=
      .start (by simp) (Heap.isLive_iff.mpr ⟨_, ho⟩)
    rcases ih (fun k => (objectAt?_setIfInBounds he k).trans (hv k)) hk with hm | hr
    · rcases (isMarked_setIfInBounds he).mp hm with rfl | hm
      · exact .inr hh
      · exact .inl hm
    · -- What is reached from the children is reached from the object that was visited.
      refine .inr (hr.trans fun x hx hl => ?_)
      rcases List.mem_append.mp hx with hx | hx
      · exact .child hh ho hx hl
      · exact .start (List.mem_cons_of_mem _ hx) hl
  · intro cells h rest out _ ih hv hk
    rcases ih hv hk with hm | hr
    · exact .inl hm
    · exact .inr (hr.mono (List.subset_cons_of_subset _ (List.Subset.refl _)))

/-- What the loop leaves open at a turn: every object that a marked one holds is marked, or is on
the list. -/
def Covered (cells : Array Cell) (gray : List Handle) : Prop :=
  ∀ h e, entryAt? cells h = some e → e.marked = true →
    ∀ k ∈ e.object.children, ∀ d, entryAt? cells k = some d → d.marked = true ∨ k ∈ gray

/-- A mark stays, and every object on the list gets one. -/
theorem isMarked_markFrom_of {cells : Array Cell} {gray : List Handle} {k : Handle}
    (hk : IsMarked cells k ∨ k ∈ gray ∧ ∃ d, entryAt? cells k = some d) :
    IsMarked (markFrom cells gray) k := by
  refine markFrom_induction (motive := fun cells gray out =>
    (IsMarked cells k ∨ k ∈ gray ∧ ∃ d, entryAt? cells k = some d) → IsMarked out k)
    ?_ ?_ ?_ cells gray hk
  · rintro cells (hk | ⟨hk, -⟩)
    · exact hk
    · cases hk
  · intro cells h rest e out he _ ih hk
    refine ih ?_
    rw [isMarked_setIfInBounds he, entryAt?_setIfInBounds he]
    rcases hk with hk | ⟨hk, hd⟩
    · exact .inl (.inr hk)
    · by_cases hkh : k = h
      · exact .inl (.inl hkh)
      · rw [if_neg hkh]
        exact .inr ⟨List.mem_append_right _ ((List.mem_cons.mp hk).resolve_left hkh), hd⟩
  · rintro cells h rest out hm ih (hk | ⟨hk, d, hd⟩)
    · exact ih (.inl hk)
    · rcases List.mem_cons.mp hk with rfl | hk
      · exact ih (.inl ⟨d, hd, hm d hd⟩)
      · exact ih (.inr ⟨hk, d, hd⟩)

/-- At the end nothing is left open. -/
theorem markFrom_covered {cells : Array Cell} {gray : List Handle} (hc : Covered cells gray) :
    Covered (markFrom cells gray) [] := by
  refine markFrom_induction (motive := fun cells gray out => Covered cells gray → Covered out [])
    ?_ ?_ ?_ cells gray hc
  · exact fun cells hc => hc
  · intro cells h rest e out he hm ih hc
    refine ih fun x ex hx hxm k hk d hd => ?_
    rw [entryAt?_setIfInBounds he] at hx hd
    -- The one object that becomes marked puts its children on the list.
    by_cases hxh : x = h
    · rw [if_pos hxh] at hx
      cases hx
      exact .inr (List.mem_append_left _ hk)
    · rw [if_neg hxh] at hx
      by_cases hkh : k = h
      · rw [if_pos hkh] at hd
        cases hd
        exact .inl rfl
      · rw [if_neg hkh] at hd
        rcases hc x ex hx hxm k hk d hd with hdm | hkg
        · exact .inl hdm
        · exact .inr (List.mem_append_right _ ((List.mem_cons.mp hkg).resolve_left hkh))
  · intro cells h rest out hm ih hc
    refine ih fun x ex hx hxm k hk d hd => ?_
    rcases hc x ex hx hxm k hk d hd with hdm | hkg
    · exact .inl hdm
    · rcases List.mem_cons.mp hkg with rfl | hkg
      · exact .inl (hm d hd)
      · exact .inr hkg

/-- From an arena without marks, the marks in the end are exactly what the list reaches. -/
theorem isMarked_markFrom_iff {heap : Heap} (ht : heap.Tidy) (gray : List Handle) (k : Handle) :
    IsMarked (markFrom heap.cells gray) k ↔ heap.Reaches gray k := by
  have hnone : ∀ h e, entryAt? heap.cells h = some e → e.marked = false :=
    fun h e he => ht.unmarked _ _ _ (entryAt?_eq_some_iff.mp he)
  have hcov : Covered (markFrom heap.cells gray) [] := by
    refine markFrom_covered fun h e he hm => ?_
    rw [hnone h e he] at hm
    cases hm
  have hview := entryAt?_unmark (markFrom_unmark heap.cells gray)
  constructor
  · intro hk
    rcases isMarked_markFrom heap (fun h => rfl) hk with ⟨e, he, hm⟩ | hr
    · rw [hnone k e he] at hm
      cases hm
    · exact hr
  · intro hr
    -- Along the way to `k`: it starts on the list, and marked objects hold marked ones.
    induction hr with
    | start hs hl =>
      obtain ⟨e, he⟩ := Heap.isLive_iff_entry?.mp hl
      exact isMarked_markFrom_of (.inr ⟨hs, e, he⟩)
    | @child h k o _ ho hk hl ih =>
      obtain ⟨e, he, hm⟩ := ih
      have heo : e.object = o := by
        have := hview h
        rw [he] at this
        exact Option.some.inj (this.trans ho)
      obtain ⟨d, hd⟩ : ∃ d, entryAt? (markFrom heap.cells gray) k = some d := by
        obtain ⟨o', ho'⟩ := Heap.isLive_iff.mp hl
        obtain ⟨d, hd, -⟩ := Option.map_eq_some_iff.mp ((hview k).trans ho')
        exact ⟨d, hd⟩
      rcases hcov h e he hm k (heo ▸ hk) d hd with hdm | hnil
      · exact ⟨d, hd, hdm⟩
      · cases hnil

/-! ## 4. Cell by cell -/

theorem mem_sweptIndices {cells : Array Cell} {i : Nat} :
    i ∈ sweptIndices cells ↔ ∃ c, cells[i]? = some c ∧ c.isUnmarked = true := by
  simp only [sweptIndices, List.mem_map, List.mem_filter]
  constructor
  · rintro ⟨⟨c, j⟩, ⟨hm, hu⟩, rfl⟩
    exact ⟨c, by simpa using List.mem_zipIdx_iff_getElem?.mp hm, hu⟩
  · rintro ⟨c, hc, hu⟩
    exact ⟨(c, i), ⟨List.mem_zipIdx_iff_getElem?.mpr (by simpa using hc), hu⟩, rfl⟩

theorem sweptIndices_nodup (cells : Array Cell) : (sweptIndices cells).Nodup := by
  have hsub : (sweptIndices cells).Sublist (cells.toList.zipIdx.map (·.2)) :=
    List.Sublist.map _ List.filter_sublist
  refine List.Nodup.sublist hsub ?_
  rw [List.zipIdx_map_snd]
  exact List.nodup_range'

namespace Heap

theorem collect_cells (heap : Heap) :
    heap.collect.2.cells = (markFrom heap.cells heap.anchors).map Cell.sweep := rfl

theorem collect_free_eq (heap : Heap) :
    heap.collect.2.free = (sweptIndices (markFrom heap.cells heap.anchors)).reverse ++ heap.free :=
  rfl

theorem markFrom_cell_empty {heap : Heap} {gray : List Handle} {i : Nat} {g : UInt32}
    (hc : heap.cells[i]? = some ⟨g, none⟩) :
    (markFrom heap.cells gray)[i]? = some ⟨g, none⟩ := by
  have hu := markFrom_unmark heap.cells gray i
  rw [hc] at hu
  obtain ⟨⟨g', e⟩, hd, he⟩ := Option.map_eq_some_iff.mp hu
  simp only [Cell.unmark, Option.map_none, Cell.mk.injEq] at he
  obtain ⟨rfl, he⟩ := he
  rw [hd]
  cases e with
  | none => rfl
  | some e => cases he

/-- An occupied cell after marking: marked when its tenant was reached. -/
theorem markFrom_cell {heap : Heap} (ht : heap.Tidy) (gray : List Handle) {i : Nat} {g : UInt32}
    {e : Entry} (hc : heap.cells[i]? = some ⟨g, some e⟩) :
    ∃ m, (markFrom heap.cells gray)[i]? = some ⟨g, some { e with marked := m }⟩ ∧
      (m = true ↔ heap.Reaches gray ⟨i, g⟩) := by
  have hu := markFrom_unmark heap.cells gray i
  rw [hc] at hu
  obtain ⟨⟨g', d⟩, hd, he⟩ := Option.map_eq_some_iff.mp hu
  simp only [Cell.unmark, Option.map_some, Cell.mk.injEq] at he
  obtain ⟨rfl, he⟩ := he
  cases d with
  | none => cases he
  | some d =>
    simp only [Option.map_some, Option.some.injEq, Entry.mk.injEq, and_true] at he
    have hde : d = { e with marked := d.marked } := by
      cases d
      simp_all
    refine ⟨d.marked, by rw [hd, ← hde], ?_⟩
    rw [← isMarked_markFrom_iff ht]
    constructor
    · exact fun hm => ⟨d, entryAt?_eq_some_iff.mpr hd, hm⟩
    · rintro ⟨d', hd', hm⟩
      cases (entryAt?_eq_some_iff.mpr hd).symm.trans hd'
      exact hm

/-- A cell that was empty stays as it was. -/
theorem collect_cell_empty {heap : Heap} {i : Nat} {g : UInt32}
    (hc : heap.cells[i]? = some ⟨g, none⟩) : heap.collect.2.cells[i]? = some ⟨g, none⟩ := by
  rw [collect_cells, Array.getElem?_map, markFrom_cell_empty hc]
  rfl

/-- A cell whose tenant is reached keeps it, measured anew. -/
theorem collect_cell_kept {heap : Heap} (ht : heap.Tidy) {i : Nat} {g : UInt32} {e : Entry}
    (hc : heap.cells[i]? = some ⟨g, some e⟩) (hr : heap.Reaches heap.anchors ⟨i, g⟩) :
    heap.collect.2.cells[i]? = some ⟨g, some ⟨e.object, e.object.footprint, false⟩⟩ := by
  obtain ⟨m, hm, hiff⟩ := markFrom_cell ht heap.anchors hc
  rw [collect_cells, Array.getElem?_map, hm, hiff.mpr hr]
  rfl

/-- A cell whose tenant is not reached is empty, and awaits the next generation. -/
theorem collect_cell_freed {heap : Heap} (ht : heap.Tidy) {i : Nat} {g : UInt32} {e : Entry}
    (hc : heap.cells[i]? = some ⟨g, some e⟩) (hr : ¬ heap.Reaches heap.anchors ⟨i, g⟩) :
    heap.collect.2.cells[i]? = some ⟨g + 1, none⟩ := by
  obtain ⟨m, hm, hiff⟩ := markFrom_cell ht heap.anchors hc
  have hm' : m = false := by
    cases m with
    | false => rfl
    | true => exact absurd (hiff.mp rfl) hr
  rw [collect_cells, Array.getElem?_map, hm, hm']
  rfl

theorem collect_size (heap : Heap) : heap.collect.2.cells.size = heap.cells.size := by
  refine Nat.le_antisymm (Nat.le_of_not_lt fun hlt => ?_) (Nat.le_of_not_lt fun hlt => ?_)
  · have hu := markFrom_unmark heap.cells heap.anchors heap.cells.size
    rw [Array.getElem?_eq_none (Nat.le_refl _), collect_cells, Array.size_map] at *
    simp [hlt] at hu
  · rw [collect_cells, Array.size_map] at hlt
    have hu := markFrom_unmark heap.cells heap.anchors (markFrom heap.cells heap.anchors).size
    rw [Array.getElem?_eq_none (Nat.le_refl _)] at hu
    simp [hlt] at hu

/-- The cells that a collection empties, and no others, go on the free list. -/
theorem mem_sweptIndices_markFrom {heap : Heap} (ht : heap.Tidy) {gray : List Handle} {i : Nat} :
    i ∈ sweptIndices (markFrom heap.cells gray) ↔
      ∃ g e, heap.cells[i]? = some ⟨g, some e⟩ ∧ ¬ heap.Reaches gray ⟨i, g⟩ := by
  rw [mem_sweptIndices]
  constructor
  · rintro ⟨⟨g, d⟩, hd, hu⟩
    have hcell := markFrom_unmark heap.cells gray i
    rw [hd] at hcell
    obtain ⟨⟨g', e⟩, hc, -⟩ := Option.map_eq_some_iff.mp hcell.symm
    cases e with
    | none =>
      rw [markFrom_cell_empty hc] at hd
      cases hd
      cases hu
    | some e =>
      obtain ⟨m, hm, hiff⟩ := markFrom_cell ht gray hc
      cases hd.symm.trans hm
      refine ⟨g, e, hc, fun hr => ?_⟩
      simp [Cell.isUnmarked, hiff.mpr hr] at hu
  · rintro ⟨g, e, hc, hr⟩
    obtain ⟨m, hm, hiff⟩ := markFrom_cell ht gray hc
    refine ⟨_, hm, ?_⟩
    cases m with
    | false => rfl
    | true => exact absurd (hiff.mp rfl) hr

/-! ## 5. Through handles -/

/-- After a collection a handle names what it named before, if that was reached, and otherwise
nothing. -/
theorem get?_collect {heap : Heap} (ht : heap.Tidy) {h : Handle} {o : Object} :
    heap.collect.2.get? h = some o ↔ heap.get? h = some o ∧ heap.Reaches heap.anchors h := by
  constructor
  · intro ho
    obtain ⟨d, hd, rfl⟩ := get?_eq_some_iff.mp ho
    have hd := entryAt?_eq_some_iff.mp hd
    have hi : h.index < heap.cells.size := by
      obtain ⟨hi, -⟩ := Array.getElem?_eq_some_iff.mp hd
      rwa [collect_size] at hi
    -- The cell was occupied, or it would be empty now, and reached, or it would have been freed.
    rcases hc : heap.cells[h.index] with ⟨g, _ | e⟩
    · have := collect_cell_empty ((Array.getElem?_eq_getElem hi).trans (congrArg some hc))
      cases this.symm.trans hd
    · have hc := (Array.getElem?_eq_getElem hi).trans (congrArg some hc)
      by_cases hr : heap.Reaches heap.anchors ⟨h.index, g⟩
      · cases (collect_cell_kept ht hc hr).symm.trans hd
        exact ⟨get?_eq_some_iff.mpr ⟨e, entryAt?_eq_some_iff.mpr hc, rfl⟩, hr⟩
      · have hfreed := (collect_cell_freed ht hc hr).symm.trans hd
        simp at hfreed
  · rintro ⟨ho, hr⟩
    obtain ⟨e, he, rfl⟩ := get?_eq_some_iff.mp ho
    have hc := collect_cell_kept ht (entryAt?_eq_some_iff.mp he) hr
    exact get?_eq_some_iff.mpr ⟨_, entryAt?_eq_some_iff.mpr hc, rfl⟩

theorem isLive_collect {heap : Heap} (ht : heap.Tidy) {h : Handle} :
    heap.collect.2.isLive h = true ↔ heap.Reaches heap.anchors h := by
  simp only [isLive_iff, get?_collect ht]
  constructor
  · rintro ⟨o, -, hr⟩
    exact hr
  · intro hr
    obtain ⟨o, ho⟩ := isLive_iff.mp hr.isLive
    exact ⟨o, ho, hr⟩

theorem collect_tidy {heap : Heap} (ht : heap.Tidy) : heap.collect.2.Tidy := by
  have hswept := @mem_sweptIndices_markFrom heap ht heap.anchors
  refine ⟨?_, fun i => ?_, fun i g d hd => ?_⟩
  · rw [collect_free_eq, List.nodup_append]
    refine ⟨List.nodup_reverse.mpr (sweptIndices_nodup _), ht.nodup, ?_⟩
    rintro i hi j hj rfl
    obtain ⟨g, e, hc, -⟩ := hswept.mp (List.mem_reverse.mp hi)
    obtain ⟨g', hc'⟩ := (ht.mem_free i).mp hj
    cases hc.symm.trans hc'
  · rw [collect_free_eq, List.mem_append, List.mem_reverse, hswept, ht.mem_free]
    constructor
    · rintro (⟨g, e, hc, hr⟩ | ⟨g, hc⟩)
      · exact ⟨_, collect_cell_freed ht hc hr⟩
      · exact ⟨g, collect_cell_empty hc⟩
    · rintro ⟨g, hd⟩
      have hi : i < heap.cells.size := by
        obtain ⟨hi, -⟩ := Array.getElem?_eq_some_iff.mp hd
        rwa [collect_size] at hi
      rcases hc : heap.cells[i] with ⟨g', _ | e⟩
      · exact .inr ⟨g', (Array.getElem?_eq_getElem hi).trans (congrArg some hc)⟩
      · have hc := (Array.getElem?_eq_getElem hi).trans (congrArg some hc)
        by_cases hr : heap.Reaches heap.anchors ⟨i, g'⟩
        · cases (collect_cell_kept ht hc hr).symm.trans hd
        · exact .inl ⟨g', e, hc, hr⟩
  · rw [collect_cells, Array.getElem?_map] at hd
    obtain ⟨⟨g', d'⟩, -, hs⟩ := Option.map_eq_some_iff.mp hd
    cases d' with
    | none => cases hs
    | some d' =>
      cases hm : d'.marked <;> simp [Cell.sweep, hm] at hs
      rw [← hs.2]

/-! ## 6. Allocation -/

/-- The heap that a collection with more handles kept works on. -/
def keeping (heap : Heap) (handles : List Handle) : Heap :=
  { heap with pins := handles ++ heap.pins }

theorem collectKeeping_eq (heap : Heap) (handles : List Handle) :
    heap.collectKeeping handles =
      { (heap.keeping handles).collect.2 with pins := heap.pins } := by
  have hp : (heap.keeping handles).collect.2.pins = handles ++ heap.pins := rfl
  show ((heap.keeping handles).collect.2).unpin heap.pins.length = _
  simp [unpin, hp]

theorem collectKeeping_tidy {heap : Heap} (ht : heap.Tidy) (handles : List Handle) :
    (heap.collectKeeping handles).Tidy := by
  rw [collectKeeping_eq]
  have hk : (heap.keeping handles).Tidy := ht.of_cells rfl rfl
  exact (collect_tidy hk).of_cells rfl rfl

/-- A collection for an allocation keeps, beside what is anchored, what the new object needs. -/
theorem get?_collectKeeping {heap : Heap} (ht : heap.Tidy) {handles : List Handle} {h : Handle}
    {o : Object} :
    (heap.collectKeeping handles).get? h = some o ↔
      heap.get? h = some o ∧ heap.Reaches (heap.roots ++ (handles ++ heap.pins)) h := by
  have hview : ∀ k, (heap.keeping handles).get? k = heap.get? k := fun _ => rfl
  have hc := @get?_collect (heap.keeping handles) (ht.of_cells rfl rfl) h o
  rw [collectKeeping_eq]
  refine Iff.trans hc ⟨?_, ?_⟩
  · rintro ⟨ho, hr⟩
    exact ⟨ho, hr.congr hview⟩
  · rintro ⟨ho, hr⟩
    exact ⟨ho, hr.congr fun k => (hview k).symm⟩

/-- An allocation stores the object in the heap as it is, or in what a collection leaves of it. -/
theorem alloc_cases (heap : Heap) (o : Object) :
    (heap.needsCollection o.footprint = false ∧ heap.alloc o = heap.store o) ∨
    (heap.needsCollection o.footprint = true ∧
      heap.alloc o = (heap.collectKeeping o.children).store o) := by
  unfold alloc
  cases hn : heap.needsCollection o.footprint with
  | true => exact .inr ⟨rfl, by simp⟩
  | false => exact .inl ⟨rfl, by simp⟩

theorem alloc_roots (heap : Heap) (o : Object) : (heap.alloc o).2.roots = heap.roots := by
  rcases alloc_cases heap o with ⟨-, ha⟩ | ⟨-, ha⟩
  · rw [ha, store_roots]
  · rw [ha, store_roots, collectKeeping_eq]
    rfl

/-- The pins that a collection for an allocation adds are gone after it. -/
theorem alloc_pins (heap : Heap) (o : Object) : (heap.alloc o).2.pins = heap.pins := by
  rcases alloc_cases heap o with ⟨-, ha⟩ | ⟨-, ha⟩
  · rw [ha, store_pins]
  · rw [ha, store_pins, collectKeeping_eq]

theorem alloc_collections (heap : Heap) (o : Object) : (heap.alloc o).2.collections =
    heap.collections + if heap.needsCollection o.footprint then 1 else 0 := by
  rcases alloc_cases heap o with ⟨hn, ha⟩ | ⟨hn, ha⟩
  · rw [ha, store_collections, hn]
    rfl
  · rw [ha, store_collections, collectKeeping_eq, hn]
    rfl

theorem alloc_tidy {heap : Heap} (ht : heap.Tidy) (o : Object) : (heap.alloc o).2.Tidy := by
  rcases alloc_cases heap o with ⟨-, ha⟩ | ⟨-, ha⟩
  · rw [ha]
    exact store_tidy ht o
  · rw [ha]
    exact store_tidy (collectKeeping_tidy ht _) o

end Heap

end ScriptMachine
