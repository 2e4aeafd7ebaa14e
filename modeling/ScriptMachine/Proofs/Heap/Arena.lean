import ScriptMachine.Heap.Alloc
import ScriptMachine.Proofs.Places

/-!
# The arena through its handles

What every write to the heap does to the objects behind handles, one equation a write, so that
nothing later has to look at cells. A handle names a cell and a generation; two handles of one cell
never name a tenant at the same time.

Results:
1. `get?_replace`, `get?_remeasure`: writing in place changes one object, measuring changes none.
2. `get?_store`: in a tidy heap a new object gets a handle that named nothing, and no other handle
   notices.
3. `Heap.Tidy` and its `_tidy` lemmas: the free list is exactly the empty cells and no object is
   marked, before and after every write.
4. `Heap.removeRoot_perm`: taking a root away takes away one registration of it and no other.
-/

namespace ScriptMachine

/-! ## 1. Cells and handles -/

/-- The tenant that a handle names in an array of cells. -/
def entryAt? (cells : Array Cell) (h : Handle) : Option Entry :=
  match cells[h.index]? with
  | some cell => if cell.generation = h.generation then cell.entry else none
  | none => none

theorem entryAt?_eq_some_iff {cells : Array Cell} {h : Handle} {e : Entry} :
    entryAt? cells h = some e ↔ cells[h.index]? = some ⟨h.generation, some e⟩ := by
  unfold entryAt?
  constructor
  · intro hr
    split at hr
    · next cell hc =>
      split at hr
      · next hg =>
        rw [hc]
        cases cell
        simp_all
      · cases hr
    · cases hr
  · intro hc
    simp [hc]

theorem entryAt?_set {cells : Array Cell} {i : Nat} {c : Cell} (hi : i < cells.size)
    (k : Handle) :
    entryAt? (cells.set i c) k =
      if k.index = i then (if c.generation = k.generation then c.entry else none)
      else entryAt? cells k := by
  unfold entryAt?
  rw [Array.getElem?_set]
  by_cases hk : i = k.index
  · simp [hk]
  · simp [hk, Ne.symm hk]

/-- Two handles of one cell and one generation are one handle. -/
theorem Handle.ext_iff' {h k : Handle} :
    h = k ↔ h.index = k.index ∧ h.generation = k.generation := by
  cases h
  cases k
  simp

/-- Giving the tenant of a handle another shape shows through that handle only: the other
generations of its cell named nothing before and name nothing after. -/
theorem entryAt?_setIfInBounds {cells : Array Cell} {h : Handle} {e e' : Entry}
    (he : entryAt? cells h = some e) (k : Handle) :
    entryAt? (cells.setIfInBounds h.index ⟨h.generation, some e'⟩) k =
      if k = h then some e' else entryAt? cells k := by
  have hc := entryAt?_eq_some_iff.mp he
  obtain ⟨hi, hg⟩ := Array.getElem?_eq_some_iff.mp hc
  rw [Array.setIfInBounds, dif_pos hi, entryAt?_set hi]
  by_cases hk : k.index = h.index
  · by_cases hkg : h.generation = k.generation
    · have : k = h := Handle.ext_iff'.mpr ⟨hk, hkg.symm⟩
      simp [this]
    · have hne : k ≠ h := fun heq => hkg (by rw [heq])
      have hnone : entryAt? cells k = none := by
        simp only [entryAt?, hk, hc, if_neg hkg]
      simp [hk, hkg, hne, hnone]
  · have hne : k ≠ h := fun heq => hk (by rw [heq])
    simp [hk, hne]

namespace Heap

theorem get?_eq_some_iff {heap : Heap} {h : Handle} {o : Object} :
    heap.get? h = some o ↔ ∃ e, heap.entry? h = some e ∧ e.object = o := by
  simp [get?]

theorem isLive_iff {heap : Heap} {h : Handle} :
    heap.isLive h = true ↔ ∃ o, heap.get? h = some o := by
  simp [isLive, Option.isSome_iff_exists]

theorem isLive_iff_entry? {heap : Heap} {h : Handle} :
    heap.isLive h = true ↔ ∃ e, heap.entry? h = some e := by
  simp [isLive, get?, Option.isSome_iff_exists]

theorem get_eq_ok_iff {heap : Heap} {h : Handle} {o : Object} :
    heap.get h = .ok o ↔ heap.get? h = some o := by
  unfold get
  split
  · next o' ho => simp [ho]
  · next ho => simp [ho]

/-! ## 2. Writing in place -/

theorem replace_of_dead {heap : Heap} {h : Handle} {o : Object} (hd : heap.get? h = none) :
    heap.replace h o = heap := by
  have he : heap.entry? h = none := by simpa [get?] using hd
  simp [replace, he]

theorem entry?_replace {heap : Heap} {h : Handle} {e : Entry} (o : Object)
    (he : heap.entry? h = some e) (k : Handle) :
    entry? (heap.replace h o) k = if k = h then some { e with object := o } else heap.entry? k := by
  have hr : heap.replace h o = { heap with
      cells := heap.cells.setIfInBounds h.index ⟨h.generation, some { e with object := o }⟩ } := by
    simp [replace, he]
  rw [hr]
  exact entryAt?_setIfInBounds he k

theorem get?_replace {heap : Heap} {h : Handle} {o o' : Object} (ho : heap.get? h = some o)
    (k : Handle) :
    (heap.replace h o').get? k = if k = h then some o' else heap.get? k := by
  obtain ⟨e, he, -⟩ := get?_eq_some_iff.mp ho
  unfold get?
  rw [entry?_replace o' he k]
  split <;> rfl

/-- What was put in the place of an object is gone when another is put there. -/
theorem replace_replace (heap : Heap) (h : Handle) (o o' : Object) :
    (heap.replace h o).replace h o' = heap.replace h o' := by
  cases hd : heap.entry? h with
  | none =>
    have hdead : heap.get? h = none := by rw [get?, hd, Option.map_none]
    rw [replace_of_dead hdead]
  | some e =>
    have he := entry?_replace o hd h
    rw [if_pos rfl] at he
    have houter : (heap.replace h o).replace h o' = { heap.replace h o with
        cells := (heap.replace h o).cells.setIfInBounds h.index
          ⟨h.generation, some { e with object := o' }⟩ } := by
      rw [replace, he]
    rw [houter]
    simp only [replace, hd, Array.setIfInBounds_setIfInBounds]

theorem isLive_replace (heap : Heap) (h k : Handle) (o : Object) :
    (heap.replace h o).isLive k = heap.isLive k := by
  cases hd : heap.get? h with
  | none => rw [replace_of_dead hd]
  | some o' =>
    unfold isLive
    rw [get?_replace hd]
    split
    · next hk => simp [hk, hd]
    · rfl

theorem entry?_remeasure {heap : Heap} {h : Handle} {e : Entry} (he : heap.entry? h = some e)
    (k : Handle) :
    entry? (heap.remeasure h) k =
      if k = h then some { e with size := e.object.footprint } else heap.entry? k := by
  have hr : (heap.remeasure h).cells =
      heap.cells.setIfInBounds h.index
        ⟨h.generation, some { e with size := e.object.footprint }⟩ := by
    simp [remeasure, he]
  have heq : entry? (heap.remeasure h) k = entryAt? (heap.remeasure h).cells k := rfl
  rw [heq, hr]
  exact entryAt?_setIfInBounds he k

theorem remeasure_of_dead {heap : Heap} {h : Handle} (hd : heap.entry? h = none) :
    heap.remeasure h = heap := by
  simp [remeasure, hd]

theorem get?_remeasure (heap : Heap) (h k : Handle) : (heap.remeasure h).get? k = heap.get? k := by
  cases hd : heap.entry? h with
  | none => rw [remeasure_of_dead hd]
  | some e =>
    unfold get?
    rw [entry?_remeasure hd]
    split
    · next hk => simp [hk, hd]
    · rfl

theorem replace_roots (heap : Heap) (h : Handle) (o : Object) :
    (heap.replace h o).roots = heap.roots := by
  unfold replace
  split <;> rfl

theorem replace_pins (heap : Heap) (h : Handle) (o : Object) :
    (heap.replace h o).pins = heap.pins := by
  unfold replace
  split <;> rfl

theorem remeasure_roots (heap : Heap) (h : Handle) : (heap.remeasure h).roots = heap.roots := by
  unfold remeasure
  split <;> rfl

theorem remeasure_pins (heap : Heap) (h : Handle) : (heap.remeasure h).pins = heap.pins := by
  unfold remeasure
  split <;> rfl

/-! ## 3. Tidiness -/

/-- The state of the arena between operations: the free list holds each empty cell once and
nothing else, and no object carries a mark. -/
structure Tidy (heap : Heap) : Prop where
  nodup : heap.free.Nodup
  mem_free : ∀ i, i ∈ heap.free ↔ ∃ g, heap.cells[i]? = some ⟨g, none⟩
  unmarked : ∀ (i : Nat) (g : UInt32) (e : Entry),
    heap.cells[i]? = some ⟨g, some e⟩ → e.marked = false

theorem empty_tidy (tuning : Tuning) : (empty tuning).Tidy where
  nodup := by simp [empty]
  mem_free := by simp [empty]
  unmarked := by simp [empty]

/-- Roots, pins and the books beside the cells do not matter. -/
theorem Tidy.of_cells {heap other : Heap} (ht : heap.Tidy) (hc : other.cells = heap.cells)
    (hf : other.free = heap.free) : other.Tidy where
  nodup := hf ▸ ht.nodup
  mem_free := by rw [hf, hc]; exact ht.mem_free
  unmarked := by rw [hc]; exact ht.unmarked

/-- A cell whose tenant changes shape stays occupied. -/
theorem Tidy.of_setIfInBounds {heap other : Heap} (ht : heap.Tidy) {h : Handle} {e : Entry}
    (he : heap.entry? h = some e) (e' : Entry) (hm : e'.marked = e.marked)
    (hc : other.cells = heap.cells.setIfInBounds h.index ⟨h.generation, some e'⟩)
    (hf : other.free = heap.free) : other.Tidy := by
  have hcell := entryAt?_eq_some_iff.mp he
  obtain ⟨hi, -⟩ := Array.getElem?_eq_some_iff.mp hcell
  refine ⟨hf ▸ ht.nodup, fun i => ?_, fun i g d hd => ?_⟩
  · rw [hf, hc, ht.mem_free, Array.getElem?_setIfInBounds]
    split
    · next hk =>
      subst hk
      rw [hcell]
      simp
    · rfl
  · rw [hc, Array.getElem?_setIfInBounds] at hd
    split at hd
    · cases hd
      rw [hm]
      exact ht.unmarked _ _ _ hcell
    · exact ht.unmarked _ _ _ hd

theorem replace_tidy {heap : Heap} (ht : heap.Tidy) (h : Handle) (o : Object) :
    (heap.replace h o).Tidy := by
  cases hd : heap.entry? h with
  | none => rw [replace_of_dead (by simp [get?, hd])]; exact ht
  | some e =>
    exact ht.of_setIfInBounds hd { e with object := o } rfl (by simp [replace, hd])
      (by simp [replace, hd])

theorem remeasure_tidy {heap : Heap} (ht : heap.Tidy) (h : Handle) : (heap.remeasure h).Tidy := by
  cases hd : heap.entry? h with
  | none => rw [remeasure_of_dead hd]; exact ht
  | some e =>
    exact ht.of_setIfInBounds hd { e with size := e.object.footprint } rfl
      (by simp [remeasure, hd]) (by simp [remeasure, hd])

/-! ## 4. New objects -/

/-- Where a new object goes: into a cell that was emptied, under the generation the cell waits
for, or into a cell of its own at the end. -/
theorem store_cases {heap : Heap} (ht : heap.Tidy) (o : Object) :
    (∃ i g free, heap.free = i :: free ∧ heap.cells[i]? = some ⟨g, none⟩ ∧
      (heap.store o).1 = ⟨i, g⟩ ∧ (heap.store o).2.free = free ∧
      (heap.store o).2.cells =
        heap.cells.setIfInBounds i ⟨g, some ⟨o, o.footprint, false⟩⟩) ∨
    (heap.free = [] ∧ (heap.store o).1 = ⟨heap.cells.size, 0⟩ ∧ (heap.store o).2.free = [] ∧
      (heap.store o).2.cells = heap.cells.push ⟨0, some ⟨o, o.footprint, false⟩⟩) := by
  cases hf : heap.free with
  | nil => exact .inr (by simp [store, hf])
  | cons i free =>
    obtain ⟨g, hg⟩ := (ht.mem_free i).mp (by simp [hf])
    exact .inl ⟨i, g, free, rfl, hg, by simp [store, hf, hg]⟩

theorem store_roots (heap : Heap) (o : Object) : (heap.store o).2.roots = heap.roots := by
  unfold store
  dsimp only
  split <;> rfl

theorem store_pins (heap : Heap) (o : Object) : (heap.store o).2.pins = heap.pins := by
  unfold store
  dsimp only
  split <;> rfl

theorem store_collections (heap : Heap) (o : Object) :
    (heap.store o).2.collections = heap.collections := by
  unfold store
  dsimp only
  split <;> rfl

/-- A new object has a handle that named nothing, and no other handle notices. -/
theorem get?_store {heap : Heap} (ht : heap.Tidy) (o : Object) (k : Handle) :
    heap.get? (heap.store o).1 = none ∧
    (heap.store o).2.get? k = if k = (heap.store o).1 then some o else heap.get? k := by
  have hview : ∀ (h : Heap) (x : Handle), h.get? x = (entryAt? h.cells x).map (·.object) :=
    fun _ _ => rfl
  rcases store_cases ht o with ⟨i, g, free, -, hg, hh, -, hc⟩ | ⟨-, hh, -, hc⟩
  · obtain ⟨hi, -⟩ := Array.getElem?_eq_some_iff.mp hg
    rw [hview, hview, hview, hh, hc, Array.setIfInBounds, dif_pos hi, entryAt?_set hi]
    refine ⟨by simp [entryAt?, hg], ?_⟩
    by_cases hk : k.index = i
    · by_cases hkg : g = k.generation
      · have : k = ⟨i, g⟩ := Handle.ext_iff'.mpr ⟨hk, hkg.symm⟩
        simp [this]
      · have hne : k ≠ ⟨i, g⟩ := fun heq => hkg (by rw [heq])
        simp [hk, hkg, hne, entryAt?, hg]
    · have hne : k ≠ ⟨i, g⟩ := fun heq => hk (by rw [heq])
      simp [hk, hne]
  · rw [hview, hview, hview, hh, hc]
    refine ⟨by simp [entryAt?], ?_⟩
    by_cases hk : k.index = heap.cells.size
    · by_cases hkg : (0 : UInt32) = k.generation
      · have : k = ⟨heap.cells.size, 0⟩ := Handle.ext_iff'.mpr ⟨hk, hkg.symm⟩
        simp [this, entryAt?]
      · have hne : k ≠ ⟨heap.cells.size, 0⟩ := fun heq => hkg (by rw [heq])
        simp [hk, hkg, hne, entryAt?]
    · have hne : k ≠ ⟨heap.cells.size, 0⟩ := fun heq => hk (by rw [heq])
      simp [hne, entryAt?, Array.getElem?_push, hk]

/-- What is there stays there: the new object has a handle that was not in use. -/
theorem get?_store_of_some {heap : Heap} (ht : heap.Tidy) (o : Object) {k : Handle} {p : Object}
    (hp : heap.get? k = some p) : (heap.store o).2.get? k = some p := by
  obtain ⟨hnew, hview⟩ := get?_store ht o k
  have hne : k ≠ (heap.store o).1 := by
    rintro rfl
    rw [hnew] at hp
    cases hp
  rw [hview, if_neg hne, hp]

theorem isLive_store {heap : Heap} (ht : heap.Tidy) (o : Object) {k : Handle}
    (hk : heap.isLive k = true) : (heap.store o).2.isLive k = true := by
  obtain ⟨p, hp⟩ := isLive_iff.mp hk
  exact isLive_iff.mpr ⟨p, get?_store_of_some ht o hp⟩

theorem store_tidy {heap : Heap} (ht : heap.Tidy) (o : Object) : (heap.store o).2.Tidy := by
  rcases store_cases ht o with ⟨i, g, free, hf, hg, -, hf', hc⟩ | ⟨hf, -, hf', hc⟩
  · obtain ⟨hi, -⟩ := Array.getElem?_eq_some_iff.mp hg
    have hnd := ht.nodup
    rw [hf, List.nodup_cons] at hnd
    refine ⟨hf' ▸ hnd.2, fun j => ?_, fun j g' e he => ?_⟩
    · have hj := ht.mem_free j
      rw [hf, List.mem_cons] at hj
      rw [hf', hc, Array.getElem?_setIfInBounds]
      split
      · next hk => subst hk; simp [hnd.1]
      · next hk => rw [← hj]; simp [Ne.symm hk]
    · rw [hc, Array.getElem?_setIfInBounds] at he
      split at he
      · cases he; rfl
      · exact ht.unmarked _ _ _ he
  · refine ⟨by simp [hf'], fun j => ?_, fun j g' e he => ?_⟩
    · have hj := ht.mem_free j
      rw [hf] at hj
      rw [hf', hc, Array.getElem?_push]
      split
      · simp
      · exact hj
    · rw [hc, Array.getElem?_push] at he
      split at he
      · cases he; rfl
      · exact ht.unmarked _ _ _ he

/-! ## 5. Roots -/

theorem mem_addRoot (heap : Heap) (h : Handle) : h ∈ (heap.addRoot h).roots :=
  List.mem_append_right _ (List.mem_singleton_self h)

/-- Of the registrations of a handle one is taken away, and the others stay, in whatever order. -/
theorem removeRoot_perm (heap : Heap) (h : Handle) :
    (heap.removeRoot h).roots.Perm (heap.roots.erase h) := by
  have hother {l : List Handle} (hl : h ∉ l) : ∀ k ∈ l, (k == h) = false :=
    fun k hk => beq_false_of_ne fun hkh => hl (hkh ▸ hk)
  unfold removeRoot
  dsimp only
  by_cases hmem : h ∈ heap.roots
  · obtain ⟨front, back, hcut, hback⟩ := exists_last_of_mem hmem
    rw [hcut, findLastIdx?_append_cons (p := (· == h)) (beq_self_eq_true h) (hother hback)]
    exact (swapRemove_perm front back h).trans
      (List.cons_perm_iff_perm_erase.mp List.perm_middle.symm).2
  · rw [findLastIdx?_eq_none (hother hmem), List.erase_of_not_mem hmem]

end Heap

end ScriptMachine
