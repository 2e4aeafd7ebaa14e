import ScriptMachine.Proofs.Heap.Survival

/-!
# Handles are never given out twice

A cell counts its tenants in 32 bits, and a collection vacates a cell at most once, so for fewer
than 2^32 collections the count only goes up. A handle that has been given out then stays behind
the count of its cell, or it names the tenant; either way no later object gets it.

Main definitions:
- `Heap.Issued`: the handle has been given out.
- `Heap.Later`: the arena at a later time.
- `Heap.Orderly`: what makes time go one way.

Results:
1. `Later.issued`: what has been given out stays so.
2. `Orderly.alloc`: the handle of a new object was not given out before.
3. `Change.collections_le`: the number of collections never falls.
-/

namespace ScriptMachine

/-! ## 1. The arena at a later time -/

/-- `c.Later d`: the cell may become `d`. The count of tenants goes up, or it stays and then the
tenant stays too. -/
def Cell.Later (c d : Cell) : Prop :=
  c.generation.toNat < d.generation.toNat ∨
    c.generation = d.generation ∧ (c.entry.isSome = true → d.entry.isSome = true)

theorem Cell.Later.refl (c : Cell) : c.Later c :=
  .inr ⟨rfl, id⟩

theorem Cell.Later.trans {c d e : Cell} (hcd : c.Later d) (hde : d.Later e) : c.Later e := by
  rcases hcd with hcd | ⟨hcd, hin⟩
  · rcases hde with hde | ⟨hde, -⟩
    · exact .inl (Nat.lt_trans hcd hde)
    · exact .inl (hde ▸ hcd)
  · rcases hde with hde | ⟨hde, hin'⟩
    · exact .inl (hcd ▸ hde)
    · exact .inr ⟨hcd.trans hde, fun h => hin' (hin h)⟩

namespace Heap

variable {heap after : Heap}

/-- Every cell is still there, at a later time. -/
def Later (heap after : Heap) : Prop :=
  ∀ (i : Nat) (c : Cell), heap.cells[i]? = some c → ∃ d, after.cells[i]? = some d ∧ c.Later d

/-- The handle has been given out: its tenant has left the cell, or is in it. -/
def Issued (heap : Heap) (h : Handle) : Prop :=
  ∃ c, heap.cells[h.index]? = some c ∧ (h.generation.toNat < c.generation.toNat ∨
    h.generation = c.generation ∧ c.entry.isSome = true)

theorem issued_of_isLive {h : Handle} (hl : heap.isLive h = true) : heap.Issued h := by
  obtain ⟨e, he⟩ := isLive_iff_entry?.mp hl
  exact ⟨_, entryAt?_eq_some_iff.mp he, .inr ⟨rfl, rfl⟩⟩

theorem Later.of_cells (hc : after.cells = heap.cells) : heap.Later after := by
  intro i c hi
  rw [hc]
  exact ⟨c, hi, .refl c⟩

theorem Later.trans {last : Heap} (hl : heap.Later after) (hl' : after.Later last) :
    heap.Later last := by
  intro i c hc
  obtain ⟨d, hd, hcd⟩ := hl i c hc
  obtain ⟨e, he, hde⟩ := hl' i d hd
  exact ⟨e, he, Cell.Later.trans hcd hde⟩

theorem Later.issued (hl : heap.Later after) {h : Handle} (hi : heap.Issued h) :
    after.Issued h := by
  obtain ⟨c, hc, hcase⟩ := hi
  obtain ⟨d, hd, hlater⟩ := hl h.index c hc
  refine ⟨d, hd, ?_⟩
  rcases hlater with hlt | ⟨heq, hstay⟩
  · rcases hcase with hold | ⟨hsame, -⟩
    · exact .inl (Nat.lt_trans hold hlt)
    · exact .inl (hsame ▸ hlt)
  · rw [← heq]
    exact hcase.imp id fun ⟨hsame, hin⟩ => ⟨hsame, hstay hin⟩

/-! ## 2. Counting collections -/

/-- Collections can still be counted in as many bits as tenants are. -/
def Early (heap : Heap) : Prop :=
  heap.collections < UInt32.size

/-- The arena is tidy, and no cell has had more tenants leave than there were collections. -/
structure Orderly (heap : Heap) : Prop where
  tidy : heap.Tidy
  dated : ∀ (i : Nat) (c : Cell), heap.cells[i]? = some c → c.generation.toNat ≤ heap.collections

theorem empty_orderly (tuning : Tuning) : (empty tuning).Orderly where
  tidy := empty_tidy tuning
  dated := by simp [empty]

/-- Roots, pins and the books beside the cells do not matter. -/
theorem Orderly.of_cells (ho : heap.Orderly) (hc : after.cells = heap.cells)
    (hf : after.free = heap.free) (hn : after.collections = heap.collections) : after.Orderly where
  tidy := ho.tidy.of_cells hc hf
  dated := by
    rw [hc, hn]
    exact ho.dated

/-- A tenant that moves into a cell, or changes shape in it, leaves the count as it is. -/
theorem later_of_setIfInBounds {i : Nat} {g : UInt32} {tenant : Option Entry} {e : Entry}
    (hcell : heap.cells[i]? = some ⟨g, tenant⟩)
    (hc : after.cells = heap.cells.setIfInBounds i ⟨g, some e⟩) : heap.Later after := by
  obtain ⟨hi, -⟩ := Array.getElem?_eq_some_iff.mp hcell
  intro j c hj
  rw [hc, Array.getElem?_setIfInBounds]
  split
  · next heq =>
    subst heq
    rw [hcell] at hj
    cases hj
    exact ⟨_, rfl, .inr ⟨rfl, fun _ => rfl⟩⟩
  · exact ⟨c, hj, .refl c⟩

theorem Orderly.of_setIfInBounds (ho : heap.Orderly) {i : Nat} {g : UInt32}
    {tenant : Option Entry} {e : Entry} (hcell : heap.cells[i]? = some ⟨g, tenant⟩)
    (hc : after.cells = heap.cells.setIfInBounds i ⟨g, some e⟩) (ht : after.Tidy)
    (hn : after.collections = heap.collections) : after.Orderly where
  tidy := ht
  dated := by
    obtain ⟨hi, -⟩ := Array.getElem?_eq_some_iff.mp hcell
    intro j c hj
    rw [hn]
    rw [hc, Array.getElem?_setIfInBounds] at hj
    split at hj
    · have hle := ho.dated i _ hcell
      cases hj
      exact hle
    · exact ho.dated j c hj

theorem replace_collections (heap : Heap) (h : Handle) (o : Object) :
    (heap.replace h o).collections = heap.collections := by
  unfold replace
  split <;> rfl

theorem remeasure_collections (heap : Heap) (h : Handle) :
    (heap.remeasure h).collections = heap.collections := by
  unfold remeasure
  split <;> rfl

theorem Orderly.replace (ho : heap.Orderly) (h : Handle) (o : Object) :
    heap.Later (heap.replace h o) ∧ (heap.replace h o).Orderly := by
  cases he : heap.entry? h with
  | none =>
    rw [replace_of_dead (by simp [get?, he])]
    exact ⟨.of_cells rfl, ho⟩
  | some e =>
    have hcell := entryAt?_eq_some_iff.mp he
    have hc : (heap.replace h o).cells =
        heap.cells.setIfInBounds h.index ⟨h.generation, some { e with object := o }⟩ := by
      simp [Heap.replace, he]
    exact ⟨later_of_setIfInBounds hcell hc,
      ho.of_setIfInBounds hcell hc (replace_tidy ho.tidy h o) (heap.replace_collections h o)⟩

theorem Orderly.remeasure (ho : heap.Orderly) (h : Handle) :
    heap.Later (heap.remeasure h) ∧ (heap.remeasure h).Orderly := by
  cases he : heap.entry? h with
  | none =>
    rw [remeasure_of_dead he]
    exact ⟨.of_cells rfl, ho⟩
  | some e =>
    have hcell := entryAt?_eq_some_iff.mp he
    have hc : (heap.remeasure h).cells =
        heap.cells.setIfInBounds h.index
          ⟨h.generation, some { e with size := e.object.footprint }⟩ := by
      simp [Heap.remeasure, he]
    exact ⟨later_of_setIfInBounds hcell hc,
      ho.of_setIfInBounds hcell hc (remeasure_tidy ho.tidy h) (heap.remeasure_collections h)⟩

/-- What a collection makes of a cell: it stays as it was for those who look at the count, or it is
vacated. -/
theorem collect_cell_cases (ht : heap.Tidy) {i : Nat} {c : Cell} (hc : heap.cells[i]? = some c) :
    ∃ d, heap.collect.2.cells[i]? = some d ∧
      (d.generation = c.generation ∧ d.entry.isSome = c.entry.isSome ∨
        d = ⟨c.generation + 1, none⟩) := by
  obtain ⟨g, tenant⟩ := c
  cases tenant with
  | none => exact ⟨_, collect_cell_empty hc, .inl ⟨rfl, rfl⟩⟩
  | some e =>
    by_cases hr : heap.Reaches heap.anchors ⟨i, g⟩
    · exact ⟨_, collect_cell_kept ht hc hr, .inl ⟨rfl, rfl⟩⟩
    · exact ⟨_, collect_cell_freed ht hc hr, .inr rfl⟩

theorem Orderly.collect (ho : heap.Orderly) (hearly : heap.collect.2.Early) :
    heap.Later heap.collect.2 ∧ heap.collect.2.Orderly := by
  have hcount : heap.collect.2.collections = heap.collections + 1 := rfl
  -- The one place where the bound on collections is used: the next tenant's number is larger.
  have hnext : ∀ (i : Nat) (c : Cell), heap.cells[i]? = some c →
      (c.generation + 1).toNat = c.generation.toNat + 1 := by
    intro i c hc
    rw [UInt32.toNat_add, UInt32.toNat_one]
    exact Nat.mod_eq_of_lt (Nat.lt_of_le_of_lt (Nat.succ_le_succ (ho.dated i c hc)) hearly)
  refine ⟨fun i c hc => ?_, collect_tidy ho.tidy, fun i d hd => ?_⟩
  · obtain ⟨d, hd, ⟨hg, hin⟩ | rfl⟩ := collect_cell_cases ho.tidy hc
    · exact ⟨d, hd, .inr ⟨hg.symm, fun h => hin ▸ h⟩⟩
    · refine ⟨_, hd, .inl ?_⟩
      show c.generation.toNat < (c.generation + 1).toNat
      rw [hnext i c hc]
      exact Nat.lt_succ_self _
  · have hi : i < heap.cells.size := by
      rw [← collect_size]
      exact (Array.getElem?_eq_some_iff.mp hd).1
    have hc := Array.getElem?_eq_getElem hi
    have hle := ho.dated i _ hc
    rw [hcount]
    obtain ⟨d', hd', ⟨hg, -⟩ | rfl⟩ := collect_cell_cases ho.tidy hc
    · rw [hd] at hd'
      cases hd'
      rw [hg]
      exact Nat.le_succ_of_le hle
    · rw [hd] at hd'
      cases hd'
      show (heap.cells[i].generation + 1).toNat ≤ _
      rw [hnext i _ hc]
      exact Nat.succ_le_succ hle

theorem Orderly.collectKeeping (ho : heap.Orderly) (handles : List Handle)
    (hearly : (heap.collectKeeping handles).Early) :
    heap.Later (heap.collectKeeping handles) ∧ (heap.collectKeeping handles).Orderly := by
  rw [collectKeeping_eq] at hearly ⊢
  have hk : (heap.keeping handles).Orderly := ho.of_cells rfl rfl rfl
  obtain ⟨hl, ha⟩ := hk.collect hearly
  exact ⟨hl, ha.of_cells rfl rfl rfl⟩

/-! ## 3. New handles -/

/-- A new tenant moves into a cell that waits for him, or into one of his own. -/
theorem Orderly.store (ho : heap.Orderly) (o : Object) :
    heap.Later (heap.store o).2 ∧ (heap.store o).2.Orderly ∧ ¬ heap.Issued (heap.store o).1 := by
  have hn := store_collections heap o
  rcases store_cases ho.tidy o with ⟨i, g, free, -, hg, hh, -, hc⟩ | ⟨-, hh, -, hc⟩
  · refine ⟨later_of_setIfInBounds hg hc,
      ho.of_setIfInBounds hg hc (store_tidy ho.tidy o) hn, ?_⟩
    -- The cell waits for this generation, so no handle with it is out yet.
    rintro ⟨c, hcell, hcase⟩
    rw [hh] at hcell hcase
    rw [hg] at hcell
    cases hcell
    rcases hcase with hlt | ⟨-, hin⟩
    · exact Nat.lt_irrefl _ hlt
    · cases hin
  · refine ⟨fun j c hj => ?_, ⟨store_tidy ho.tidy o, fun j c hj => ?_⟩, ?_⟩
    · obtain ⟨hlt, -⟩ := Array.getElem?_eq_some_iff.mp hj
      rw [hc, Array.getElem?_push, if_neg (Nat.ne_of_lt hlt)]
      exact ⟨c, hj, .refl c⟩
    · rw [hn]
      rw [hc, Array.getElem?_push] at hj
      split at hj
      · cases hj
        exact Nat.zero_le _
      · exact ho.dated j c hj
    · rintro ⟨c, hcell, -⟩
      rw [hh] at hcell
      exact Nat.lt_irrefl _ (Array.getElem?_eq_some_iff.mp hcell).1

/-- The handle of a new object was not given out before. -/
theorem Orderly.alloc (ho : heap.Orderly) (o : Object) (hearly : (heap.alloc o).2.Early) :
    heap.Later (heap.alloc o).2 ∧ (heap.alloc o).2.Orderly ∧ ¬ heap.Issued (heap.alloc o).1 := by
  rcases alloc_cases heap o with ⟨-, ha⟩ | ⟨-, ha⟩
  · rw [ha]
    exact ho.store o
  · have hbase : (heap.collectKeeping o.children).Early := by
      unfold Early at hearly ⊢
      rwa [ha, store_collections] at hearly
    obtain ⟨hl, hb⟩ := ho.collectKeeping o.children hbase
    obtain ⟨hl', ha', hnew⟩ := hb.store o
    rw [ha]
    exact ⟨Later.trans hl hl', ha', fun hissued => hnew (hl.issued hissued)⟩

theorem alloc_collections_le (heap : Heap) (o : Object) :
    heap.collections ≤ (heap.alloc o).2.collections := by
  rw [alloc_collections]
  exact Nat.le_add_right _ _

end Heap

/-- No change takes a collection back. -/
theorem Change.collections_le {given : List Handle} {target : Option Handle} {heap after : Heap}
    (hc : Change given target heap after) : heap.collections ≤ after.collections := by
  cases hc with
  | none => exact Nat.le_refl _
  | alloc o _ _ => exact heap.alloc_collections_le o
  | write _ _ _ => exact Nat.le_of_eq (heap.replace_collections _ _).symm
  | writeMeasured _ _ _ =>
    rw [Heap.remeasure_collections]
    exact Nat.le_of_eq (heap.replace_collections _ _).symm
  | anchor roots pins => exact Nat.le_refl _
  | collect => exact Nat.le_succ heap.collections

end ScriptMachine
