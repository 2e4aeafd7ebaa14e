import Mathlib
import ScriptMachine.Proofs.Heap.Survival

/-!
# Whom a handle names

A handle is given to the object of one allocation. It names that object until a collection vacates
the cell, and from then on nothing, although the cell is let again and again: each vacating takes
the count of tenants one further, and the count has 32 bits, so the handle could only come up again
after the cell was vacated 2^32 times.

Main definitions:
- `runOps`: operations one after the other.
- `HeapOp.vacates`, `vacatings`: an operation vacates a cell, and how often a run does.
- `HeapOp.Allocates`: an operation is an allocation that gives out a handle.
- `InPlace`: the changes of an object that stays where it is.
- `Tenure`: what holds of a handle in the course of a run.

Results:
1. `HeapOp.cell_next`: what one operation does to the count of a cell and to its tenant.
2. `generation_runOps`: a run takes the count as far as the cell is vacated in it.
3. `tenure_of_allocates`: a handle names the object of its own allocation, and no other.
-/

namespace ScriptMachine

/-! ## 1. Runs and what happens in them -/

/-- The heap after operations one after the other. -/
def runOps (ops : List HeapOp) (heap : Heap) : Heap :=
  ops.foldl (fun heap op => op.after heap) heap

theorem runOps_append (ops more : List HeapOp) (heap : Heap) :
    runOps (ops ++ more) heap = runOps more (runOps ops heap) :=
  List.foldl_append

theorem runOps_tidy (ops : List HeapOp) {heap : Heap} (ht : heap.Tidy) :
    (runOps ops heap).Tidy := by
  induction ops generalizing heap with
  | nil => exact ht
  | cons op ops ih => exact ih (op.after_tidy ht)

/-- Whether an operation vacates the cell at `i`: its tenant is gone afterwards. -/
def HeapOp.vacates (op : HeapOp) (heap : Heap) (i : Nat) : Bool :=
  match heap.cells[i]? with
  | some ⟨g, some _⟩ => !(op.after heap).isLive ⟨i, g⟩
  | some ⟨_, none⟩ | none => false

/-- How often a run vacates the cell at `i`. -/
def vacatings (i : Nat) : List HeapOp → Heap → Nat
  | [], _ => 0
  | op :: ops, heap => (if op.vacates heap i then 1 else 0) + vacatings i ops (op.after heap)

theorem vacatings_append (i : Nat) (ops more : List HeapOp) (heap : Heap) :
    vacatings i (ops ++ more) heap = vacatings i ops heap + vacatings i more (runOps ops heap) := by
  induction ops generalizing heap with
  | nil => exact (Nat.zero_add _).symm
  | cons op ops ih =>
    show _ + vacatings i (ops ++ more) (op.after heap) = _ + _ + _
    rw [ih, Nat.add_assoc]
    rfl

theorem vacatings_le_length (i : Nat) (ops : List HeapOp) (heap : Heap) :
    vacatings i ops heap ≤ ops.length := by
  induction ops generalizing heap with
  | nil => exact Nat.le_refl 0
  | cons op ops ih =>
    have hrest := ih (op.after heap)
    unfold vacatings
    rw [List.length_cons]
    split <;> omega

/-- The operation is an allocation of `o`, which gives out the handle `r`. -/
def HeapOp.Allocates (op : HeapOp) (heap : Heap) (r : Handle) (o : Object) : Prop :=
  heap.alloc o = (r, op.after heap)

/-- `InPlace r ops heap o p`: the object `o` of the handle `r` becomes `p` in the course of the
operations, and stays behind the handle all the time. Each operation leaves it alone, or it is
handed the handle and writes the object in place. -/
inductive InPlace (r : Handle) : List HeapOp → Heap → Object → Object → Prop
  | done {heap : Heap} {o : Object} : heap.get? r = some o → InPlace r [] heap o o
  | step {op : HeapOp} {ops : List HeapOp} {heap : Heap} {o q p : Object} :
      heap.get? r = some o → (q = o ∨ op.target? = some r ∧ Rewrite heap op.handles o q) →
      InPlace r ops (op.after heap) q p → InPlace r (op :: ops) heap o p

/-! ## 2. One operation -/

/-- The count of the cell stays, and so does its tenant, if it has one. -/
def Cell.Kept (c d : Cell) : Prop :=
  d.generation = c.generation ∧ (c.entry.isSome = true → d.entry.isSome = true)

/-- The cell had a tenant who is gone, whether or not there is another already. -/
def Cell.Vacated (c d : Cell) : Prop :=
  c.entry.isSome = true ∧ d.generation = c.generation + 1

namespace Heap

variable {heap after : Heap}

/-- Every cell is kept. -/
def Kept (heap after : Heap) : Prop :=
  ∀ (i : Nat) (c : Cell), heap.cells[i]? = some c → ∃ d, after.cells[i]? = some d ∧ c.Kept d

/-- Every cell is kept, or vacated once. -/
def Next (heap after : Heap) : Prop :=
  ∀ (i : Nat) (c : Cell), heap.cells[i]? = some c →
    ∃ d, after.cells[i]? = some d ∧ (c.Kept d ∨ c.Vacated d)

theorem Kept.of_cells (hc : after.cells = heap.cells) : heap.Kept after := by
  intro i c hi
  exact ⟨c, hc ▸ hi, rfl, id⟩

/-- A tenant that moves into a cell, or changes shape in it, leaves the count as it is. -/
theorem Kept.of_setIfInBounds {i : Nat} {g : UInt32} {tenant : Option Entry} {e : Entry}
    (hcell : heap.cells[i]? = some ⟨g, tenant⟩)
    (hc : after.cells = heap.cells.setIfInBounds i ⟨g, some e⟩) : heap.Kept after := by
  obtain ⟨hi, -⟩ := Array.getElem?_eq_some_iff.mp hcell
  intro j c hj
  rw [hc, Array.getElem?_setIfInBounds]
  split
  · next heq =>
    subst heq
    cases hcell.symm.trans hj
    exact ⟨_, rfl, rfl, fun _ => rfl⟩
  · exact ⟨c, hj, rfl, id⟩

theorem kept_replace (heap : Heap) (h : Handle) (o : Object) : heap.Kept (heap.replace h o) := by
  cases he : heap.entry? h with
  | none => exact .of_cells (by rw [replace_of_dead (by simp [get?, he])])
  | some e =>
    exact .of_setIfInBounds (e := { e with object := o }) (entryAt?_eq_some_iff.mp he)
      (by simp [replace, he])

theorem kept_remeasure (heap : Heap) (h : Handle) : heap.Kept (heap.remeasure h) := by
  cases he : heap.entry? h with
  | none => exact .of_cells (by rw [remeasure_of_dead he])
  | some e =>
    exact .of_setIfInBounds (e := { e with size := e.object.footprint })
      (entryAt?_eq_some_iff.mp he) (by simp [remeasure, he])

theorem kept_store (ht : heap.Tidy) (o : Object) : heap.Kept (heap.store o).2 := by
  rcases store_cases ht o with ⟨i, g, free, -, hg, -, -, hc⟩ | ⟨-, -, -, hc⟩
  · exact .of_setIfInBounds hg hc
  · intro i c hi
    obtain ⟨hlt, -⟩ := Array.getElem?_eq_some_iff.mp hi
    rw [hc, Array.getElem?_push, if_neg (Nat.ne_of_lt hlt)]
    exact ⟨c, hi, rfl, id⟩

theorem Kept.next (hk : heap.Kept after) : heap.Next after := by
  intro i c hi
  obtain ⟨d, hd, hcd⟩ := hk i c hi
  exact ⟨d, hd, .inl hcd⟩

/-- What keeps every cell may come after what vacates some. -/
theorem Next.trans_kept {last : Heap} (hn : heap.Next after) (hk : after.Kept last) :
    heap.Next last := by
  intro i c hi
  obtain ⟨d, hd, hcd⟩ := hn i c hi
  obtain ⟨e, he, hgen, hin⟩ := hk i d hd
  refine ⟨e, he, ?_⟩
  rcases hcd with ⟨hg, ht⟩ | ⟨hs, hg⟩
  · exact .inl ⟨hgen.trans hg, fun h => hin (ht h)⟩
  · exact .inr ⟨hs, hgen.trans hg⟩

theorem next_collect (ht : heap.Tidy) : heap.Next heap.collect.2 := by
  rintro i ⟨g, _ | e⟩ hc
  · exact ⟨_, collect_cell_empty hc, .inl ⟨rfl, id⟩⟩
  · by_cases hr : heap.Reaches heap.anchors ⟨i, g⟩
    · exact ⟨_, collect_cell_kept ht hc hr, .inl ⟨rfl, fun _ => rfl⟩⟩
    · exact ⟨_, collect_cell_freed ht hc hr, .inr ⟨rfl, rfl⟩⟩

theorem next_collectKeeping (ht : heap.Tidy) (handles : List Handle) :
    heap.Next (heap.collectKeeping handles) := by
  have hk : (heap.keeping handles).Tidy := ht.of_cells rfl rfl
  rw [collectKeeping_eq]
  exact next_collect hk

theorem next_alloc (ht : heap.Tidy) (o : Object) : heap.Next (heap.alloc o).2 := by
  obtain ⟨base, hbase, ha, rfl | rfl⟩ := exists_alloc_base ht o
  · rw [ha]
    exact (kept_store hbase o).next
  · rw [ha]
    exact (next_collectKeeping ht o.children).trans_kept (kept_store hbase o)

end Heap

theorem Change.next {given : List Handle} {target : Option Handle} {heap after : Heap}
    (hc : Change given target heap after) (ht : heap.Tidy) : heap.Next after := by
  cases hc with
  | none => exact (Heap.Kept.of_cells rfl).next
  | alloc o _ _ => exact Heap.next_alloc ht o
  | write _ _ _ => exact (heap.kept_replace _ _).next
  | writeMeasured _ _ _ => exact (heap.kept_replace _ _).next.trans_kept (Heap.kept_remeasure _ _)
  | anchor roots pins => exact (Heap.Kept.of_cells rfl).next
  | collect => exact Heap.next_collect ht

theorem HeapOp.next (op : HeapOp) {heap : Heap} (ht : heap.Tidy) : heap.Next (op.after heap) := by
  rcases op.after_cases heap with ⟨a, -, hc⟩ | ⟨o, -, ha⟩ |
    ⟨h, o', -, ha | ⟨o, -, -, ha⟩⟩ | ⟨h, -, ha⟩
  · exact hc.next ht
  · rw [ha]
    exact Heap.next_alloc ht o
  · rw [ha]
    exact (Heap.Kept.of_cells rfl).next
  · rw [ha]
    exact (heap.kept_replace h o').next
  · rw [ha]
    exact (heap.kept_remeasure h).next

theorem vacates_of_vacant {op : HeapOp} {heap : Heap} {i : Nat} {g : UInt32}
    (hc : heap.cells[i]? = some ⟨g, none⟩) : op.vacates heap i = false := by
  simp [HeapOp.vacates, hc]

theorem vacates_of_isLive {op : HeapOp} {heap : Heap} {r : Handle} (hl : heap.isLive r = true) :
    op.vacates heap r.index = !(op.after heap).isLive r := by
  obtain ⟨e, he⟩ := Heap.isLive_iff_entry?.mp hl
  simp [HeapOp.vacates, entryAt?_eq_some_iff.mp he]

/-- An operation takes the count of a cell one further exactly when it vacates the cell. -/
theorem HeapOp.cell_next (op : HeapOp) {heap : Heap} (ht : heap.Tidy) {i : Nat} {c : Cell}
    (hc : heap.cells[i]? = some c) :
    ∃ d, (op.after heap).cells[i]? = some d ∧
      d.generation = c.generation + (if op.vacates heap i then 1 else 0) := by
  obtain ⟨d, hd, hnext⟩ := op.next ht i c hc
  refine ⟨d, hd, ?_⟩
  obtain ⟨g, tenant⟩ := c
  cases tenant with
  | none =>
    rw [vacates_of_vacant hc]
    rcases hnext with ⟨hg, -⟩ | ⟨hs, -⟩
    · simpa using hg
    · cases hs
  | some e =>
    have hl : heap.isLive ⟨i, g⟩ = true :=
      Heap.isLive_iff_entry?.mpr ⟨e, entryAt?_eq_some_iff.mpr hc⟩
    have hv : op.vacates heap i = !(op.after heap).isLive ⟨i, g⟩ := vacates_of_isLive hl
    obtain ⟨g', tenant'⟩ := d
    rcases hnext with ⟨rfl, hin⟩ | ⟨-, rfl⟩
    · obtain ⟨e', rfl⟩ := Option.isSome_iff_exists.mp (hin rfl)
      have hl' : (op.after heap).isLive ⟨i, g'⟩ = true :=
        Heap.isLive_iff_entry?.mpr ⟨e', entryAt?_eq_some_iff.mpr hd⟩
      simp [hv, hl']
    · have hl' : (op.after heap).isLive ⟨i, g⟩ = false := by
        simp [Heap.isLive, Heap.get?, Heap.entry?, hd]
      simp [hv, hl']

/-! ### What stays is written in place -/

theorem Rewrite.mono {heap : Heap} {given given' : List Handle} {o o' : Object}
    (hw : Rewrite heap given o o') (hsub : given ⊆ given') : Rewrite heap given' o o' :=
  ⟨hw.kind, hw.notString, fun k hk => (hw.children k hk).imp id fun h => hsub h, hw.keys⟩

/-- An object that is there before and after a change is as it was, or it was the target and is
rewritten. -/
theorem Change.inPlace {given : List Handle} {target : Option Handle} {heap after : Heap}
    (hch : Change given target heap after) (ht : heap.Tidy) {r : Handle} {o : Object}
    (ho : heap.get? r = some o) (hl : after.isLive r = true) :
    ∃ q, after.get? r = some q ∧ (q = o ∨ target = some r ∧ Rewrite heap given o q) := by
  by_cases hkeep : target = some r
  · subst hkeep
    have hwrite : ∀ {k : Handle} {p p' : Object}, some r = some k → heap.get? k = some p →
        Rewrite heap given p p' → (heap.replace k p').get? r = some p' ∧
          Rewrite heap given o p' := by
      intro k p p' hk hp hw
      cases hk
      cases ho.symm.trans hp
      exact ⟨by rw [Heap.get?_replace ho, if_pos rfl], hw⟩
    cases hch with
    | none => exact ⟨o, ho, .inl rfl⟩
    | alloc x _ _ => exact ⟨o, (Heap.get?_alloc_of_isLive ht x ho hl).1, .inl rfl⟩
    | write hk hp hw =>
      obtain ⟨hget, hrew⟩ := hwrite hk hp hw
      exact ⟨_, hget, .inr ⟨rfl, hrew⟩⟩
    | writeMeasured hk hp hw =>
      obtain ⟨hget, hrew⟩ := hwrite hk hp hw
      exact ⟨_, by rw [Heap.get?_remeasure, hget], .inr ⟨rfl, hrew⟩⟩
    | anchor roots pins => exact ⟨o, ho, .inl rfl⟩
    | collect =>
      exact ⟨o, (Heap.get?_collect ht).mpr ⟨ho, (Heap.isLive_collect ht).mp hl⟩, .inl rfl⟩
  · exact ⟨o, hch.get?_of_isLive ht ho (.inl hkeep) hl, .inl rfl⟩

theorem HeapOp.inPlace (op : HeapOp) {heap : Heap} (ht : heap.Tidy) {r : Handle} {o : Object}
    (ho : heap.get? r = some o) (hl : (op.after heap).isLive r = true) :
    ∃ q, (op.after heap).get? r = some q ∧
      (q = o ∨ op.target? = some r ∧ Rewrite heap op.handles o q) := by
  by_cases hkeep : op.target? = some r
  · rcases op.after_cases heap with ⟨a, rfl, hch⟩ | ⟨x, rfl, -⟩ |
      ⟨k, o', rfl, ha | ⟨p, hp, hw, ha⟩⟩ | ⟨k, rfl, -⟩
    · exact hch.inPlace ht ho hl
    · cases hkeep
    · exact ⟨o, by rw [ha, ho], .inl rfl⟩
    · cases hkeep
      cases ho.symm.trans hp
      refine ⟨o', by rw [ha, Heap.get?_replace ho, if_pos rfl], .inr ⟨rfl, ?_⟩⟩
      exact hw.mono (List.subset_cons_self r o'.children)
    · cases hkeep
  · exact ⟨o, op.get?_of_isLive ht ho (.inl hkeep) hl, .inl rfl⟩

/-! ## 3. Whole runs -/

theorem generation_runOps (ops : List HeapOp) {heap : Heap} (ht : heap.Tidy) {i : Nat} {c : Cell}
    (hc : heap.cells[i]? = some c) :
    ∃ d, (runOps ops heap).cells[i]? = some d ∧
      d.generation = c.generation + UInt32.ofNat (vacatings i ops heap) := by
  induction ops generalizing heap c with
  | nil => exact ⟨c, hc, (UInt32.add_zero _).symm⟩
  | cons op ops ih =>
    obtain ⟨d, hd, hg⟩ := op.cell_next ht hc
    obtain ⟨d', hd', hg'⟩ := ih (op.after_tidy ht) hd
    refine ⟨d', hd', ?_⟩
    rw [hg', hg, vacatings, UInt32.ofNat_add, UInt32.add_assoc]
    split <;> rfl

/-- While its cell is not vacated an object stays behind its handle. -/
theorem inPlace_runOps (ops : List HeapOp) {heap : Heap} (ht : heap.Tidy) {r : Handle} {o : Object}
    (ho : heap.get? r = some o) (hstay : vacatings r.index ops heap = 0) :
    ∃ p, (runOps ops heap).get? r = some p ∧ InPlace r ops heap o p := by
  induction ops generalizing heap o with
  | nil => exact ⟨o, ho, .done ho⟩
  | cons op ops ih =>
    obtain ⟨hfirst, hrest⟩ := Nat.add_eq_zero_iff.mp hstay
    have hl : (op.after heap).isLive r = true := by
      rw [vacates_of_isLive (Heap.isLive_iff.mpr ⟨o, ho⟩)] at hfirst
      simpa using hfirst
    obtain ⟨q, hq, hcase⟩ := op.inPlace ht ho hl
    obtain ⟨p, hp, hin⟩ := ih (op.after_tidy ht) hq hrest
    exact ⟨p, hp, .step ho hcase hin⟩

/-- As long as the count of its cell has not come round, a handle that named an object names one
exactly when the cell was not vacated. -/
theorem isLive_runOps_iff (ops : List HeapOp) {heap : Heap} (ht : heap.Tidy) {r : Handle}
    (hl : heap.isLive r = true) (hperiod : vacatings r.index ops heap < 2 ^ 32) :
    (runOps ops heap).isLive r = true ↔ vacatings r.index ops heap = 0 := by
  obtain ⟨o, ho⟩ := Heap.isLive_iff.mp hl
  constructor
  · intro hlater
    obtain ⟨e, he⟩ := Heap.isLive_iff_entry?.mp hl
    obtain ⟨e', he'⟩ := Heap.isLive_iff_entry?.mp hlater
    obtain ⟨d, hd, hg⟩ := generation_runOps ops ht (entryAt?_eq_some_iff.mp he)
    cases hd.symm.trans (entryAt?_eq_some_iff.mp he')
    -- The count is the same as at first, so it went no step or all the way round.
    have hzero : UInt32.ofNat (vacatings r.index ops heap) = 0 := by
      simpa using hg
    have hmod := congrArg UInt32.toNat hzero
    rwa [UInt32.toNat_ofNat', UInt32.toNat_zero, Nat.mod_eq_of_lt hperiod] at hmod
  · intro hstay
    obtain ⟨p, hp, -⟩ := inPlace_runOps ops ht ho hstay
    exact Heap.isLive_iff.mpr ⟨p, hp⟩

/-! ## 4. Handles and their allocations -/

theorem HeapOp.Allocates.get? {op : HeapOp} {heap : Heap} {r : Handle} {o : Object}
    (ha : op.Allocates heap r o) (ht : heap.Tidy) :
    heap.get? r = none ∧ (op.after heap).get? r = some o := by
  have hr : (heap.alloc o).1 = r := congrArg Prod.fst ha
  have hafter : (heap.alloc o).2 = op.after heap := congrArg Prod.snd ha
  have hold := Heap.get?_alloc_self ht o
  have hnew := Heap.get?_alloc_new ht o
  rw [hr] at hold hnew
  rw [hafter] at hnew
  exact ⟨hold, hnew⟩

/-- Within a period no other allocation gives out the handle. -/
theorem not_allocates_of_period (before : List HeapOp) {op : HeapOp} (since : List HeapOp)
    {heap : Heap} (ht : heap.Tidy) {r : Handle} (hl : heap.isLive r = true)
    (hperiod : vacatings r.index (before ++ op :: since) heap < 2 ^ 32) (o : Object) :
    ¬ op.Allocates (runOps before heap) r o := by
  intro ha
  obtain ⟨hold, hnew⟩ := ha.get? (runOps_tidy before ht)
  have hsplit : before ++ op :: since = (before ++ [op]) ++ since := by simp
  rw [hsplit, vacatings_append] at hperiod
  have hrun : runOps (before ++ [op]) heap = op.after (runOps before heap) :=
    runOps_append before [op] heap
  -- The handle names an object afterwards, so the cell was not vacated up to then.
  have hlive : (runOps (before ++ [op]) heap).isLive r = true := by
    rw [hrun]
    exact Heap.isLive_iff.mpr ⟨o, hnew⟩
  have hstay := (isLive_runOps_iff (before ++ [op]) ht hl (by omega)).mp hlive
  rw [vacatings_append] at hstay
  -- So it named one before as well, and no allocation gives out a handle in use.
  have hbefore := (isLive_runOps_iff before ht hl (by omega)).mpr (by omega)
  obtain ⟨p, hp⟩ := Heap.isLive_iff.mp hbefore
  cases hold.symm.trans hp

/-- What holds, after the operations `since`, of a handle `r` that was given out for the object `o`
in a run from the empty heap, by the operation that followed `before` and led to `start`. -/
structure Tenure (tuning : Tuning) (before : List HeapOp) (op : HeapOp) (start : Heap)
    (since : List HeapOp) (r : Handle) (o : Object) : Prop where
  /-- The handle names an object exactly as long as its cell has not been vacated. -/
  live : (runOps since start).isLive r = true ↔ vacatings r.index since start = 0
  /-- That object is the one of the allocation, with what was written in place since. -/
  content : (runOps since start).isLive r = true →
    ∃ p, (runOps since start).get? r = some p ∧ InPlace r since start o p
  /-- No allocation since has given out the handle. -/
  later : ∀ (between rest : List HeapOp) (other : HeapOp) (p : Object),
    since = between ++ other :: rest → ¬ other.Allocates (runOps between start) r p
  /-- An allocation before can have given it out only a whole period ago. -/
  earlier : ∀ (first between : List HeapOp) (other : HeapOp) (p : Object),
    before = first ++ other :: between → other.Allocates (runOps first (.empty tuning)) r p →
    2 ^ 32 ≤ vacatings r.index (between ++ [op]) (other.after (runOps first (.empty tuning)))

/-- Handles are not recycled within a period: whatever a run does, and with whatever handles, one
that an allocation gives out names the object of that allocation or nothing, and no other
allocation gives it out, until its cell has been vacated 2^32 times. -/
theorem tenure_of_allocates {tuning : Tuning} {before since : List HeapOp} {op : HeapOp}
    {r : Handle} {o : Object} (ha : op.Allocates (runOps before (.empty tuning)) r o)
    (hperiod : vacatings r.index since (op.after (runOps before (.empty tuning))) < 2 ^ 32) :
    Tenure tuning before op (op.after (runOps before (.empty tuning))) since r o := by
  have ht := runOps_tidy before (Heap.empty_tidy tuning)
  obtain ⟨-, hnew⟩ := ha.get? ht
  have hl : (op.after (runOps before (.empty tuning))).isLive r = true :=
    Heap.isLive_iff.mpr ⟨o, hnew⟩
  have hiff := isLive_runOps_iff since (op.after_tidy ht) hl hperiod
  refine ⟨hiff, fun hlive => ?_, fun between rest other p hs => ?_, ?_⟩
  · exact inPlace_runOps since (op.after_tidy ht) hnew (hiff.mp hlive)
  · subst hs
    exact not_allocates_of_period between rest (op.after_tidy ht) hl hperiod p
  · rintro first between other p rfl hother
    by_contra hfew
    -- Seen from the earlier allocation, this one would come within its period.
    have hfirst := runOps_tidy first (Heap.empty_tidy tuning)
    obtain ⟨-, hnew'⟩ := hother.get? hfirst
    refine not_allocates_of_period between [] (other.after_tidy hfirst)
      (Heap.isLive_iff.mpr ⟨p, hnew'⟩) (Nat.lt_of_not_le hfew) o ?_
    rw [runOps_append] at ha
    exact ha

/-- A list is written, then collected, and its cell is let to a map. The handle of the list names
nothing from then on. -/
theorem tenure_of_allocates_relet :
    let empty : Heap := .empty .standard
    let first : HeapOp := .act (.newList [])
    let start := first.after (runOps [] empty)
    let since : List HeapOp :=
      [.act (.listPush (.object ⟨0, 0⟩) .null), .act .collect, .act .newMap]
    first.Allocates (runOps [] empty) ⟨0, 0⟩ (.list (.ofList [])) ∧
      vacatings 0 since start < 2 ^ 32 ∧ (runOps since start).isLive ⟨0, 0⟩ = false ∧
      (runOps since start).isLive ⟨0, 1⟩ = true ∧
      Tenure .standard [] first start since ⟨0, 0⟩ (.list (.ofList [])) := by
  intro empty first start since
  have ha : first.Allocates (runOps [] empty) ⟨0, 0⟩ (.list (.ofList [])) := rfl
  have hfew : vacatings 0 since start < 2 ^ 32 :=
    Nat.lt_of_le_of_lt (vacatings_le_length 0 since start) (by decide)
  let grown : Heap := { empty with
    cells := #[⟨0, some ⟨.list ⟨#[.null], 4, by decide⟩, 80, false⟩⟩], bytes := 80 }
  have hgrown : (HeapOp.act (.listPush (.object ⟨0, 0⟩) .null)).after start = grown := rfl
  -- Nothing is rooted, so the marking has nothing to do.
  have hcollected : grown.collect.2 =
      { empty with cells := #[⟨1, none⟩], free := [0], collections := 1 } := by
    unfold Heap.collect
    rw [show grown.anchors = [] from rfl, markFrom]
    simp [grown, empty, Heap.empty, Heap.sweep, sweptIndices, totalSize, Cell.sweep, Cell.size,
      Cell.isUnmarked, Heap.nextThreshold, Tuning.standard]
  have hlast : (runOps since start).cells = #[⟨1, some ⟨.map .empty, 80, false⟩⟩] := by
    show (((HeapOp.act (.listPush (.object ⟨0, 0⟩) .null)).after start).collect.2.alloc
      (.map .empty)).2.cells = _
    rw [hgrown, hcollected]
    rfl
  refine ⟨ha, hfew, ?_, ?_, tenure_of_allocates ha hfew⟩
  · simp [Heap.isLive, Heap.get?, Heap.entry?, hlast]
  · simp [Heap.isLive, Heap.get?, Heap.entry?, hlast]

end ScriptMachine
