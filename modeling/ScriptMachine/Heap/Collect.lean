import ScriptMachine.Heap.Basic

/-!
# Collection

A collection marks what the roots and pins reach and empties every other cell. Handles that have
outlived their objects may occur anywhere, and are passed over.

Main definitions:
- `markFrom`: marks what a work list reaches. Each step marks an object or shortens the list.
- `Cell.sweep`: what becomes of a cell.
- `Heap.collect`: marks, sweeps, and sets the next threshold.
-/

namespace ScriptMachine

/-! ## Marking -/

namespace Cell

/-- Whether the cell has a tenant that has not been reached. -/
def isUnmarked (c : Cell) : Bool :=
  match c.entry with
  | some entry => !entry.marked
  | none => false

/-- The cell with its tenant marked. -/
def mark (c : Cell) : Cell :=
  { c with entry := c.entry.map fun entry => { entry with marked := true } }

/-- The handles that the tenant holds. -/
def children (c : Cell) : List Handle :=
  match c.entry with
  | some entry => entry.object.children
  | none => []

theorem isUnmarked_mark (c : Cell) : c.mark.isUnmarked = false := by
  cases h : c.entry <;> simp [mark, isUnmarked, h]

end Cell

/-- Marking an unmarked cell leaves fewer of them. -/
theorem countP_isUnmarked_mark {cells : Array Cell} {i : Nat} (bound : i < cells.size)
    (unmarked : cells[i].isUnmarked = true) :
    (cells.set i cells[i].mark bound).countP Cell.isUnmarked < cells.countP Cell.isUnmarked := by
  have positive : 0 < cells.countP Cell.isUnmarked :=
    Array.countP_pos_iff.mpr ⟨cells[i], Array.getElem_mem bound, unmarked⟩
  rw [Array.countP_set]
  simp only [unmarked, Cell.isUnmarked_mark, if_true, Bool.false_eq_true, if_false]
  omega

/-- Marks everything that the handles on the work list reach. A handle whose object is gone or
marked already adds nothing. -/
def markFrom (cells : Array Cell) (gray : List Handle) : Array Cell :=
  match gray with
  | [] => cells
  | h :: rest =>
    if bound : h.index < cells.size then
      if _fresh : cells[h.index].generation = h.generation ∧ cells[h.index].isUnmarked = true then
        markFrom (cells.set h.index cells[h.index].mark) (cells[h.index].children ++ rest)
      else
        markFrom cells rest
    else
      markFrom cells rest
termination_by (cells.countP Cell.isUnmarked, gray.length)
decreasing_by
  · exact Prod.Lex.left _ _ (countP_isUnmarked_mark bound _fresh.2)
  · exact Prod.Lex.right _ (by simp)
  · exact Prod.Lex.right _ (by simp)

/-! ## Sweeping -/

namespace Cell

/-- What a sweep makes of a cell: a marked tenant stays, is unmarked and measured anew; an
unmarked one goes, and the cell awaits its next generation. -/
def sweep (c : Cell) : Cell :=
  match c.entry with
  | none => c
  | some entry =>
    if entry.marked then
      { c with entry := some ⟨entry.object, entry.object.footprint, false⟩ }
    else
      ⟨c.generation + 1, none⟩

/-- The measured size of the tenant. -/
def size (c : Cell) : Nat :=
  match c.entry with
  | some entry => entry.size
  | none => 0

end Cell

/-- The sum of the measured sizes. -/
def totalSize (cells : Array Cell) : Nat :=
  cells.toList.foldr (fun cell total => cell.size + total) 0

/-- The indices of the cells that a sweep empties, in ascending order. -/
def sweptIndices (cells : Array Cell) : List Nat :=
  (cells.toList.zipIdx.filter (·.1.isUnmarked)).map (·.2)

/-- The sizes of the tenants that a sweep lets go. -/
def sweptBytes (cells : Array Cell) : Nat :=
  cells.toList.foldr (fun cell total => (if cell.isUnmarked then cell.size else 0) + total) 0

namespace Heap

/-- Empties the cells of unmarked objects and measures the survivors anew. The last cell emptied
is the first to be used again. -/
def sweep (heap : Heap) : Heap :=
  let swept := heap.cells.map Cell.sweep
  { heap with
    cells := swept
    free := (sweptIndices heap.cells).reverse ++ heap.free
    bytes := heap.bytes + totalSize swept - totalSize heap.cells }

/-- The largest number of bytes that can be counted, in 64 bits. -/
def maxBytes : Nat := 18446744073709551615

/-- The threshold for a heap whose survivors have `live` bytes. The percentage that they may grow to
is a number of 64 bits as well, and one that is too large starts again from zero; the product stops
at the largest number. -/
def nextThreshold (tuning : Tuning) (live : Nat) : Nat :=
  let percent := (100 + tuning.growthPercent) % (maxBytes + 1)
  max (min (live * percent) maxBytes / 100) tuning.minThreshold

example : nextThreshold ⟨0, 0, 75, false⟩ 1000 = 1750 := by decide
example : nextThreshold ⟨0, 0, maxBytes, false⟩ 1000 = 990 := by decide

/-- The handles from which everything that stays is reached. -/
def anchors (heap : Heap) : List Handle :=
  heap.roots ++ heap.pins

/-- Removes everything that the roots and pins do not reach. Gives the number of bytes freed. -/
def collect (heap : Heap) : Nat × Heap :=
  let marked := { heap with cells := markFrom heap.cells heap.anchors }
  let swept := marked.sweep
  (sweptBytes marked.cells,
    { swept with
      threshold := nextThreshold heap.tuning swept.bytes
      collections := heap.collections + 1 })

end Heap

end ScriptMachine
