import ScriptMachine.Heap.Basic
import ScriptMachine.Number.Text
import ScriptMachine.Text.Quoted

/-!
# The text of a value

A value has a plain text and a quoted one; they differ for strings only. Containers write their
elements quoted. A container can be inside itself, so the writing keeps a stack of the containers
that it is inside of: what it meets a second time on its way in is elided, and what merely occurs
twice is written twice.

The writing follows handles. It comes to an end because each container that it goes into leaves
fewer that it is not inside of, and for this it has to know its stack: a page has the containers in
its type, and a stack that is known to be these.

Main definitions:
- `Heap.outside`: the objects that a writing is not inside of.
- `Page`, `Writing`: a text in the making, and what adds to it.
- `writeValue`: writes a value.
- `Heap.render`: the text of a value.
-/

namespace ScriptMachine

/-! ## What is left to enter -/

namespace Heap

/-- The handles of objects that a writing is not inside of. -/
def outside (heap : Heap) (inside : List Handle) : List Handle :=
  heap.liveHandles.filter (· ∉ inside)

theorem mem_liveHandles_of_get? {heap : Heap} {h : Handle} {o : Object}
    (ho : heap.get? h = some o) : h ∈ heap.liveHandles := by
  simp only [get?, entry?] at ho
  split at ho
  · next cell hcell =>
    split at ho
    · next hgen =>
      cases hentry : cell.entry with
      | none => simp [hentry] at ho
      | some entry =>
        simp only [liveHandles, List.mem_filterMap]
        refine ⟨(cell, h.index), ?_, ?_⟩
        · rw [List.mem_zipIdx_iff_getElem?]
          simpa using hcell
        · simp [hentry, hgen]
    · simp at ho
  · simp at ho

/-- Entering a container leaves fewer objects outside. -/
theorem length_outside_cons {heap : Heap} {h : Handle} {o : Object} {inside : List Handle}
    (ho : heap.get? h = some o) (hnew : h ∉ inside) :
    (heap.outside (h :: inside)).length < (heap.outside inside).length := by
  have hmem : h ∈ heap.outside inside := by
    simp [outside, mem_liveHandles_of_get? ho, hnew]
  have hless : heap.outside (h :: inside) = (heap.outside inside).filter (· ≠ h) := by
    simp only [outside, List.filter_filter]
    congr 1
    funext k
    by_cases hk : k = h <;> simp [hk]
  rw [hless]
  exact List.length_filter_lt_length_iff_exists.mpr ⟨h, hmem, by simp⟩

end Heap

/-! ## Pages -/

/-- A text in the making, with the stack of the containers that the writing is inside of, the
innermost first. -/
structure Page (inside : List Handle) where
  text : String
  visiting : List Handle
  visiting_eq : visiting = inside

namespace Page

variable {inside : List Handle}

/-- Goes into a container. -/
def enter (page : Page inside) (h : Handle) : Page (h :: inside) where
  text := page.text
  visiting := h :: page.visiting
  visiting_eq := by rw [page.visiting_eq]

/-- Goes out of the innermost container. -/
def leave {h : Handle} (page : Page (h :: inside)) : Page inside where
  text := page.text
  visiting := page.visiting.tail
  visiting_eq := by rw [page.visiting_eq, List.tail_cons]

end Page

/-- What changes a page, and leaves whatever it enters. It may meet a fault. -/
abbrev Writing (inside : List Handle) := StateT (Page inside) (Except Fault)

namespace Writing

variable {inside : List Handle}

/-- Adds to the text. -/
def write (text : String) : Writing inside Unit :=
  modify fun page => { page with text := page.text ++ text }

/-- Goes into a container, and out of it again after `body`. -/
def within (h : Handle) (body : Writing (h :: inside) Unit) : Writing inside Unit := fun page => do
  let ((), after) ← body.run (page.enter h)
  return ((), after.leave)

end Writing

/-! ## Values -/

open Writing in
/-- Writes a value. -/
def writeValue (heap : Heap) {inside : List Handle} (value : Value) (quoted : Bool) :
    Writing inside Unit :=
  match value with
  | .null => write "null"
  | .bool b => write (if b then "true" else "false")
  | .number x => write (String.ofList (numberText x))
  | .object h =>
    match _live : heap.get? h with
    | none => throw (.staleHandle h)
    | some (.string s) => write (String.ofList (if quoted then Quoted.encode s.text else s.text))
    | some (.list elements) => do
      let page ← get
      if _known : h ∈ page.visiting then
        write "[...]"
      else
        within h do
          write "["
          for (element, i) in elements.toList.zipIdx do
            if 0 < i then write ", "
            writeValue heap element true
          write "]"
    | some (.map table) => do
      let page ← get
      if _known : h ∈ page.visiting then
        write "\x7b...\x7d"
      else
        within h do
          write "\x7b"
          for ((key, entry), i) in table.entries.zipIdx do
            if 0 < i then write ", "
            writeValue heap key true
            write ": "
            writeValue heap entry true
          write "\x7d"
    | some (.range start stop) =>
      write ("[Range:" ++ String.ofList (numberText start) ++ ".."
        ++ String.ofList (numberText stop) ++ "]")
    | some (.function f) => write ("[Func:" ++ f.name ++ "]")
    | some (.script s) => write ("[Module:" ++ s.name ++ "]")
    | some (.fiber _) => write "[Fiber]"
    | some (.foreign f) => write ("[UserObj:" ++ f.typeName ++ "]")
termination_by (heap.outside inside).length
decreasing_by all_goals exact Heap.length_outside_cons _live (page.visiting_eq ▸ _known)

/-- The text of a value, with strings quoted or plain. -/
def Heap.render (heap : Heap) (value : Value) (quoted : Bool) : Except Fault String := do
  let ((), page) ← writeValue heap value quoted |>.run ⟨"", [], rfl⟩
  return page.text

end ScriptMachine
