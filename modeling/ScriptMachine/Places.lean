/-!
# Places in sequences

Two things that are done by place: to search from the end, and to take an element out of a sequence
without moving more than one other.

Main definitions:
- `findLastIdx?`: where a search from the end stops.
- `swapRemove`: the last element takes the place of another.
-/

namespace ScriptMachine

variable {α : Type}

/-- The place of the last element that passes the test. -/
def findLastIdx? (test : α → Bool) (l : List α) : Option Nat :=
  (l.reverse.findIdx? test).map fun passed => l.length - 1 - passed

/-- Takes out the element at a place by putting the last one there. -/
def swapRemove (l : List α) (place : Nat) : List α :=
  match l.getLast? with
  | some last => (l.set place last).dropLast
  | none => l

example : findLastIdx? (· == 3) [3, 1, 3, 2] = some 2 := by decide
example : swapRemove [5, 6, 7, 8] 1 = [5, 8, 7] := by decide
example : swapRemove [5, 6, 7] 2 = [5, 6] := by decide

end ScriptMachine
