import ScriptMachine.Heap.Alloc
import ScriptMachine.Operand

/-!
# Iteration

An iteration is driven from outside: the caller holds the state, null at first and then a count of
completed steps (for a map, one past the slot of the last key). Nothing is kept on the container,
so iterations do not disturb each other.

Main definitions:
- `iterate`: one step over a string, list, map or range.
- `Cursor`: an iteration that remembers its state and stops for good at the end.
-/

namespace ScriptMachine

/-- The outcome of a step. -/
inductive IterationStep where
  | next (state value : Value)
  | done
deriving DecidableEq

/-- The number of completed steps that a state stands for. A negative one stands for none. -/
def completedSteps : Value → Except EvalError Nat
  | .null => .ok 0
  | state => do return (← requireInteger state "Iterator state").toNat

/-- A step that yields `value` and leaves `completed` steps done. -/
def IterationStep.yield (value : Value) (completed : Nat) : IterationStep :=
  .next (.number (.ofNat completed)) value

/-- One step of a range: from `start` by ones toward `stop`, which is never reached. A range that
starts at a NaN is empty; one that stops at a NaN descends and meets no end. -/
def rangeStep (start stop : Double) (step : Nat) : IterationStep :=
  let offset := Double.ofNat step
  let ascending := decide (start ≤ stop)
  let current := if ascending then start + offset else start - offset
  let finished := if ascending then decide (stop ≤ current) else decide (current ≤ stop)
  if finished || current.isNaN then .done else .yield (.number current) (step + 1)

/-- Advances the iteration of a container from a state. -/
def iterate (container state : Value) : HeapM IterationStep := do
  match container with
  | .null => throw (.error (.notIterable "Null"))
  | .bool _ => throw (.error (.notIterable "Boolean"))
  | .number _ => throw (.error (.notIterable "Number"))
  | .object h =>
    let step ← completedSteps state
    match ← (← get).get h with
    | .string s =>
      match s.bytes[step]? with
      | some byte => return .yield (← newString [byte]) (step + 1)
      | none => return .done
    | .list elements =>
      match elements.get? step with
      | some element => return .yield element (step + 1)
      | none => return .done
    | .map table =>
      match table.nextOccupied? step with
      | some (slot, key) => return .yield key (slot + 1)
      | none => return .done
    | .range start stop => return rangeStep start stop step
    | other => throw (.error (.notIterable other.kind.name))

/-- An iteration in progress. Its container has to be kept alive by whoever advances it. -/
structure Cursor where
  container : Value
  state : Value
  finished : Bool
deriving DecidableEq

namespace Cursor

/-- Before the first element. -/
def start (container : Value) : Cursor :=
  ⟨container, .null, false⟩

/-- Back before the first element. -/
def restart (c : Cursor) : Cursor :=
  start c.container

/-- The next element, or an error in its place, or nothing. After an error or the end there is
nothing more. -/
def advance (c : Cursor) : HeapM (Option (Except EvalError Value) × Cursor) := do
  if c.finished then
    return (none, c)
  else
    match ← attempt (iterate c.container c.state) with
    | .ok (.next state value) => return (some (.ok value), { c with state })
    | .ok .done => return (none, { c with finished := true })
    | .error e => return (some (.error e), { c with finished := true })

end Cursor

end ScriptMachine
