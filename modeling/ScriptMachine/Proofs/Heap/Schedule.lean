import ScriptMachine.Proofs.Heap.Simulation

/-!
# Scripts do not see collections

A script names objects by variables and looks at them by reading, printing, hashing and comparing
them. When the collector runs, and so which cells objects live in, is up to the host. As long as
the script never reads an object that it let go, it sees the same under every choice.

Main definitions:
- `Instruction`, `Program`: scripts, line by line.
- `Observation`: what a line lets a script see. Of a handle it sees that there is one.
- `Program.run`: the observations of a run, unless it meets a fault.

Results:
1. `Instruction.step_twin`: a line keeps heaps and variables twins, and lets both runs see the same.
2. `Program.run_twin`: so does a program.
3. `Program.observations_eq`: all schedules of collections look alike.
-/

namespace ScriptMachine

open Heap (Twins)

/-! ## 1. Scripts -/

/-- What a line of a script writes for an operand. Objects have to be in a variable. -/
inductive Atom where
  | null
  | bool (b : Bool)
  | number (x : Double)
  | named (name : String)

/-- What the variables hold. -/
abbrev Env := String → Value

/-- The value of an operand. -/
def Atom.value (env : Env) : Atom → Value
  | null => .null
  | bool b => .bool b
  | number x => .number x
  | named name => env name

/-- Assigns values to names in order, as far as there are both. -/
def Env.assign (env : Env) : List String → List Value → Env
  | name :: names, v :: vs =>
    assign (fun other => if other = name then v else env other) names vs
  | _, _ => env

/-- One line of a script: an action, and the variables for the values that it finds. -/
structure Instruction where
  action : HeapAction Atom
  targets : List String

/-- A script, line by line. -/
abbrev Program := List Instruction

/-- A value without the number of its handle. -/
def Value.face : Value → Value
  | .object _ => .object ⟨0, 0⟩
  | v => v

/-- A finding without the numbers of its handles. -/
def Finding.face : Finding → Finding
  | .value v => .value v.face
  | .option v => .option (v.map Value.face)
  | .step (.next state v) => .step (.next state.face v.face)
  | other => other

/-- What a line lets a script see. -/
inductive Observation where
  | found (finding : Finding)
  | failed (e : EvalError)

/-- Carries out a line. A line that fails assigns nothing, and the script goes on; after a fault
there is nothing to go on with. -/
def Instruction.step (line : Instruction) (env : Env) (heap : Heap) :
    Option (Observation × Env × Heap) :=
  match (line.action.map (Atom.value env)).perform heap with
  | .ok finding after =>
    some (.found finding.face, env.assign line.targets finding.values, after)
  | .error (.error e) after => some (.failed e, env, after)
  | .error (.fault _) _ => none

/-- The observations of a run and the heap that it leaves. -/
def Program.run : Program → Env → Heap → Option (List Observation × Heap)
  | [], _, heap => some ([], heap)
  | line :: rest, env, heap =>
    (line.step env heap).bind fun (seen, env, heap) =>
      (run rest env heap).map fun (later, last) => (seen :: later, last)

/-- The run of a script from the beginning. All variables are null then. -/
def Program.start (program : Program) (tuning : Tuning) : Option (List Observation × Heap) :=
  program.run (fun _ => .null) (.empty tuning)

/-! ## 2. Two runs -/

variable {ρ : Pairing} {heap heap' : Heap} {env env' : Env}

theorem Atom.value_twin (henv : ∀ name, (env name).Twin ρ (env' name)) (x : Atom) :
    (x.value env).Twin ρ (x.value env') := by
  cases x with
  | null => exact .null
  | bool b => exact .bool b
  | number x => exact .number x
  | named name => exact henv name

theorem Env.assign_twin (henv : ∀ name, (env name).Twin ρ (env' name))
    (names : List String) {vs ws : List Value} (hvs : List.Forall₂ (Value.Twin ρ) vs ws)
    (name : String) :
    (env.assign names vs name).Twin ρ (env'.assign names ws name) := by
  induction hvs generalizing names env env' with
  | nil => cases names <;> exact henv name
  | cons hvw _ ih =>
    cases names with
    | nil => exact henv name
    | cons target names =>
      refine ih (fun other => ?_) names
      split
      · exact hvw
      · exact henv other

theorem Finding.Twin.face_eq {x y : Finding} (h : x.Twin ρ y) : x.face = y.face := by
  have hvalue : ∀ {v w : Value}, v.Twin ρ w → v.face = w.face := by
    intro v w hv
    cases hv <;> rfl
  cases h with
  | value hv => exact congrArg Finding.value (hvalue hv)
  | option hv =>
    cases hv with
    | none => rfl
    | some hv => exact congrArg (fun v => Finding.option (some v)) (hvalue hv)
  | step hs =>
    cases hs with
    | next hstate hv =>
      unfold Finding.face
      dsimp only
      rw [hvalue hstate, hvalue hv]
    | done => rfl
  | _ => rfl

/-- A line lets both runs see the same, and what it assigns agrees. -/
theorem Instruction.step_twin (T : Twins ρ heap heap')
    (henv : ∀ name, (env name).Twin ρ (env' name)) (line : Instruction)
    {seen seen' : Observation} {next next' : Env} {after after' : Heap}
    (hs : line.step env heap = some (seen, next, after))
    (hs' : line.step env' heap' = some (seen', next', after'))
    (hearly : after.Early) (hearly' : after'.Early) :
    seen = seen' ∧ ∃ σ, Twins σ after after' ∧ ∀ name, (next name).Twin σ (next' name) := by
  have hsim := HeapAction.sim T line.action (Atom.value_twin henv)
  unfold Sim at hsim
  unfold Instruction.step at hs hs'
  revert hs hs' hsim
  generalize (line.action.map (Atom.value env)).perform heap = r
  generalize (line.action.map (Atom.value env')).perform heap' = r'
  intro hs hs' hsim
  -- Both runs found something, or both were refused; the mixed cases are faults or excluded.
  rcases r with ⟨x, a⟩ | ⟨e | f, a⟩
  · rcases r' with ⟨y, b⟩ | ⟨e' | f', b⟩
    · cases hs
      cases hs'
      obtain ⟨σ, hσ, T', hxy⟩ := hsim hearly hearly'
      refine ⟨congrArg Observation.found hxy.face_eq, σ, T', fun name => ?_⟩
      exact Env.assign_twin (fun other => (henv other).mono hσ) line.targets hxy.values name
    · exact hsim.elim
    · cases hs'
  · rcases r' with ⟨y, b⟩ | ⟨e' | f', b⟩
    · exact hsim.elim
    · cases hs
      cases hs'
      exact ⟨congrArg Observation.failed hsim.1, ρ, hsim.2, henv⟩
    · cases hs'
  · cases hs

theorem Instruction.step_collections {line : Instruction} {seen : Observation} {next : Env}
    {after : Heap} (hs : line.step env heap = some (seen, next, after)) :
    heap.collections ≤ after.collections := by
  have hchange := ((line.action.map (Atom.value env)).changes heap).heapAfter
  have hle := hchange.collections_le
  unfold heapAfter at hle
  unfold Instruction.step at hs
  revert hs hle
  generalize (line.action.map (Atom.value env)).perform heap = r
  intro hs hle
  rcases r with ⟨x, a⟩ | ⟨e | f, a⟩
  · cases hs
    exact hle
  · cases hs
    exact hle
  · cases hs

theorem Program.run_cons {line : Instruction} {rest : Program} {seen : List Observation}
    {last : Heap} (hr : Program.run (line :: rest) env heap = some (seen, last)) :
    ∃ first next after later, line.step env heap = some (first, next, after) ∧
      Program.run rest next after = some (later, last) ∧ seen = first :: later := by
  unfold Program.run at hr
  obtain ⟨⟨first, next, after⟩, hs, hrest⟩ := Option.bind_eq_some_iff.mp hr
  obtain ⟨⟨later, _⟩, hlater, heq⟩ := Option.map_eq_some_iff.mp hrest
  cases heq
  exact ⟨first, next, after, later, hs, hlater, rfl⟩

theorem Program.run_collections {program : Program} {seen : List Observation} {last : Heap}
    (hr : program.run env heap = some (seen, last)) :
    heap.collections ≤ last.collections := by
  induction program generalizing env heap seen with
  | nil =>
    cases hr
    exact Nat.le_refl _
  | cons line rest ih =>
    obtain ⟨first, next, after, later, hs, hrest, -⟩ := Program.run_cons hr
    exact Nat.le_trans (Instruction.step_collections hs) (ih hrest)

/-- Runs that begin as twins see the same to the end. -/
theorem Program.run_twin (T : Twins ρ heap heap')
    (henv : ∀ name, (env name).Twin ρ (env' name)) (program : Program)
    {seen seen' : List Observation} {last last' : Heap}
    (hr : program.run env heap = some (seen, last))
    (hr' : program.run env' heap' = some (seen', last')) (hearly : last.Early)
    (hearly' : last'.Early) : seen = seen' := by
  induction program generalizing ρ env env' heap heap' seen seen' with
  | nil =>
    cases hr
    cases hr'
    rfl
  | cons line rest ih =>
    obtain ⟨first, next, after, later, hs, hrest, rfl⟩ := Program.run_cons hr
    obtain ⟨first', next', after', later', hs', hrest', rfl⟩ := Program.run_cons hr'
    -- Collections are only ever added, so that few at the end are few all along.
    have hbefore : after.Early := Nat.lt_of_le_of_lt (Program.run_collections hrest) hearly
    have hbefore' : after'.Early := Nat.lt_of_le_of_lt (Program.run_collections hrest') hearly'
    obtain ⟨rfl, σ, T', hnext⟩ := line.step_twin T henv hs hs' hbefore hbefore'
    rw [ih T' hnext hrest hrest']

/-! ## 3. All schedules -/

/-- An allocation under stress, while nothing is kept: every object goes. -/
theorem Heap.alloc_of_stress {heap : Heap} {o : Object} (hs : heap.tuning.stress = true)
    (ha : heap.anchors = []) (ho : o.children = []) :
    heap.alloc o = store { heap.sweep with
      threshold := nextThreshold heap.tuning heap.sweep.bytes
      collections := heap.collections + 1 } o := by
  obtain ⟨hroots, hpins⟩ := List.append_eq_nil_iff.mp ha
  have hkept : heap.collectKeeping [] = { heap.sweep with
      threshold := nextThreshold heap.tuning heap.sweep.bytes
      collections := heap.collections + 1 } := by
    unfold collectKeeping collect anchors
    rw [List.nil_append, hroots, hpins, List.nil_append, markFrom]
    simp [unpin, sweep, hroots, hpins]
  unfold alloc needsCollection
  rw [hs, Bool.true_or, if_pos rfl, ho, hkept]

/-- The schedule of collections is invisible to scripts: whatever the tunings of two heaps are, a
script whose runs meet no stale handle sees the same on both, provided that neither run makes so
many collections that the generations of a cell could come round again. -/
theorem Program.observations_eq (program : Program) (tuning tuning' : Tuning)
    {seen seen' : List Observation} {heap heap' : Heap}
    (hr : program.start tuning = some (seen, heap))
    (hr' : program.start tuning' = some (seen', heap'))
    (hfew : heap.collections < UInt32.size) (hfew' : heap'.collections < UInt32.size) :
    seen = seen' :=
  Program.run_twin (Heap.empty_twins tuning tuning') (fun _ => .null) program hr hr' hfew hfew'

/-- A range is replaced by another in a variable. On a heap that collects before every allocation
the second one moves into the cell of the first. -/
theorem Program.observations_eq_of_stress :
    let program : Program :=
      [⟨.newRange 0.0 1.0, ["x"]⟩, ⟨.newRange 1.0 2.0, ["x"]⟩, ⟨.typeName (.named "x"), []⟩]
    ∃ seen seen' heap heap', program.start .standard = some (seen, heap) ∧
      program.start .stressed = some (seen', heap') ∧ heap.isLive ⟨1, 0⟩ = true ∧
      heap'.isLive ⟨0, 1⟩ = true ∧ heap.collections = 0 ∧ heap'.collections = 2 ∧ seen = seen' := by
  intro program
  let tenant (a b : Double) : Option Entry := some ⟨.range a b, 80, false⟩
  let first : Heap := { Heap.empty .stressed with
    cells := #[⟨0, tenant 0.0 1.0⟩], bytes := 80, collections := 1 }
  let second : Heap := { first with cells := #[⟨1, tenant 1.0 2.0⟩], collections := 2 }
  have hfirst : (Heap.empty .stressed).alloc (.range 0.0 1.0) = (⟨0, 0⟩, first) := by
    rw [Heap.alloc_of_stress rfl rfl rfl]
    simp [first, tenant, Heap.empty, Heap.sweep, Heap.store, sweptIndices, totalSize,
      Heap.nextThreshold, Tuning.stressed, Tuning.standard, Object.footprint, Object.payload]
  have hsecond : first.alloc (.range 1.0 2.0) = (⟨0, 1⟩, second) := by
    rw [Heap.alloc_of_stress rfl rfl rfl]
    simp [first, second, tenant, Heap.empty, Heap.sweep, Heap.store, sweptIndices, totalSize,
      Heap.nextThreshold, Tuning.stressed, Tuning.standard, Object.footprint, Object.payload,
      Cell.isUnmarked, Cell.sweep, Cell.size]
  have hnew : ∀ (a b : Double) (env : Env) (heap : Heap),
      (Instruction.mk (.newRange a b) ["x"]).step env heap =
        some (.found (.value (.object ⟨0, 0⟩)),
          env.assign ["x"] [.object (heap.alloc (.range a b)).1], (heap.alloc (.range a b)).2) :=
    fun _ _ _ _ => rfl
  have hstressed : program.start .stressed = some
      ([.found (.value (.object ⟨0, 0⟩)), .found (.value (.object ⟨0, 0⟩)), .found (.text "Range")],
        second) := by
    unfold Program.start
    simp only [program, Program.run, hnew, hfirst, hsecond, Option.bind_some]
    rfl
  exact ⟨_, _, _, second, rfl, hstressed, rfl, rfl, rfl, rfl,
    observations_eq program .standard .stressed rfl hstressed (by decide) (by decide)⟩

end ScriptMachine
