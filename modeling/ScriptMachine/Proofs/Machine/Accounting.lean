import ScriptMachine.Proofs.Heap.Ledger
import ScriptMachine.Proofs.Machine.Registration
import ScriptMachine.Session.Natives

/-!
# The byte count over whole runs

The books of a heap are right whatever is done with it: by scripts, by a host that changes objects
in place and measures them or not, by registrations, and by native code that is called. Native code
is not known here. All that matters is that it works on the heap through the heap's own operations,
and so does every core function.

Main definitions:
- `Machine.HeapMove`: a step that makes an elementary change to the heap, or none.
- `Linkage.Honest`: native code takes such steps only.
- `Heap.ComesAbout`: the heaps that runs lead to.

Results:
1. `callNative_honest`: a call of honest code takes such steps only, however deep its calls go.
2. `Linkage.withHost_honest`, `sessionLinkage_honest`: the core functions are honest, and so are the
   functions of a session, which call others.
3. `Heap.books_of_comesAbout`: the books of every heap are right.
-/

namespace ScriptMachine

/-! ## 1. Steps of a machine -/

/-- A step of the machine that makes an elementary change to its heap, or none. -/
def Machine.HeapMove (m after : Machine) : Prop :=
  after.heap = m.heap ∨ m.heap.Move after.heap

theorem Machine.moves_of_heapMoves {m after : Machine}
    (h : Relation.ReflTransGen HeapMove m after) : m.heap.Moves after.heap := by
  induction h with
  | refl => exact .refl
  | tail _ hstep ih =>
    rcases hstep with hsame | hmove
    · rw [hsame]
      exact ih
    · exact ih.tail hmove

theorem Heap.QuietMove.move {heap after : Heap} (h : heap.QuietMove after) : heap.Move after := by
  cases h with
  | alloc o => exact .alloc o
  | collect => exact .collect
  | list new _ => exact .replace _ _
  | measure h => exact .remeasure h
  | pin pins => exact .anchor heap.roots pins

theorem Machine.QuietMove.heapMove {m after : Machine} (h : m.QuietMove after) :
    m.HeapMove after := by
  cases h with
  | heap h => exact .inr h.move
  | stack stack _ => exact .inr (.replace _ _)
  | write text => exact .inl (m.write_heap text)

theorem Machine.Registers.moves {m after : Machine} (h : m.Registers after) :
    m.heap.Moves after.heap := by
  cases h with
  | nothing => exact .refl
  | builtin _ _ ha =>
    obtain ⟨rfl, rfl⟩ := Prod.mk.inj ha
    exact (Relation.ReflTransGen.single (.alloc _)).tail (.anchor _ _)
  | module _ ha =>
    obtain ⟨rfl, rfl⟩ := Prod.mk.inj ha
    exact (Relation.ReflTransGen.single (.alloc _)).tail (.anchor _ _)
  | function _ _ ha _ =>
    obtain ⟨rfl, rfl⟩ := Prod.mk.inj ha
    exact ((Relation.ReflTransGen.single (.alloc _)).tail (.replace _ _)).tail (.remeasure _)
  | global _ _ => exact (Relation.ReflTransGen.single (.replace _ _)).tail (.remeasure _)

/-! ## 2. Native code -/

open Machine

variable {α : Type}

/-- Native code that changes the heap by elementary changes only, as long as the calls it makes do.
The heap keeps its count to itself, so native code has no other way. -/
def Honest (body : NativeM α) : Prop :=
  ∀ frame, (∀ function args, ByMoves HeapMove (frame.call function args)) →
    ByMoves HeapMove (body frame)

/-- All native code is honest. -/
def Linkage.Honest (link : Linkage) : Prop :=
  ∀ entry, ScriptMachine.Honest (link entry)

/-- A call of honest code makes elementary changes only, however deep its calls go. -/
theorem callNative_honest {link : Linkage} (hl : link.Honest) (depth : Nat) (function : Value)
    (args : List Value) : ByMoves HeapMove (callNative link depth function args) := by
  induction depth generalizing function args with
  | zero => exact .throw _
  | succ depth ih =>
    intro m
    refine callNative_goes (fun _ _ => QuietMove.heapMove) fun entry base _ => ?_
    exact hl entry ⟨base, args.length, callNative link depth⟩ fun function args => ih function args

theorem Honest.of_quiet {body : NativeM α} (hb : NativeByMoves QuietMove body) : Honest body :=
  fun frame _ m => (hb frame m).mono fun _ _ => QuietMove.heapMove

theorem honestRules : CallRules Honest where
  pure a := .of_quiet (quietRules.pure a)
  throw e := .of_quiet (quietRules.throw e)
  bind hb hf := fun frame hcall => .bind (hb frame hcall) fun a => hf a frame hcall
  frame := .of_quiet quietRules.frame
  get := .of_quiet quietRules.get
  read x := .of_quiet (quietRules.read x)
  returnValue v := .of_quiet (quietRules.returnValue v)
  newObject o := .of_quiet (quietRules.newObject o)
  collectNow := .of_quiet quietRules.collectNow
  print text := .of_quiet (quietRules.print text)
  call function args := fun _ hcall => hcall function args
  tryCall function args := fun _ hcall => (hcall function args).attempt

/-- The core functions are honest, and so is the linkage if the host's functions are. -/
theorem Linkage.withHost_honest {host : String → Option (NativeM Unit)}
    (hhost : ∀ name body, host name = some body → ScriptMachine.Honest body) :
    (Linkage.withHost host).Honest :=
  honestRules.withHost hhost

/-- The linkage of a session is honest. -/
theorem sessionLinkage_honest : sessionLinkage.Honest :=
  Linkage.withHost_honest fun _ _ => honestRules.hostFunction

/-! ## 3. Runs -/

/-- The heaps that runs lead to. A run goes on from what an operation leaves, however the operation
ends. -/
inductive Heap.ComesAbout : Heap → Prop
  | start (tuning : Tuning) : ComesAbout (.empty tuning)
  | operation {heap : Heap} (op : HeapOp) : ComesAbout heap → ComesAbout (op.after heap)
  /-- Any object is written in the place of any other, and not measured. -/
  | replacement {heap : Heap} (h : Handle) (o : Object) : ComesAbout heap →
      ComesAbout (heap.replace h o)
  | registration {m : Machine} (op : SetupOp) : ComesAbout m.heap → ComesAbout (op.after m).heap
  /-- A call begins: this is the heap that the native code finds. -/
  | entry {m : Machine} (args : List Value) : ComesAbout m.heap →
      ComesAbout (stateAfter (pushWindow args) m).heap
  | call {m : Machine} {link : Linkage} (depth : Nat) (function : Value) (args : List Value) :
      link.Honest → ComesAbout m.heap →
      ComesAbout (stateAfter (callNative link depth function args) m).heap

namespace Heap

theorem ComesAbout.balanced {heap : Heap} (h : heap.ComesAbout) : heap.Tidy ∧ heap.Balanced := by
  induction h with
  | start tuning => exact ⟨empty_tidy tuning, empty_balanced tuning⟩
  | @operation heap op _ ih => exact (op.moves heap).balanced ih.1 ih.2
  | replacement h o _ ih => exact ⟨replace_tidy ih.1 h o, replace_balanced ih.2 h o⟩
  | registration op _ ih => exact (op.registers ih.1).moves.balanced ih.1 ih.2
  | @entry m args _ ih =>
    have hmoves : Goes HeapMove (pushWindow args) m :=
      (pushWindow_quiet args m).mono fun _ _ => QuietMove.heapMove
    exact (moves_of_heapMoves hmoves).balanced ih.1 ih.2
  | @call m link depth function args hl _ ih =>
    exact (moves_of_heapMoves (callNative_honest hl depth function args m)).balanced ih.1 ih.2

/-- In every heap that any run leads to, the count is the sum of the measured sizes, no subtraction
takes off more than is there, and a collection tells what it frees and leaves what stays. -/
theorem books_of_comesAbout {heap : Heap} (h : heap.ComesAbout) : heap.Books :=
  h.balanced.2.books h.balanced.1

/-- Two builtins are registered, and one calls the other; then a list grows in place. The fiber was
measured when the inner call began, the measure of the list is out of date. -/
theorem books_of_comesAbout_growth :
    let m := (SetupOp.registerBuiltin "apply" (.host "apply") .variadic).after
      ((SetupOp.registerBuiltin "is_null" (.core (.isKind .null)) (.fixed 1)).after
        (.bare .standard))
    let called := stateAfter
      (callNative sessionLinkage 2 (.object ⟨2, 0⟩) [.object ⟨1, 0⟩, .null]) m
    let heap := (HeapOp.act (.listPush (.object ⟨3, 0⟩) .null)).after
      ((HeapOp.act (.newList [])).after called.heap)
    heap.ComesAbout ∧ heap.liveHandles = [⟨0, 0⟩, ⟨1, 0⟩, ⟨2, 0⟩, ⟨3, 0⟩] ∧
      heap.bytes = 208 + 87 + 85 + 80 ∧ heap.footprintAt ⟨0, 0⟩ = 208 ∧
      heap.footprintAt ⟨3, 0⟩ = 144 ∧ heap.Books := by
  intro m called heap
  have hbare : (Machine.bare .standard).heap.ComesAbout :=
    .operation (.act (.addRoot (.object ⟨0, 0⟩)))
      (.operation (.alloc (.fiber ⟨.empty, none⟩)) (.start .standard))
  have hheap : heap.ComesAbout := .operation _ (.operation _
    (.call 2 _ _ sessionLinkage_honest (.registration _ (.registration _ hbare))))
  exact ⟨hheap, by decide +kernel, by decide +kernel, by decide +kernel, by decide +kernel,
    books_of_comesAbout hheap⟩

end Heap

end ScriptMachine
