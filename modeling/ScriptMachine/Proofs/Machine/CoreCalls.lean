import ScriptMachine.Proofs.Heap.Assignment
import ScriptMachine.Proofs.Machine.CoreCode
import ScriptMachine.Proofs.Machine.Use

/-!
# Calls of core functions

As long as a machine in use keeps its fiber and its core functions, the functions can be called,
with any arguments that are there. A call has a result, which is there too, or an error. With an
error it has done nothing; but its window may have taken more room on the stack, and this is not
given back.

Main definitions:
- `Machine.SameButRoom`, `Machine.SettledBy`: a machine to which nothing happened, and how a call
  may end.
- `Machine.KeepsFiber`: a call that does not collect the fiber it runs on.

Results:
1. `begun_opened`, `sameButRoom_closed`: a window is opened, and closed after an error.
2. `callNative_core_settles`: a call of a core function, if its arity suits it.
3. `Becomes.coreCalls_settle`: calls of all core functions, at any time.
-/

namespace ScriptMachine

/-! ## 1. Windows of core functions -/

namespace Heap

variable {heap after : Heap} {h : Handle} {o o' : Object}

theorem Rewritten.noDangling {measured : Bool} (hw : heap.Rewritten h o measured after)
    (hd : heap.NoDangling) (ho : ∀ k ∈ o.children, heap.isLive k = true) : after.NoDangling := by
  intro k p j hp hj
  rw [hw.live]
  by_cases hk : k = h
  · subst hk
    cases hw.get?_self.symm.trans hp
    exact ho j (Object.holds_iff.mp hj)
  · rw [hw.get?_other hk] at hp
    exact hd k p j hp hj

/-- Nothing is out of reach because an object holds more. -/
theorem Rewritten.reaches {measured : Bool} (hw : heap.Rewritten h o' measured after)
    (ho : heap.get? h = some o) (hsub : o.children ⊆ o'.children) {k : Handle}
    (hr : heap.Reaches heap.anchors k) : after.Reaches after.anchors k := by
  have hanchors : after.anchors = heap.anchors := by
    rw [hw.rest]
    rfl
  rw [hanchors]
  refine hr.grow (List.Subset.refl _) fun j p _ hp => ?_
  by_cases hj : j = h
  · subst hj
    cases ho.symm.trans hp
    exact ⟨o', hw.get?_self, hsub⟩
  · exact ⟨p, (hw.get?_other hj).trans hp, List.Subset.refl _⟩

/-- An object that was measured is written over by one of its size. -/
theorem Rewritten.replace (hw : heap.Rewritten h o true after)
    (hsize : o'.footprint = o.footprint) : heap.Rewritten h o' true (after.replace h o') := by
  have hw' := replace_rewritten hw.get?_self o'
  obtain ⟨e, he, hafter, hbytes⟩ := hw.entry
  obtain ⟨e', he', hlast, hbytes'⟩ := hw'.entry
  cases hafter.symm.trans he'
  refine ⟨⟨e, he, ?_, ?_⟩, fun k hk => ?_, fun k => ?_, ?_, ?_⟩
  · rw [hlast, hsize]
    rfl
  · rw [hbytes', hsize]
    exact hbytes
  · rw [hw'.others k hk, hw.others k hk]
  · rw [hw'.live, hw.live]
  · rw [hw'.generations, hw.generations]
  · exact hw'.rest.trans (congrArg (fun before : Heap => { before with
      cells := (after.replace h o').cells, bytes := (after.replace h o').bytes }) hw.rest)

end Heap

namespace Machine

/-- Nothing has happened to the machine, but that the stack of its fiber may own other room than
before, and was measured with it. -/
inductive SameButRoom (m : Machine) : Machine → Prop
  | same : SameButRoom m m
  | room {f : Fiber} {stack : Buffer Value} {heap : Heap} :
      m.heap.get? m.fiber = some (.fiber f) → stack.toList = f.stack.toList →
      m.heap.Rewritten m.fiber (.fiber { f with stack := stack }) true heap →
      SameButRoom m { m with heap := heap }

/-- The call has a result, which is there, or an error, and has done nothing. It does not end in a
fault. -/
def SettledBy (m : Machine) : EStateM.Result (Failure EvalError) Machine Value → Prop
  | .ok v after => after.heap.Has v
  | .error (.error _) after => m.SameButRoom after
  | .error (.fault _) _ => False

theorem SettledBy.exists_error {m : Machine} {call : MachineM Value} (h : m.SettledBy (call m))
    (hnone : resultOf? (call m) = none) :
    ∃ e after, call m = .error (.error e) after ∧ m.SameButRoom after := by
  cases hcall : call m with
  | ok v after =>
    rw [hcall] at hnone
    cases hnone
  | error failure after =>
    rw [hcall] at h
    cases failure with
    | error e => exact ⟨e, after, rfl, h⟩
    | fault _ => exact h.elim

/-- The call does not lose the fiber: a root or a pin leads to it, or it is there afterwards all the
same. -/
def KeepsFiber (m : Machine) (call : MachineM Value) : Prop :=
  m.heap.Reaches m.heap.anchors m.fiber ∨ (stateAfter call m).heap.isLive m.fiber = true

section Opened

variable {m : Machine} {f : Fiber} (hf : m.heap.get? m.fiber = some (.fiber f))
include hf

theorem opened_rewritten (args : List Value) : ∃ heap, m.opened args = { m with heap := heap } ∧
    m.heap.Rewritten m.fiber (.fiber { f with stack := (f.stack.push .null).append args }) true
      heap := by
  unfold opened
  rw [stateAfter_of_ok (pushWindow_of_get? hf args)]
  exact ⟨_, rfl, Heap.remeasure_rewritten (Heap.replace_rewritten hf _)⟩

theorem opened_noDangling (hd : m.heap.NoDangling) {args : List Value}
    (hargs : ∀ v ∈ args, m.heap.Has v) : (m.opened args).heap.NoDangling := by
  obtain ⟨heap, hopened, hw⟩ := opened_rewritten hf args
  rw [hopened]
  refine hw.noDangling hd fun k hk => ?_
  cases Object.holds_iff.mpr hk with
  | slot hslot =>
    simp only [Buffer.toList_append, Buffer.toList_push, List.append_assoc, List.mem_append,
      List.mem_cons, List.not_mem_nil, or_false, reduceCtorEq, false_or] at hslot
    obtain hold | harg := hslot
    · exact hd _ _ k hf (.slot hold)
    · exact hargs _ harg k rfl
  | running hrunning => exact hd _ _ k hf (.running hrunning)

theorem opened_reaches (args : List Value) (hr : m.heap.Reaches m.heap.anchors m.fiber) :
    (m.opened args).heap.Reaches (m.opened args).heap.anchors m.fiber := by
  obtain ⟨heap, hopened, hw⟩ := opened_rewritten hf args
  rw [hopened]
  refine hw.reaches hf (fun k hk => ?_) hr
  cases Object.holds_iff.mpr hk with
  | slot hslot => exact Object.holds_iff.mp (.slot (by simp [hslot]))
  | running hrunning => exact Object.holds_iff.mp (.running hrunning)

/-- A window that is closed after an error leaves the stack as it was, with the room it took. -/
theorem sameButRoom_closed (args : List Value) : ∃ v after,
    popWindow f.stack.size (m.opened args) = .ok v after ∧ m.SameButRoom after := by
  obtain ⟨heap, hopened, hw⟩ := opened_rewritten hf args
  rw [hopened]
  have hpop := popWindow_of_get? (m := { m with heap := heap }) hw.get?_self f.stack.size
  refine ⟨_, _, hpop, .room hf ?_ (hw.replace rfl)⟩
  have hsize : f.stack.size = f.stack.toList.length := rfl
  simp [hsize]

end Opened

/-! ## 2. Calls -/

/-- A function with native code is reached if enough arguments are passed, and else refused. -/
theorem entryPoint_native {heap : Heap} {h : Handle} {f : Callable} {entry : Symbol}
    (hf : heap.get? h = some (.function f)) (hbody : f.body = .native entry) (argc : Nat) :
    heap.entryPoint (.object h) argc = .ok entry ∧ f.arity.least ≤ argc ∨
      ∃ e, heap.entryPoint (.object h) argc = .error (.error e) := by
  obtain ⟨name, owner, arity, body⟩ := f
  cases hbody
  unfold Heap.entryPoint
  rw [Heap.asFunction_of_get? hf]
  cases arity with
  | variadic => exact .inl ⟨rfl, Nat.zero_le _⟩
  | fixed expected =>
    by_cases hargc : expected = argc
    · exact .inl ⟨if_pos hargc, hargc.le⟩
    · exact .inr ⟨_, if_neg hargc⟩

theorem begun_opened {m : Machine} {old args : List Value} (hm : m.Ready) (hs : m.stack? = some old)
    (hd : m.heap.NoDangling) (hargs : ∀ v ∈ args, m.heap.Has v) (link : Linkage) (depth : Nat) :
    Begun old args (callFrame link depth old args) (m.opened args) := by
  obtain ⟨f, hf, -⟩ := stack?_eq_some hs
  obtain ⟨hw, -, hlive⟩ := opened_window hs hm args
  refine ⟨rfl, rfl, hw, opened_noDangling hf hd hargs, fun v hv h hh => ?_⟩
  rw [hlive]
  exact hargs v hv h hh

/-- A call of a core function settles, if its arity lets it have the arguments it needs and the
call does not lose the fiber. -/
theorem callNative_core_settles {m : Machine} (hm : m.Ready) (hd : m.heap.NoDangling) {h : Handle}
    {f : Callable} {function : CoreFunction} (hf : m.heap.get? h = some (.function f))
    (hbody : f.body = .native (.core function)) (hneeds : function.needs ≤ f.arity.least)
    {args : List Value} (hargs : ∀ v ∈ args, m.heap.Has v) {host : String → Option (NativeM Unit)}
    {depth : Nat}
    (hfiber : m.KeepsFiber (callNative (.withHost host) (depth + 1) (.object h) args)) :
    m.SettledBy (callNative (.withHost host) (depth + 1) (.object h) args m) := by
  obtain ⟨fiber, hget⟩ := hm.fiber
  have hs := stack?_eq hget
  obtain ⟨hentry, hleast⟩ | ⟨e, hentry⟩ := entryPoint_native hf hbody args.length
  · have hb := begun_opened hm hs hd hargs (.withHost host) depth
    have hsettles := function.settles hb (hneeds.trans hleast)
    -- The window is closed if the code has come to an end, and the code can do nothing else.
    unfold Settles at hsettles
    split at hsettles
    · next s hran =>
      obtain ⟨puts, hw, hv⟩ := hsettles
      obtain ⟨after, hpop, -, -, -, hlive⟩ := hw.popWindow_eq
      rw [callNative_of_ok hs hentry hran hpop]
      intro k hk
      rw [hlive]
      exact hv k hk
    · next s hran =>
      subst hsettles
      obtain ⟨v, after, hpop, hsame⟩ := sameButRoom_closed hget args
      rw [callNative_of_error hs hentry hran hpop]
      exact hsame
    · next fault s hran =>
      rw [(opened_window hs hm args).2.1] at hsettles
      obtain hreaches | hlive := hfiber
      · exact absurd (opened_reaches hget args hreaches) hsettles.2
      · rw [stateAfter_of_error (callNative_of_fault hs hentry hran), hsettles.1] at hlive
        cases hlive
  · rw [callNative_eq _ _ _ _ hs, hentry]
    exact .same

/-- However a machine was created and has been used since, as long as it has its fiber and its core
functions and no handle is dangling: all core functions are there, and every call of one settles,
whatever the arguments are. A call may collect, and is not to lose the fiber. -/
theorem Becomes.coreCalls_settle {settings : Settings} {created m : Machine}
    (hcreate : create settings = .ok created) (huse : created.Becomes m)
    (hd : m.heap.NoDangling) :
    (∃ owner, m.heap.Provides none coreBuiltins (created.builtins.toList.map (·.function)) ∧
      m.heap.Provides (some owner) langFunctions created.langHandles) ∧
    ∀ host depth args, ∀ h ∈ created.coreHandles, (∀ v ∈ args, m.heap.Has v) →
      m.KeepsFiber (callNative (.withHost host) (depth + 1) (.object h) args) →
      m.SettledBy (callNative (.withHost host) (depth + 1) (.object h) args m) := by
  obtain ⟨ht, hfiber, owner, hbuiltins, hlang⟩ := create_provides hcreate
  have hi := huse.inUse ⟨ht, hfiber⟩
  have hbuiltins := hbuiltins.of_get? fun h hh f hf =>
    hi.core h (List.mem_append_left _ hh) _ hf
  have hlang := hlang.of_get? fun h hh f hf => hi.core h (List.mem_append_right _ hh) _ hf
  refine ⟨⟨owner, hbuiltins, hlang⟩, fun host depth args h hh hargs hkept => ?_⟩
  obtain ⟨_, line, hline, hf⟩ := exists_core_line hcreate hh
  exact callNative_core_settles hi.toReady hd (hi.core h hh _ hf) rfl (needs_le_least line hline)
    hargs hkept

/-- A list is made, then it is passed to a function that wants a string and to one that takes
anything. -/
theorem Becomes.coreCalls_settle_of_list :
    let settings : Settings := ⟨some .buffer, .standard, 64⟩
    let created := stateAfter installCore (bare settings)
    let m := { created with heap := (created.heap.alloc (.list .empty)).2 }
    let list := Value.object ⟨22, 0⟩
    create settings = .ok created ∧ created.Becomes m ∧ m.heap.NoDangling ∧ m.heap.Has list ∧
      m.heap.Reaches m.heap.anchors m.fiber ∧
      (∃ e after, callNative (.withHost fun _ => none) 1 (.object ⟨15, 0⟩) [list] m =
        .error (.error e) after ∧ m.SameButRoom after) ∧
      ∃ v after, callNative (.withHost fun _ => none) 1 (.object ⟨13, 0⟩) [list] m =
        .ok v after ∧ after.heap.Has v := by
  intro settings created m list
  have hcreate : create settings = .ok created := by
    obtain ⟨s, hs⟩ := exists_of_resultOf?
      (show resultOf? (installCore (bare settings)) = some () by decide +kernel)
    have hcreated : created = s := stateAfter_of_ok hs
    rw [create, hs, hcreated]
  have huse : created.Becomes m :=
    .step .created (.alloc _) (by decide +kernel) (by decide +kernel)
  have hd : m.heap.NoDangling := by decide +kernel
  have hlist : m.heap.Has list := Heap.has_object.mpr (by decide +kernel)
  have hfiber : m.heap.Reaches m.heap.anchors m.fiber :=
    .start (by decide +kernel) (by decide +kernel)
  have hsettled : ∀ h ∈ created.coreHandles,
      m.SettledBy (callNative (.withHost fun _ => none) 1 (.object h) [list] m) := fun h hh =>
    (coreCalls_settle hcreate huse hd).2 (fun _ => none) 0 [list] h hh
      (List.forall_mem_singleton.mpr hlist) (.inl hfiber)
  refine ⟨hcreate, huse, hd, hlist, hfiber, ?_, ?_⟩
  · exact (hsettled ⟨15, 0⟩ (by decide +kernel)).exists_error (by decide +kernel)
  · have hresult : resultOf? (callNative (.withHost fun _ => none) 1 (.object ⟨13, 0⟩) [list] m) =
        some (.object ⟨23, 0⟩) := by
      decide +kernel
    obtain ⟨after, hok⟩ := exists_of_resultOf? hresult
    have htext := hsettled ⟨13, 0⟩ (by decide +kernel)
    rw [hok] at htext
    exact ⟨_, after, hok, htext⟩

end Machine

end ScriptMachine
