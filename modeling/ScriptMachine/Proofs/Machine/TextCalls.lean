import ScriptMachine.Proofs.Heap.OperandTable
import ScriptMachine.Proofs.Machine.CoreAdmission
import ScriptMachine.Proofs.Machine.CoreCalls
import ScriptMachine.Proofs.Text.Stripping

/-!
# Calls that return strings

Three builtins read the bytes of a string, change them, and return what comes out as a new string.
Room for it may be made by a collection. The bytes have been read by then, so the result does not
depend on what the collection takes, as long as it leaves the fiber; nor does it depend on when the
call is made. So what is true of the changes of bytes is true of the calls, one after the other and
with anything in between.

Main definitions:
- `Machine.ReturnsBytes`: a call that returns a string of given bytes.
- `Machine.Gives`: what a builtin makes of a string, whenever it is called.

Results:
1. `stringArgument_bind`, `returnMapped_eq`: the code in its window.
2. `callNative_mapped`: a call of such a function.
3. `Machine.exists_inUse_string`, `Machine.gives_of_line`: strings and builtins of a machine that
   was created.
4. `Machine.strip_exact`: stripping by calls.
-/

namespace ScriptMachine

open Machine

/-! ## 1. The code -/

section Code

variable {old rest puts : List Value} {opened s : Machine} {frame : Frame} {k : Handle}
  {text : ByteString}

/-- The bytes of the first argument are read, and nothing else happens. -/
theorem stringArgument_bind (hw : Window old (.object k :: rest) opened puts s)
    (hbase : frame.base = old.length) (hargc : frame.argc = (Value.object k :: rest).length)
    (hk : s.heap.get? k = some (.string text)) (f : List UInt8 → NativeM Unit) :
    (stringArgument >>= f) frame s = f text.bytes frame s := by
  have hkind : s.heap.kindOf (.object k) = .ok .string := Heap.kindOf_object.mpr ⟨_, hk, rfl⟩
  have hstring : s.heap.asString (.object k) = .ok (some text) := Heap.asString_of_get? hk
  unfold stringArgument kindArgument
  simp only [bind_assoc]
  refine (native_bind_of_ok (hw.argument hbase hargc rfl) _).trans ?_
  refine (native_bind_of_ok (a := s) (s := s) rfl _).trans ?_
  rw [hkind]
  refine (native_bind_of_ok (a := Kind.string) (s := s) rfl _).trans ?_
  rw [if_pos rfl, pure_bind]
  refine (native_bind_of_ok (a := s) (s := s) rfl _).trans ?_
  rw [hstring]
  rfl

/-- The bytes are changed and put into a new string, which is the result. -/
theorem returnMapped_eq (hw : Window old (.object k :: rest) opened puts s)
    (hbase : frame.base = old.length) (hargc : frame.argc = (Value.object k :: rest).length)
    (hk : s.heap.get? k = some (.string text)) (change : List UInt8 → List UInt8) :
    let string : Object := .string (.ofBytes (change text.bytes))
    returnMapped change frame s = returnValue (.object (s.heap.alloc string).1) frame
      { s with heap := (s.heap.alloc string).2 } := by
  intro string
  exact stringArgument_bind hw hbase hargc hk _

end Code

/-! ## 2. Calls -/

section Other

variable {m after : Machine} {f : Fiber} {k : Handle}

/-- A write to the stack shows nowhere else. -/
theorem get?_withStack_other (hf : m.heap.get? m.fiber = some (.fiber f)) (hk : k ≠ m.fiber)
    (stack : Buffer Value) : (m.withStack f stack).heap.get? k = m.heap.get? k := by
  show (m.heap.replace m.fiber _).get? k = _
  rw [Heap.get?_replace hf, if_neg hk]

theorem get?_opened_other (hf : m.heap.get? m.fiber = some (.fiber f)) (hk : k ≠ m.fiber)
    (args : List Value) : (m.opened args).heap.get? k = m.heap.get? k := by
  obtain ⟨heap, hopened, hw⟩ := opened_rewritten hf args
  rw [hopened]
  exact hw.get?_other hk

theorem get?_popWindow_other {base : Nat} {v : Value} (hm : m.Ready) (hk : k ≠ m.fiber)
    (hpop : popWindow base m = .ok v after) : after.heap.get? k = m.heap.get? k := by
  obtain ⟨f, hf⟩ := hm.fiber
  rw [popWindow_of_get? hf] at hpop
  cases hpop
  exact get?_withStack_other hf hk _

end Other

/-- A new object is the result, if the fiber has survived its allocation. -/
theorem Window.returns_new {old args : List Value} {opened : Machine} {frame : Frame}
    (hw : Window old args opened [] opened) (hbase : frame.base = old.length) (o : Object)
    (hl : (opened.heap.alloc o).2.isLive opened.fiber = true) :
    let new := (opened.heap.alloc o).1
    ∃ s, returnValue (.object new) frame { opened with heap := (opened.heap.alloc o).2 } =
        .ok () s ∧ Window old args opened [.object new] s ∧ s.heap.get? new = some o := by
  intro new
  obtain ⟨f, hf⟩ := hw.ready.fiber
  have ht := hw.ready.tidy
  have hkept := (Heap.get?_alloc_of_isLive ht o hf hl).1
  have hstep : opened.OwnStep { opened with heap := (opened.heap.alloc o).2 } :=
    ⟨rfl, .inr (.alloc o), fun _ => (stack?_eq hkept).trans (stack?_eq hf).symm, .inr hl⟩
  have hput := returnValue_of_get? (m := { opened with heap := (opened.heap.alloc o).2 }) hkept
    frame (.object new)
  have hne : new ≠ opened.fiber := by
    intro heq
    rw [← heq, Heap.get?_alloc_self ht o] at hf
    cases hf
  refine ⟨_, hput, (hw.kept (hstep.stackKept hw.ready)).put hbase hput, ?_⟩
  refine Eq.trans ?_ (Heap.get?_alloc_new ht o)
  exact get?_withStack_other (m := { opened with heap := (opened.heap.alloc o).2 }) hkept hne _

/-- A call that keeps the fiber does not lose it to the allocation of its result. -/
theorem isLive_fiber_of_keepsFiber {m : Machine} {f : Fiber} {link : Linkage} {depth : Nat}
    {function : Value} {args : List Value} {entry : Symbol} {o : Object}
    (hm : m.Ready) (hf : m.heap.get? m.fiber = some (.fiber f))
    (hkeeps : m.KeepsFiber (callNative link (depth + 1) function args))
    (hentry : m.heap.entryPoint function args.length = .ok entry)
    (hbody : link entry (callFrame link depth f.stack.toList args) (m.opened args) =
      returnValue (.object ((m.opened args).heap.alloc o).1)
        (callFrame link depth f.stack.toList args)
        { m.opened args with heap := ((m.opened args).heap.alloc o).2 }) :
    ((m.opened args).heap.alloc o).2.isLive (m.opened args).fiber = true := by
  have hs := stack?_eq hf
  obtain ⟨hw, hsame, -⟩ := opened_window hs hm args
  rw [hsame]
  obtain hreaches | hlive := hkeeps
  · have hreached := opened_reaches hf args hreaches
    rw [Heap.isLive, Heap.get?_alloc_of_reached hw.ready.tidy o
      (hreached.mono (List.subset_append_left _ _))]
    exact hreached.isLive
  · -- Without a fiber the call would have ended right there.
    by_contra hlost
    have hfault := returnValue_of_lost
      (m := { m.opened args with heap := ((m.opened args).heap.alloc o).2 })
      (by rw [hsame]; simpa using hlost) (callFrame link depth f.stack.toList args)
      (.object ((m.opened args).heap.alloc o).1)
    rw [stateAfter_of_error (callNative_of_fault hs hentry (hbody.trans hfault))] at hlive
    exact hlost hlive

/-- `m.ReturnsBytes call bytes`: the call returns a string of these bytes. -/
def Machine.ReturnsBytes (m : Machine) (call : MachineM Value) (bytes : List UInt8) : Prop :=
  ∃ k after text, call m = .ok (.object k) after ∧ after.heap.get? k = some (.string text) ∧
    text.bytes = bytes

/-- A call of a function that changes the bytes of a string returns the changed bytes. -/
theorem callNative_mapped {m : Machine} (hm : m.Ready) {h k : Handle} {callable : Callable}
    {function : CoreFunction} {change : List UInt8 → List UInt8} {text : ByteString}
    (hh : m.heap.get? h = some (.function callable)) (harity : callable.arity = .fixed 1)
    (hnative : callable.body = .native (.core function))
    (hrun : function.run = returnMapped change) (hk : m.heap.get? k = some (.string text))
    {host : String → Option (NativeM Unit)} {depth : Nat}
    (hkeeps : m.KeepsFiber (callNative (.withHost host) (depth + 1) (.object h) [.object k])) :
    m.ReturnsBytes (callNative (.withHost host) (depth + 1) (.object h) [.object k])
      (change text.bytes) := by
  obtain ⟨f, hf⟩ := hm.fiber
  have hs := stack?_eq hf
  obtain ⟨hw, -⟩ := opened_window hs hm [.object k]
  have hentry : m.heap.entryPoint (.object h) [Value.object k].length = .ok (.core function) := by
    unfold Heap.entryPoint
    rw [Heap.asFunction_of_get? hh]
    obtain ⟨name, owner, arity, body⟩ := callable
    cases harity
    cases hnative
    rfl
  have hne : k ≠ m.fiber := by
    rintro rfl
    cases hf.symm.trans hk
  let frame := callFrame (.withHost host) depth f.stack.toList [.object k]
  have hbase : frame.base = f.stack.toList.length := rfl
  have hbody := returnMapped_eq hw hbase rfl ((get?_opened_other hf hne _).trans hk) change
  rw [← hrun] at hbody
  have hlive := isLive_fiber_of_keepsFiber hm hf hkeeps hentry hbody
  obtain ⟨s, hput, hw', hnew⟩ := hw.returns_new hbase _ hlive
  obtain ⟨after, hpop, -⟩ := hw'.popWindow_eq
  refine ⟨_, after, .ofBytes (change text.bytes),
    callNative_of_ok hs hentry (hbody.trans hput) hpop, ?_, rfl⟩
  rw [get?_popWindow_other hw'.ready ?_ hpop, hnew]
  intro heq
  obtain ⟨g, hg⟩ := hw'.ready.fiber
  rw [← heq, hnew] at hg
  cases hg

/-! ## 3. Builtins -/

namespace Machine

variable {settings : Settings} {created : Machine}

/-- `created.Gives name s r`: there is a builtin of this name, and whenever it is called with a
string of the bytes `s`, it returns a string of the bytes `r`. The machine may have come far since
it was created (`Becomes.inUse`). The call may collect, and is not to lose the fiber. -/
def Gives (created : Machine) (name : String) (s r : List UInt8) : Prop :=
  ∃ i b, created.findBuiltin? name = some i ∧ created.builtins[i]? = some b ∧
    ∀ m, InUse created m → ∀ host depth k text, m.heap.get? k = some (.string text) →
      text.bytes = s →
      m.KeepsFiber (callNative (.withHost host) (depth + 1) (.object b.function) [.object k]) →
      m.ReturnsBytes (callNative (.withHost host) (depth + 1) (.object b.function) [.object k]) r

/-- Each line of the core library is offered under its name. -/
theorem exists_builtin_of_line (hcreate : create settings = .ok created)
    {line : String × CoreFunction × Arity} (hline : line ∈ coreBuiltins) :
    ∃ i b, created.findBuiltin? line.1 = some i ∧ created.builtins[i]? = some b ∧
      created.Offers line b := by
  obtain ⟨hsound, hcore⟩ := sound_of_create hcreate
  obtain ⟨added, hadded, hoffers⟩ := hcore.builtins
  obtain ⟨i, hi, rfl⟩ := List.getElem_of_mem hline
  have hlt : i < added.length := hoffers.length_eq ▸ hi
  have hb : created.builtins[i]? = some added[i] := by
    rw [← Array.getElem?_toList, hadded]
    exact List.getElem?_eq_getElem hlt
  have ho : created.Offers coreBuiltins[i] added[i] := hoffers.get hi hlt
  exact ⟨i, added[i], (findBuiltin?_eq_some_iff hsound.distinct).mpr ⟨_, hb, ho.name⟩, hb, ho⟩

/-- Every string can be made on a machine that has been created, and passed to a call that keeps the
fiber. -/
theorem exists_inUse_string (hcreate : create settings = .ok created) (s : List UInt8) :
    ∃ m k text, InUse created m ∧ m.heap.get? k = some (.string text) ∧ text.bytes = s ∧
      m.heap.Reaches m.heap.anchors m.fiber := by
  obtain ⟨hsound, -⟩ := sound_of_create hcreate
  have ht := hsound.tidy
  let string : Object := .string (.ofBytes s)
  have hkept : ∀ {h : Handle}, created.heap.Reaches created.heap.roots h →
      (created.heap.alloc string).2.get? h = created.heap.get? h := fun hr =>
    Heap.get?_alloc_of_reached ht string (hr.mono (by simp))
  have hfiber := (hsound.intact.reaches hsound.registered_subset).2.2
  obtain ⟨f, hf⟩ := hsound.intact.fiber
  refine ⟨{ created with heap := (created.heap.alloc string).2 }, _, .ofBytes s,
    ⟨⟨Heap.alloc_tidy ht string, f, (hkept hfiber).trans hf⟩, fun h hh o ho => ?_⟩,
    Heap.get?_alloc_new ht string, rfl, ?_⟩
  · exact (hkept ((CoreKept.start hcreate).reaches hsound hh)).trans ho
  · refine .start (List.mem_append_left _ ?_) (Heap.isLive_iff.mpr ⟨_, (hkept hfiber).trans hf⟩)
    rw [Heap.alloc_roots]
    exact hsound.registered_subset (.head _)

/-- A builtin that changes the bytes of a string can be relied on. -/
theorem gives_of_line (hcreate : create settings = .ok created) {name : String}
    (function : CoreFunction) (hline : (name, function, Arity.fixed 1) ∈ coreBuiltins)
    {change : List UInt8 → List UInt8} (hrun : function.run = returnMapped change)
    (s : List UInt8) : created.Gives name s (change s) := by
  obtain ⟨i, b, hfind, hb, ho⟩ := exists_builtin_of_line hcreate hline
  have hcore : b.function ∈ created.coreHandles :=
    List.mem_append_left _ (List.mem_map_of_mem (List.mem_of_getElem? (by simpa using hb)))
  refine ⟨i, b, hfind, hb, fun m hm host depth k text hk htext hkeeps => ?_⟩
  subst htext
  exact callNative_mapped hm.toReady (hm.core _ hcore _ ho.function) rfl rfl hrun hk hkeeps

/-- On every machine that was created and is in use, a string is stripped by a call of exactly the
blanks around it, whatever its bytes are; and there may be such a string. What is left is a slice of
it, and is left by another call as it is. Letters may be lowered or raised before or after. -/
theorem strip_exact (hcreate : create settings = .ok created) (s : List UInt8) :
    (∃ m k text, InUse created m ∧ m.heap.get? k = some (.string text) ∧ text.bytes = s ∧
      m.heap.Reaches m.heap.anchors m.fiber) ∧
    ∃ r, created.Gives "str_strip" s r ∧ Ascii.IsStripped s r ∧
      (Ascii.start s ≤ Ascii.stop s ∧ Ascii.stop s ≤ s.length ∧
        r = (s.take (Ascii.stop s)).drop (Ascii.start s)) ∧
      created.Gives "str_strip" r r ∧
      ∀ name ∈ ["str_lower", "str_upper"], ∃ l t, created.Gives name s l ∧
        created.Gives "str_strip" l t ∧ created.Gives name r t := by
  have hstrip : ∀ s, created.Gives "str_strip" s (Ascii.strip s) :=
    gives_of_line hcreate .strip (by decide) rfl
  have hlower : ∀ s, created.Gives "str_lower" s (Ascii.lower s) :=
    gives_of_line hcreate .lower (by decide) rfl
  have hupper : ∀ s, created.Gives "str_upper" s (Ascii.upper s) :=
    gives_of_line hcreate .upper (by decide) rfl
  refine ⟨exists_inUse_string hcreate s, Ascii.strip s, hstrip s, Ascii.isStripped_strip s,
    Ascii.strip_eq_slice s, ?_, ?_⟩
  · have hagain := hstrip (Ascii.strip s)
    rwa [Ascii.strip_strip] at hagain
  · intro name hname
    simp only [List.mem_cons, List.not_mem_nil, or_false] at hname
    obtain rfl | rfl := hname
    · refine ⟨_, _, hlower s, hstrip _, ?_⟩
      rw [Ascii.strip_lower]
      exact hlower _
    · refine ⟨_, _, hupper s, hstrip _, ?_⟩
      rw [Ascii.strip_upper]
      exact hupper _

/-- A string that is no text, with blanks around it and one within, on a machine that was just
created. -/
theorem strip_exact_of_blanks :
    let settings : Settings := ⟨some .buffer, .standard, 64⟩
    let created := stateAfter installCore (bare settings)
    let s : List UInt8 := [32, 9, 255, 65, 11, 98, 32, 10]
    let m := { created with heap := (created.heap.alloc (.string (.ofBytes s))).2 }
    create settings = .ok created ∧ created.Gives "str_strip" s [255, 65, 11, 98] ∧
      InUse created m ∧ m.heap.get? ⟨22, 0⟩ = some (.string (.ofBytes s)) ∧
      m.ReturnsBytes
        (callNative (.withHost fun _ => none) 1 (.object ⟨17, 0⟩) [.object ⟨22, 0⟩])
        [255, 65, 11, 98] := by
  intro settings created s m
  have hcreate : create settings = .ok created := by
    obtain ⟨after, hok⟩ := exists_of_resultOf?
      (show resultOf? (installCore (bare settings)) = some () by decide +kernel)
    have hcreated : created = after := stateAfter_of_ok hok
    rw [create, hok, hcreated]
  have huse : created.Becomes m :=
    .step .created (.alloc _) (by decide +kernel) (by decide +kernel)
  obtain ⟨ht, hfiber, -⟩ := create_provides hcreate
  have hm : InUse created m := huse.inUse ⟨ht, hfiber⟩
  have hk : m.heap.get? ⟨22, 0⟩ = some (.string (.ofBytes s)) := by decide +kernel
  have hreached : m.heap.Reaches m.heap.anchors m.fiber :=
    .start (by decide +kernel) (by decide +kernel)
  obtain ⟨-, r, hgives, -, ⟨-, -, hslice⟩, -⟩ := strip_exact hcreate s
  have hr : r = [255, 65, 11, 98] := hslice.trans (by decide)
  subst hr
  refine ⟨hcreate, hgives, hm, hk, ?_⟩
  obtain ⟨i, b, hfind, hb, hcall⟩ := hgives
  have hindex : created.findBuiltin? "str_strip" = some 16 := by decide +kernel
  have hfunction : created.builtins[16]?.map (·.function) = some ⟨17, 0⟩ := by decide +kernel
  cases hfind.symm.trans hindex
  rw [hb] at hfunction
  rw [← Option.some.inj hfunction]
  exact hcall m hm _ 0 _ _ hk rfl (.inl hreached)

end Machine

end ScriptMachine
