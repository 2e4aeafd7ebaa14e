import ScriptMachine.Proofs.Heap.Closed
import ScriptMachine.Proofs.Heap.Rendering

/-!
# No handle outlives its object unnoticed

On a closed heap, an operation that is handed objects that are there meets nothing but objects that
are there: it reads its operands, and what it reaches from them, before it allocates. So it does
not run into a fault, and the handles it brings back have their objects.

Main definitions:
- `Heap.Has`: a value is a primitive, or its object is there.
- `Endings.safe`: no fault, and nothing is brought back whose object is gone.

Results:
1. `Heap.renderIn_ok`, `Heap.lookup_ok`, …: reads of a closed heap succeed.
2. `HeapAction.safe`, `HeapOp.safe`: operations end safely.
3. `Reachable.handles_safe`: runs stay on closed heaps, and every operation ends safely.
-/

namespace ScriptMachine

/-! ## 1. Reads -/

namespace Heap

/-- The value is a primitive, or its object is there. -/
def Has (heap : Heap) (v : Value) : Prop :=
  ∀ h, v = .object h → heap.isLive h = true

theorem has_null (heap : Heap) : heap.Has .null := by simp [Has]

theorem has_number (heap : Heap) (x : Double) : heap.Has (.number x) := by simp [Has]

theorem has_bool (heap : Heap) (b : Bool) : heap.Has (.bool b) := by simp [Has]

theorem has_object {heap : Heap} {h : Handle} : heap.Has (.object h) ↔ heap.isLive h = true := by
  simp [Has]

/-- It is enough to look at what there is. -/
theorem noDangling_iff {heap : Heap} : heap.NoDangling ↔
    ∀ h ∈ heap.liveHandles, ∀ o ∈ heap.get? h, ∀ k ∈ o.children, heap.isLive k = true := by
  constructor
  · exact fun hd h _ o ho k hk => hd h o k ho (Object.holds_iff.mpr hk)
  · exact fun hall h o k ho hk =>
      hall h (mem_liveHandles_of_get? ho) o ho k (Object.holds_iff.mp hk)

instance (heap : Heap) : Decidable heap.NoDangling :=
  decidable_of_iff _ noDangling_iff.symm

theorem NoDangling.has {heap : Heap} (hd : heap.NoDangling) {h : Handle} {o : Object}
    (ho : heap.get? h = some o) {v : Value} (hv : ∀ k, v = .object k → o.Holds k) : heap.Has v :=
  fun k hk => hd h o k ho (hv k hk)

theorem get_ok {heap : Heap} {h : Handle} (hl : heap.Has (.object h)) :
    ∃ o, heap.get h = .ok o ∧ heap.get? h = some o := by
  obtain ⟨o, ho⟩ := isLive_iff.mp (has_object.mp hl)
  exact ⟨o, get_eq_ok_iff.mpr ho, ho⟩

theorem kindOf_ok {heap : Heap} {v : Value} (hv : heap.Has v) :
    ∃ kind, heap.kindOf v = .ok kind := by
  cases v with
  | object h =>
    obtain ⟨o, ho, -⟩ := get_ok hv
    exact ⟨o.kind, by simp [kindOf, ho, bind, Except.bind, pure, Except.pure]⟩
  | _ => exact ⟨_, rfl⟩

theorem typeName_ok {heap : Heap} {v : Value} (hv : heap.Has v) :
    ∃ name, heap.typeName v = .ok name := by
  obtain ⟨kind, hkind⟩ := kindOf_ok hv
  exact ⟨kind.name, by simp [typeName, hkind, bind, Except.bind, pure, Except.pure]⟩

theorem view_ok {α : Type} {heap : Heap} (select : Object → Option α) {v : Value}
    (hv : heap.Has v) : ∃ r, heap.view select v = .ok r := by
  cases v with
  | object h =>
    obtain ⟨o, ho, -⟩ := get_ok hv
    exact ⟨select o, by rw [view_object, ho]; rfl⟩
  | _ => exact ⟨none, rfl⟩

theorem asString_ok {heap : Heap} {v : Value} (hv : heap.Has v) :
    ∃ s, heap.asString v = .ok s :=
  view_ok _ hv

theorem asFunction_ok {heap : Heap} {v : Value} (hv : heap.Has v) :
    ∃ f, heap.asFunction v = .ok f :=
  view_ok _ hv

theorem asMap_ok {heap : Heap} {v : Value} (hv : heap.Has v) : ∃ t, heap.asMap v = .ok t :=
  view_ok _ hv

theorem hashOf_ok {heap : Heap} {v : Value} (hv : heap.Has v) :
    ∃ hash, heap.hashOf v = .ok hash := by
  cases v with
  | object h =>
    obtain ⟨s, hs⟩ := asString_ok hv
    exact ⟨s.map (·.hash), by simp [hashOf, hs, bind, Except.bind, pure, Except.pure]⟩
  | bool b => cases b <;> exact ⟨_, rfl⟩
  | _ => exact ⟨_, rfl⟩

theorem equal_ok {heap : Heap} {v w : Value} (hv : heap.Has v) (hw : heap.Has w) :
    ∃ b, heap.equal v w = .ok b := by
  unfold equal
  split
  · exact ⟨_, rfl⟩
  · split
    · exact ⟨true, rfl⟩
    · obtain ⟨s, hs⟩ := asString_ok hv
      obtain ⟨t, ht⟩ := asString_ok hw
      rw [hs, ht]
      cases s <;> cases t <;> exact ⟨_, rfl⟩
  · exact ⟨_, rfl⟩

/-! ### Containers -/

variable {heap : Heap}

theorem NoDangling.has_element (hd : heap.NoDangling) {h : Handle} {elements : Buffer Value}
    (hl : heap.get? h = some (.list elements)) {v : Value} (hm : v ∈ elements.toList) :
    heap.Has v :=
  hd.has hl fun _ hk => .element (hk ▸ hm)

theorem NoDangling.has_key (hd : heap.NoDangling) {h : Handle} {table : Table Value Value}
    (ht : heap.get? h = some (.map table)) {key value : Value}
    (hm : (key, value) ∈ table.entries) : heap.Has key :=
  hd.has ht fun _ hk => .key (hk ▸ hm)

theorem NoDangling.has_value (hd : heap.NoDangling) {h : Handle} {table : Table Value Value}
    (ht : heap.get? h = some (.map table)) {key value : Value}
    (hm : (key, value) ∈ table.entries) : heap.Has value :=
  hd.has ht fun _ hk => .value (hk ▸ hm)

theorem findKey_ok (hc : heap.Closed) {h : Handle} {table : Table Value Value}
    (ht : heap.get? h = some (.map table)) (hash : UInt32) {key : Value} (hk : heap.Has key) :
    ∃ slot, heap.findKey table hash key = .ok slot :=
  Table.exists_findM_eq_ok hash fun _ _ hm => equal_ok (hc.noDangling.has_key ht hm) hk

/-- A look-up succeeds, and what it finds is there. -/
theorem lookup_ok (hc : heap.Closed) {h : Handle} {table : Table Value Value}
    (ht : heap.get? h = some (.map table)) {key : Value} (hk : heap.Has key) :
    ∃ r, heap.lookup table key = .ok r ∧ ∀ v ∈ r, heap.Has v := by
  obtain ⟨hash?, hhash⟩ := hashOf_ok hk
  cases hash? with
  | none => exact ⟨none, by simp [lookup, hhash, bind, Except.bind, pure, Except.pure], by simp⟩
  | some hash =>
    obtain ⟨slot, hslot⟩ := findKey_ok hc ht hash hk
    refine ⟨slot.bind table.valueAt?, ?_, fun v hv => ?_⟩
    · simp [lookup, hhash, hslot, bind, Except.bind, pure, Except.pure]
    · obtain ⟨i, -, hi⟩ := Option.bind_eq_some_iff.mp hv
      obtain ⟨x, hx⟩ := Table.mem_entries_of_valueAt? hi
      exact hc.noDangling.has_value ht hx

theorem lookupBytes_ok (hc : heap.Closed) {h : Handle} {table : Table Value Value}
    (ht : heap.get? h = some (.map table)) (bytes : List UInt8) :
    ∃ r, heap.lookupBytes table bytes = .ok r ∧ ∀ v ∈ r, heap.Has v := by
  have htest : ∀ key value, (key, value) ∈ table.entries → ∃ b,
      (do return (← heap.asString key).any (·.bytes == bytes) : Except Fault Bool) = .ok b := by
    intro key value hm
    obtain ⟨s, hs⟩ := asString_ok (hc.noDangling.has_key ht hm)
    exact ⟨_, by rw [hs]; rfl⟩
  obtain ⟨slot, hslot⟩ := Table.exists_findM_eq_ok (hashBytes bytes) htest
  refine ⟨slot.bind table.valueAt?, ?_, fun v hv => ?_⟩
  · unfold lookupBytes
    rw [hslot]
    rfl
  · obtain ⟨i, -, hi⟩ := Option.bind_eq_some_iff.mp hv
    obtain ⟨x, hx⟩ := Table.mem_entries_of_valueAt? hi
    exact hc.noDangling.has_value ht hx

theorem findM?_ok {α ε : Type} {l : List α} {test : α → Except ε Bool}
    (h : ∀ a ∈ l, ∃ b, test a = .ok b) : ∃ r, l.findM? test = .ok r ∧ ∀ a ∈ r, a ∈ l := by
  induction l with
  | nil => exact ⟨none, rfl, by simp⟩
  | cons a l ih =>
    obtain ⟨b, hb⟩ := h a (by simp)
    obtain ⟨r, hr, hmem⟩ := ih fun x hx => h x (by simp [hx])
    rw [List.findM?, hb]
    cases b with
    | true => exact ⟨some a, rfl, by simp⟩
    | false => exact ⟨r, hr, fun x hx => List.mem_cons_of_mem _ (hmem x hx)⟩

theorem scriptFunction_ok (hc : heap.Closed) {h : Handle} {script : Script}
    (hs : heap.get? h = some (.script script)) (name : String) :
    ∃ r, heap.scriptFunction script name = .ok r ∧ ∀ f ∈ r, heap.Has (.object f) := by
  have hfun : ∀ f ∈ script.functions.toList, heap.Has (.object f) :=
    fun f hf => has_object.mpr (hc.held h _ f hs (.function hf))
  have htest : ∀ f ∈ script.functions.toList, ∃ b,
      (do return (← heap.asFunction (.object f)).any (·.name == name) : Except Fault Bool) =
        .ok b := by
    intro f hf
    obtain ⟨g, hg⟩ := asFunction_ok (hfun f hf)
    exact ⟨_, by rw [hg]; rfl⟩
  obtain ⟨r, hr, hmem⟩ := findM?_ok htest
  exact ⟨r, hr, fun f hf => hfun f (hmem f hf)⟩

/-! ### Texts -/

theorem mapM_ok {α β ε : Type} {l : List α} {f : α → Except ε β}
    (h : ∀ a ∈ l, ∃ b, f a = .ok b) : ∃ bs, l.mapM f = .ok bs := by
  induction l with
  | nil => exact ⟨[], rfl⟩
  | cons a l ih =>
    obtain ⟨b, hb⟩ := h a (by simp)
    obtain ⟨bs, hbs⟩ := ih fun x hx => h x (by simp [hx])
    refine ⟨b :: bs, ?_⟩
    rw [List.mapM_cons, hb, hbs]
    rfl

/-- An entry has a text if key and value have one. -/
theorem entryText_ok {render : Value → Except Fault (List Char)} {e : Value × Value}
    (hkey : ∃ left, render e.1 = .ok left) (hvalue : ∃ right, render e.2 = .ok right) :
    ∃ text, entryText render e = .ok text := by
  obtain ⟨left, hleft⟩ := hkey
  obtain ⟨right, hright⟩ := hvalue
  exact ⟨_, by rw [entryText, hleft, hright]; rfl⟩

/-- Where no handle is dangling, everything has a text. The induction is on the number of objects
that the rendering is not inside of yet. -/
theorem renderIn_ok (hd : heap.NoDangling) (enclosing : List Handle) (quoted : Bool) {v : Value}
    (hv : heap.Has v) : ∃ text, renderIn heap enclosing quoted v = .ok text := by
  induction hn : (heap.outside enclosing).length using Nat.strongRecOn
    generalizing enclosing quoted v with
  | ind n ih =>
    subst hn
    cases v with
    | object h =>
      obtain ⟨o, hget, ho⟩ := get_ok hv
      rw [renderIn_object, hget]
      show ∃ text, objectText _ _ quoted o = .ok text
      by_cases hin : h ∈ enclosing
      · rw [decide_eq_true hin]
        cases o <;> exact ⟨_, rfl⟩
      · rw [decide_eq_false hin]
        have hstep : ∀ w, heap.Has w → ∃ text, renderIn heap (h :: enclosing) true w = .ok text :=
          fun w hw => ih _ (length_outside_cons ho hin) _ _ hw rfl
        cases o with
        | list elements =>
          obtain ⟨texts, ht⟩ := mapM_ok fun w hw => hstep w (hd.has_element ho hw)
          exact ⟨_, by rw [objectText, ht]; rfl⟩
        | map table =>
          obtain ⟨texts, ht⟩ := mapM_ok fun e he =>
            entryText_ok (hstep _ (hd.has_key ho he)) (hstep _ (hd.has_value ho he))
          exact ⟨_, by rw [objectText, ht]; rfl⟩
        | _ => exact ⟨_, rfl⟩
    | _ =>
      unfold renderIn
      exact ⟨_, rfl⟩

theorem render_ok (hd : heap.NoDangling) {v : Value} (hv : heap.Has v) (quoted : Bool) :
    ∃ text, heap.render v quoted = .ok text := by
  obtain ⟨text, ht⟩ := renderIn_ok hd [] quoted hv
  exact ⟨_, by rw [render_eq, ht]; rfl⟩

theorem missingKey_ok (hc : heap.Closed) {key : Value} (hk : heap.Has key) :
    ∃ e, heap.missingKey key = .ok e := by
  obtain ⟨text, ht⟩ := render_ok hc.noDangling hk true
  obtain ⟨hash?, hhash⟩ := hashOf_ok hk
  rw [missingKey, ht, hhash]
  cases hash? <;> exact ⟨_, rfl⟩

end Heap

/-! ## 2. Operations -/

/-- No fault, and nothing is brought back whose object is gone. -/
def Endings.safe {α : Type} (values : α → List Value) : Endings α where
  ok a after := ∀ v ∈ values a, after.Has v
  error _ _ := True
  fault _ _ := False

theorem nothing_safe {α : Type} {a : α} {after : Heap} :
    (Endings.safe fun _ : α => []).ok a after := by
  simp [Endings.safe]

theorem Ends.andThen_safe {α : Type} {heap : Heap} {m : HeapM α} {values : α → List Value}
    (h : Ends m heap (.safe values)) (g : α → Finding) (hg : ∀ a, (g a).values ⊆ values a) :
    Ends (do return g (← m)) heap (.safe Finding.values) :=
  .bind (h.mono (fun a _ ha => fun v hv => ha v (hg a hv)) (fun _ _ _ => trivial) fun _ _ hf => hf)

section Operations

variable {heap : Heap}

theorem newObject_safe (ht : heap.Tidy) (o : Object) :
    Ends (newObject o) heap (.safe fun v => [v]) := by
  refine .newObject fun v hv => ?_
  rw [List.mem_singleton.mp hv, Heap.has_object]
  exact Heap.isLive_alloc heap ht o

theorem listPush_safe {list : Value} (hl : heap.Has list) (element : Value) :
    Ends (listPush list element) heap (.safe fun _ => []) := by
  cases list with
  | object h =>
    obtain ⟨o, ho, -⟩ := Heap.get_ok hl
    refine .get (.read_ok ho ?_)
    cases o with
    | list elements => exact .bind (.set (.pure nothing_safe))
    | _ => exact .pure nothing_safe
  | _ => exact .pure nothing_safe

theorem Heap.has_replace {h : Handle} {o : Object} {v : Value} :
    (heap.replace h o).Has v ↔ heap.Has v := by
  simp [Heap.Has, Heap.isLive_replace]

theorem listPop_safe (hc : heap.Closed) {list : Value} (hl : heap.Has list) :
    Ends (listPop list) heap (.safe Option.toList) := by
  cases list with
  | object h =>
    obtain ⟨o, ho, hg⟩ := Heap.get_ok hl
    refine .get (.read_ok ho ?_)
    cases o with
    | list elements =>
      refine .bind (.set (.pure fun v hv => ?_))
      rw [Heap.has_replace]
      cases hb : elements.back? with
      | none =>
        simp only [hb, Option.getD_none, Option.toList_some, List.mem_singleton] at hv
        exact hv ▸ heap.has_null
      | some w =>
        simp only [hb, Option.getD_some, Option.toList_some, List.mem_singleton] at hv
        subst hv
        refine hc.noDangling.has hg fun k hk => .element ?_
        subst hk
        have hm := Array.mem_of_back? hb
        exact hm.val
    | _ => exact .pure (by simp [Endings.safe])
  | _ => exact .pure (by simp [Endings.safe])

theorem mapSet_safe (hc : heap.Closed) {map : Handle} {key : Value}
    (hm : heap.Has (.object map)) (hk : heap.Has key) (value : Value) :
    Ends (mapSet map key value) heap (.safe fun _ => []) := by
  obtain ⟨o, ho, hg⟩ := Heap.get_ok hm
  refine .get (.read_ok ho ?_)
  cases o with
  | map table =>
    obtain ⟨hash?, hhash⟩ := Heap.hashOf_ok hk
    refine .read_ok hhash ?_
    cases hash? with
    | none =>
      obtain ⟨name, hn⟩ := Heap.typeName_ok hk
      exact .read_ok hn (.throw trivial)
    | some hash =>
      obtain ⟨slot, hslot⟩ := Heap.findKey_ok hc hg hash hk
      exact .read_ok hslot (.set nothing_safe)
  | _ => exact .throw trivial

theorem mapRemove_safe (hc : heap.Closed) {map : Handle} {key : Value}
    (hm : heap.Has (.object map)) (hk : heap.Has key) :
    Ends (mapRemove map key) heap (.safe Option.toList) := by
  obtain ⟨hash?, hhash⟩ := Heap.hashOf_ok hk
  refine .get (.read_ok hhash ?_)
  cases hash? with
  | none => exact .pure (by simp [Endings.safe])
  | some hash =>
    obtain ⟨o, ho, hg⟩ := Heap.get_ok hm
    refine .read_ok ho ?_
    cases o with
    | map table =>
      obtain ⟨slot, hslot⟩ := Heap.findKey_ok hc hg hash hk
      refine .read_ok hslot ?_
      cases slot with
      | none => exact .pure (by simp [Endings.safe])
      | some i =>
        refine .bind (.set (.pure fun v hv => ?_))
        have hv : table.valueAt? i = some v := by
          rw [← Table.removeAt_fst]
          exact Option.mem_toList.mp hv
        obtain ⟨x, hx⟩ := Table.mem_entries_of_valueAt? hv
        exact Heap.has_replace.mpr (hc.noDangling.has_value hg hx)
    | _ => exact .pure (by simp [Endings.safe])

theorem unsupported_safe {α : Type} (op : Operator) {left right : Value} (hl : heap.Has left)
    (hr : heap.Has right) (values : α → List Value) :
    Ends (unsupported op left right : HeapM α) heap (.safe values) := by
  obtain ⟨l, hl⟩ := Heap.typeName_ok hl
  obtain ⟨r, hr⟩ := Heap.typeName_ok hr
  exact .get (.read_ok hl (.read_ok hr (.throw trivial)))

theorem concatenate_safe (ht : heap.Tidy) {left right : Value} (hl : heap.Has left)
    (hr : heap.Has right) : Ends (concatenate left right) heap (.safe fun v => [v]) := by
  unfold concatenate
  split
  · next a b =>
    obtain ⟨o, ho, -⟩ := Heap.get_ok hl
    obtain ⟨p, hp, -⟩ := Heap.get_ok hr
    refine .get (.read_ok ho (.read_ok hp ?_))
    split
    · exact newObject_safe ht _
    · exact .throw trivial
    · exact unsupported_safe _ hl hr _
  · exact unsupported_safe _ hl hr _

theorem evaluate_safe (ht : heap.Tidy) (op : Operator) {left right : Value} (hl : heap.Has left)
    (hr : heap.Has right) : Ends (evaluate op left right) heap (.safe fun v => [v]) := by
  unfold evaluate
  split
  · next a b _ _ =>
    refine .pure fun v hv => ?_
    rw [List.mem_singleton.mp hv]
    cases op with
    | gt | lt => exact heap.has_bool _
    | _ => exact heap.has_number _
  · split
    · exact unsupported_safe _ hl hr _
    · exact .throw trivial
  · cases op with
    | add => exact concatenate_safe ht hl hr
    | mod =>
      obtain ⟨s, hs⟩ := Heap.asString_ok hl
      refine .get (.read_ok hs ?_)
      cases s with
      | none => exact unsupported_safe _ hl hr _
      | some s => exact .throw trivial
    | _ => exact unsupported_safe _ hl hr _

theorem liftM_bind_of_ok {ε α β : Type} {x : Except Fault α} {a : α} (hx : x = .ok a)
    (f : α → Except (Failure ε) β) : (liftM x >>= f) = f a := by
  subst hx
  rfl

/-- The outcome of a query is no fault, and a value whose object is there if it is one. -/
def Heap.Answers (heap : Heap) : Except (Failure EvalError) Value → Prop
  | .ok v => heap.Has v
  | .error (.error _) => True
  | .error (.fault _) => False

theorem getAttribute_answers (hc : heap.Closed) {receiver : Value} (hr : heap.Has receiver)
    (name : String) : heap.Answers (heap.getAttribute receiver name) := by
  unfold Heap.getAttribute
  cases receiver with
  | object h =>
    obtain ⟨o, ho, hg⟩ := Heap.get_ok hr
    dsimp only
    rw [liftM_bind_of_ok ho]
    cases o with
    | string s | list elements =>
      dsimp only
      split
      · exact heap.has_number _
      · exact trivial
    | map table =>
      obtain ⟨r, hl, hv⟩ := Heap.lookupBytes_ok hc hg (Utf8.encode name)
      dsimp only
      rw [liftM_bind_of_ok hl]
      cases r with
      | none => exact trivial
      | some v => exact hv v rfl
    | script script =>
      obtain ⟨r, hf, hv⟩ := Heap.scriptFunction_ok hc hg name
      dsimp only
      rw [liftM_bind_of_ok hf]
      cases r with
      | some f => exact hv f rfl
      | none =>
        dsimp only
        cases hglobal : script.global? name with
        | none => exact trivial
        | some v =>
          refine hc.noDangling.has hg fun k hk => ?_
          obtain ⟨⟨name, w⟩, hfind, hval⟩ := Option.map_eq_some_iff.mp hglobal
          obtain rfl : w = .object k := hval.trans hk
          exact .global (List.mem_of_find?_eq_some hfind)
    | _ => exact trivial
  | _ => exact trivial

theorem setAttribute_safe (hc : heap.Closed) {receiver : Value} (hr : heap.Has receiver)
    (name : String) (value : Value) :
    Ends (setAttribute receiver name value) heap (.safe fun _ => []) := by
  refine .get ?_
  cases receiver with
  | object h =>
    obtain ⟨o, ho, hg⟩ := Heap.get_ok hr
    refine .read_ok ho ?_
    cases o with
    | string s | list elements =>
      dsimp only
      split <;> exact .throw trivial
    | script script =>
      obtain ⟨r, hf, -⟩ := Heap.scriptFunction_ok hc hg name
      refine .read_ok hf ?_
      cases r with
      | some f => exact .throw trivial
      | none =>
        dsimp only
        split
        · exact .set nothing_safe
        · exact .throw trivial
    | _ => exact .throw trivial
  | _ => exact .read_ok rfl (.throw trivial)

theorem getSubscript_safe (ht : heap.Tidy) (hc : heap.Closed) {receiver key : Value}
    (hr : heap.Has receiver) (hk : heap.Has key) :
    Ends (getSubscript receiver key) heap (.safe fun v => [v]) := by
  refine .get ?_
  cases receiver with
  | object h =>
    obtain ⟨o, ho, hg⟩ := Heap.get_ok hr
    refine .read_ok ho ?_
    cases o with
    | string s => exact .check (fun i _ => newObject_safe ht _) fun _ _ => trivial
    | list elements =>
      refine .check (fun i _ => .pure fun v hv => ?_) fun _ _ => trivial
      rw [List.mem_singleton.mp hv]
      cases he : elements.get? i with
      | none => exact heap.has_null
      | some w =>
        refine hc.noDangling.has hg fun k hk => .element ?_
        rw [← hk]
        exact List.mem_of_getElem? (by rw [Buffer.getElem?_toList, he]; rfl)
    | map table =>
      obtain ⟨r, hl, hv⟩ := Heap.lookup_ok hc hg hk
      refine .read_ok hl ?_
      cases r with
      | some v =>
        refine .pure fun w hw => ?_
        rw [List.mem_singleton.mp hw]
        exact hv v rfl
      | none =>
        obtain ⟨e, he⟩ := Heap.missingKey_ok hc hk
        exact .read_ok he (.throw trivial)
    | _ => exact .throw trivial
  | _ => exact .read_ok rfl (.throw trivial)

theorem setSubscript_safe (hc : heap.Closed) {receiver key : Value} (hr : heap.Has receiver)
    (hk : heap.Has key) (value : Value) :
    Ends (setSubscript receiver key value) heap (.safe fun _ => []) := by
  refine .get ?_
  cases receiver with
  | object h =>
    obtain ⟨o, ho, hg⟩ := Heap.get_ok hr
    refine .read_ok ho ?_
    cases o with
    | list elements => exact .check (fun i _ => .set nothing_safe) fun _ _ => trivial
    | map table => exact mapSet_safe hc hr hk value
    | _ => exact .throw trivial
  | _ => exact .read_ok rfl (.throw trivial)

/-- The values in the outcome of a step. -/
theorem yield_safe {after : Heap} {v : Value} (hv : after.Has v) (completed : Nat) :
    (Endings.safe fun s => (Finding.step s).values).ok (IterationStep.yield v completed) after := by
  intro w hw
  simp only [IterationStep.yield, Finding.values, List.mem_cons, List.not_mem_nil, or_false] at hw
  rcases hw with rfl | rfl
  · exact after.has_number _
  · exact hv

theorem rangeStep_cases (start stop : Double) (step : Nat) :
    rangeStep start stop step = .done ∨
      ∃ x, rangeStep start stop step = .yield (.number x) (step + 1) := by
  unfold rangeStep
  dsimp only
  split
  all_goals
    split
    · exact .inl rfl
    · exact .inr ⟨_, rfl⟩

theorem iterate_safe (ht : heap.Tidy) (hc : heap.Closed) {container : Value}
    (hcon : heap.Has container) (state : Value) :
    Ends (iterate container state) heap (.safe fun s => (Finding.step s).values) := by
  have hdone : (Endings.safe fun s => (Finding.step s).values).ok IterationStep.done heap := by
    simp [Endings.safe, Finding.values]
  cases container with
  | object h =>
    refine .check (fun step _ => ?_) fun _ _ => trivial
    obtain ⟨o, ho, hg⟩ := Heap.get_ok hcon
    refine .get (.read_ok ho ?_)
    cases o with
    | string s =>
      dsimp only
      split
      · exact .bind (.newObject (.pure (yield_safe
          (Heap.has_object.mpr (Heap.isLive_alloc heap ht _)) _)))
      · exact .pure hdone
    | list elements =>
      dsimp only
      split
      · next element he =>
        refine .pure (yield_safe (hc.noDangling.has hg fun k hk => .element ?_) _)
        rw [← hk]
        exact List.mem_of_getElem? (by rw [Buffer.getElem?_toList, he])
      · exact .pure hdone
    | map table =>
      dsimp only
      split
      · next slot key hs =>
        obtain ⟨v, hm⟩ := Table.mem_entries_of_nextOccupied? hs
        exact .pure (yield_safe (hc.noDangling.has_key hg hm) _)
      · exact .pure hdone
    | range start stop =>
      rcases rangeStep_cases start stop step with hs | ⟨x, hs⟩
      · exact .pure (hs ▸ hdone)
      · exact .pure (hs ▸ yield_safe (heap.has_number x) _)
    | _ => exact .throw trivial
  | _ => exact .throw trivial

end Operations

/-! ## 3. Runs -/

theorem finding_safe {finding : Finding} {after : Heap} (hf : finding.values = []) :
    (Endings.safe Finding.values).ok finding after := by
  simp [Endings.safe, hf]

theorem HeapAction.withHandle_safe {heap : Heap} {v : Value} {body : Handle → HeapM Finding}
    (h : ∀ k, v = .object k → Ends (body k) heap (.safe Finding.values)) :
    Ends (withHandle v body) heap (.safe Finding.values) := by
  cases v with
  | object k => exact h k rfl
  | _ => exact .pure (finding_safe rfl)

theorem mapRead_safe {heap : Heap} {map : Value}
    {read : Heap → Table Value Value → Except Fault (Option Value)} (hm : heap.Has map)
    (hread : ∀ h table, heap.get? h = some (.map table) →
      ∃ r, read heap table = .ok r ∧ ∀ v ∈ r, heap.Has v) :
    Ends (do
      let heap ← get
      match ← heap.asMap map with
      | some table => return .option (← read heap table)
      | none => return .refused) heap (.safe Finding.values) := by
  obtain ⟨t?, ht⟩ := Heap.asMap_ok hm
  refine .get (.read_ok ht ?_)
  cases t? with
  | none => exact .pure (finding_safe rfl)
  | some table =>
    obtain ⟨h, hg⟩ := Heap.asMap_eq_some ht
    obtain ⟨r, hr, hv⟩ := hread h table hg
    refine .read_ok hr (.pure fun v hmem => hv v ?_)
    exact Option.mem_toList.mp hmem

/-- An action on objects that are there does not run into a fault, and what it brings back is
there. -/
theorem HeapAction.safe {heap : Heap} (ht : heap.Tidy) (hc : heap.Closed) (a : HeapAction Value)
    (ha : ∀ v ∈ a.operands, heap.Has v) : Ends a.perform heap (.safe Finding.values) := by
  have hnew : ∀ o, Ends (do return Finding.value (← newObject o)) heap (.safe Finding.values) :=
    fun o => (newObject_safe ht o).andThen_safe Finding.value fun v => by simp [Finding.values]
  have hread : ∀ {α : Type} {x : Heap → Except Fault α} {f : α → Finding},
      (∃ r, x heap = .ok r) → (∀ r, (f r).values = []) →
      Ends (do return f (← x (← get))) heap (.safe Finding.values) := by
    rintro α x f ⟨r, hr⟩ hf
    exact .get (.read_ok hr (.pure (finding_safe (hf r))))
  cases a with
  | newString | newList | newMap | newRange | newForeign | newFunction | newScript | newFiber =>
    exact hnew _
  | listPush list element =>
    exact (listPush_safe (ha list (by simp [operands])) element).andThen_safe .flag
      fun b => by simp [Finding.values]
  | listPop list =>
    exact (listPop_safe hc (ha list (by simp [operands]))).andThen_safe .option
      fun v => by simp [Finding.values]
  | mapSet map key value =>
    refine withHandle_safe fun m hm => ?_
    subst hm
    have hset := mapSet_safe hc (ha (.object m) (by simp [operands]))
      (ha key (by simp [operands])) value
    exact hset.andThen_safe (fun _ => Finding.nothing) fun _ => by simp [Finding.values]
  | mapGet map key =>
    exact mapRead_safe (ha map (by simp [operands])) fun _ _ hg =>
      Heap.lookup_ok hc hg (ha key (by simp [operands]))
  | mapGetBytes map bytes =>
    exact mapRead_safe (ha map (by simp [operands])) fun _ _ hg => Heap.lookupBytes_ok hc hg bytes
  | mapRemove map key =>
    refine withHandle_safe fun m hm => ?_
    subst hm
    exact (mapRemove_safe hc (ha _ (by simp [operands])) (ha key (by simp [operands]))).andThen_safe
      .option fun v => by simp [Finding.values]
  | binary operator left right =>
    exact (evaluate_safe ht operator (ha left (by simp [operands]))
      (ha right (by simp [operands]))).andThen_safe .value fun v => by simp [Finding.values]
  | getAttribute receiver name =>
    have hans := getAttribute_answers hc (ha receiver (by simp [operands])) name
    refine .bind (.get (.query (fun v hv => ?_) (fun _ _ => trivial) fun f hf => ?_))
    · rw [hv] at hans
      exact .pure fun w hw => List.mem_singleton.mp hw ▸ hans
    · rw [hf] at hans
      exact hans
  | setAttribute receiver name value =>
    exact (setAttribute_safe hc (ha receiver (by simp [operands])) name value).andThen_safe
      (fun _ => Finding.nothing) fun _ => by simp [Finding.values]
  | getSubscript receiver key =>
    exact (getSubscript_safe ht hc (ha receiver (by simp [operands]))
      (ha key (by simp [operands]))).andThen_safe .value fun v => by simp [Finding.values]
  | setSubscript receiver key value =>
    exact (setSubscript_safe hc (ha receiver (by simp [operands])) (ha key (by simp [operands]))
      value).andThen_safe (fun _ => Finding.nothing) fun _ => by simp [Finding.values]
  | iterate container state =>
    exact (iterate_safe ht hc (ha container (by simp [operands])) state).andThen_safe .step
      fun s => by simp
  | render value quoted =>
    exact hread (Heap.render_ok hc.noDangling (ha value (by simp [operands])) quoted) fun _ => rfl
  | typeName value => exact hread (Heap.typeName_ok (ha value (by simp [operands]))) fun _ => rfl
  | hash value => exact hread (Heap.hashOf_ok (ha value (by simp [operands]))) fun _ => rfl
  | equal left right =>
    exact hread (Heap.equal_ok (ha left (by simp [operands])) (ha right (by simp [operands])))
      fun _ => rfl
  | addRoot value | removeRoot value =>
    exact withHandle_safe fun h _ => .get (.bind (.set (.pure (finding_safe rfl))))
  | pin values | release depth =>
    exact .get (.bind (.set (.pure (finding_safe rfl))))
  | collect => exact .bind (.pure (.pure (finding_safe rfl)))

theorem HeapOp.safe {heap : Heap} (ht : heap.Tidy) (hc : heap.Closed) {op : HeapOp}
    (hop : op.Admitted heap) : Ends op.perform heap (.safe Finding.values) := by
  cases op with
  | act a =>
    refine a.safe ht hc fun v hv h hh => hop.1 h ?_
    exact Value.mem_handles_iff.mpr (hh ▸ hv)
  | alloc o => exact (newObject_safe ht o).andThen_safe .value fun v => by simp [Finding.values]
  | overwrite h o' =>
    obtain ⟨o, ho, -⟩ := Heap.get_ok (Heap.has_object.mpr (hop.1 h (by simp [handles])))
    refine .get (.read_ok ho ?_)
    split
    · exact .bind (.set (.pure (finding_safe rfl)))
    · exact .pure (finding_safe rfl)
  | remeasure h => exact .get (.bind (.set (.pure (finding_safe rfl))))

/-- Handles are safe under every schedule of collections. A run that hands each operation objects
that are there stays on closed heaps, no operation of it runs into a fault, and what an operation
brings back is there when it ends. -/
theorem Reachable.handles_safe {tuning : Tuning} {heap : Heap}
    (hr : Reachable (fun heap op => op.Admitted heap) tuning heap) :
    heap.Closed ∧ ∀ op : HeapOp, op.Admitted heap →
      (op.after heap).Closed ∧
      (∀ f after, op.perform heap ≠ .error (.fault f) after) ∧
      ∀ finding after, op.perform heap = .ok finding after → ∀ v ∈ finding.values, after.Has v := by
  refine ⟨hr.closed, fun op hop => ⟨(hr.step hop).closed, fun f after hf => ?_, ?_⟩⟩
  · have hends := HeapOp.safe hr.tidy hr.closed hop
    unfold Ends at hends
    rw [hf] at hends
    exact hends
  · intro finding after hok v hv
    have hends := HeapOp.safe hr.tidy hr.closed hop
    unfold Ends at hends
    rw [hok] at hends
    exact hends v hv

/-- The second allocation passes the threshold. The operands of the sum are gone when the sum is
allocated, in the cell of one of them. -/
theorem Reachable.handles_safe_of_collection :
    let tuning : Tuning := ⟨81, 81, 0, false⟩
    let heap := (HeapOp.act (.newString [97])).after (.empty tuning)
    let sum : HeapOp := .act (.binary .add (.object ⟨0, 0⟩) (.object ⟨0, 0⟩))
    Reachable (fun heap op => op.Admitted heap) tuning heap ∧ sum.Admitted heap ∧
      heap.Closed ∧ (sum.after heap).Closed ∧
      ∀ f after, sum.perform heap ≠ .error (.fault f) after := by
  intro tuning heap sum
  have hr : Reachable (fun heap op => op.Admitted heap) tuning heap :=
    .step .start ⟨by simp [HeapOp.handles, HeapAction.operands], by simp⟩
  have hsum : sum.Admitted heap := by
    refine ⟨fun h hh => ?_, by simp [sum]⟩
    obtain rfl : h = ⟨0, 0⟩ := by
      simpa [sum, HeapOp.handles, HeapAction.operands, Value.handle?] using hh
    rfl
  obtain ⟨hc, hops⟩ := hr.handles_safe
  obtain ⟨hc', hf, -⟩ := hops sum hsum
  exact ⟨hr, hsum, hc, hc', hf⟩

end ScriptMachine
