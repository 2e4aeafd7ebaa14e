import ScriptMachine.Proofs.Heap.Maps
import ScriptMachine.Proofs.Heap.Safety

/-!
# What an assignment changes

A subscript or an attribute that is written is looked for first. If it cannot be written, nothing
is. If it can, one object is another one afterwards, and all else is as it was: handles, anchors,
books and the other objects. Only a map is measured again, since an entry may have made it grow.

What was written is read back, and what was not reads as before. The reads take other ways than the
writes: a position has several names, a table may have been rebuilt for the new entry, and the
error for a missing key shows the key.

Main definitions:
- `Heap.Rewritten`: one object is another one, and nothing else differs.
- `Heap.SubscriptSet`, `Heap.AttributeSet`: what a subscript and an attribute that were written
  come to.

Results:
1. `Heap.replace_rewritten`, `Heap.remeasure_rewritten`: writes in place rewrite one object.
2. `getSubscript_list`, `getSubscript_map`, `Heap.getAttribute_script`: what reads answer.
3. `Reachable.assignments_framed`: writes do nothing, or what they should and nothing else.
-/

namespace ScriptMachine

/-! ## 1. Writes in place -/

namespace Heap

/-- `heap.Rewritten h o measured after`: the object behind `h` is `o` in `after`, and nothing else
differs from `heap`. The size of the object is that of the old one, unless it was measured. -/
structure Rewritten (heap : Heap) (h : Handle) (o : Object) (measured : Bool) (after : Heap) :
    Prop where
  entry : ∃ e, heap.entry? h = some e ∧
    after.entry? h = some { e with object := o, size := if measured then o.footprint else e.size } ∧
    after.bytes = if measured then heap.bytes - e.size + o.footprint else heap.bytes
  others : ∀ k, k ≠ h → after.entry? k = heap.entry? k
  live : ∀ k, after.isLive k = heap.isLive k
  generations : after.cells.map (·.generation) = heap.cells.map (·.generation)
  rest : after = { heap with cells := after.cells, bytes := after.bytes }

variable {heap after : Heap} {h : Handle} {o o' : Object}

theorem Rewritten.get?_self {measured : Bool} (hw : heap.Rewritten h o measured after) :
    after.get? h = some o := by
  obtain ⟨e, -, he, -⟩ := hw.entry
  exact get?_eq_some_iff.mpr ⟨_, he, rfl⟩

theorem Rewritten.get?_other {measured : Bool} (hw : heap.Rewritten h o measured after)
    {k : Handle} (hk : k ≠ h) : after.get? k = heap.get? k := by
  rw [get?, get?, hw.others k hk]

theorem generations_setIfInBounds {cells : Array Cell} {h : Handle} {e : Option Entry}
    (hc : cells[h.index]? = some ⟨h.generation, e⟩) (e' : Option Entry) :
    (cells.setIfInBounds h.index ⟨h.generation, e'⟩).map (·.generation) =
      cells.map (·.generation) := by
  rw [Array.map_setIfInBounds]
  refine Array.ext_getElem? fun i => ?_
  rw [Array.getElem?_setIfInBounds]
  split
  · next hi =>
    subst hi
    obtain ⟨hlt, hcell⟩ := Array.getElem?_eq_some_iff.mp hc
    simp [hlt, hcell]
  · rfl

theorem replace_rewritten (ho : heap.get? h = some o) (o' : Object) :
    heap.Rewritten h o' false (heap.replace h o') := by
  obtain ⟨e, he, -⟩ := get?_eq_some_iff.mp ho
  refine ⟨⟨e, he, ?_, ?_⟩, fun k hk => ?_, fun k => isLive_replace heap h k o', ?_, ?_⟩
  · rw [entry?_replace o' he, if_pos rfl]
    rfl
  · simp [replace, he]
  · rw [entry?_replace o' he, if_neg hk]
  · simp only [replace, he]
    exact generations_setIfInBounds (entryAt?_eq_some_iff.mp he) _
  · simp [replace, he]

theorem remeasure_rewritten (hw : heap.Rewritten h o false after) :
    heap.Rewritten h o true (after.remeasure h) := by
  obtain ⟨e, he, he', hbytes⟩ := hw.entry
  refine ⟨⟨e, he, ?_, ?_⟩, fun k hk => ?_, fun k => ?_, ?_, ?_⟩
  · rw [entry?_remeasure he', if_pos rfl]
    rfl
  · simp [remeasure, he', hbytes]
  · rw [entry?_remeasure he', if_neg hk, hw.others k hk]
  · rw [isLive, get?_remeasure]
    exact hw.live k
  · simp only [remeasure, he']
    rw [generations_setIfInBounds (entryAt?_eq_some_iff.mp he')]
    exact hw.generations
  · have hrest : after.remeasure h = { after with
        cells := (after.remeasure h).cells, bytes := (after.remeasure h).bytes } := by
      simp [remeasure, he']
    exact hrest.trans (congrArg (fun before : Heap => { before with
      cells := (after.remeasure h).cells, bytes := (after.remeasure h).bytes }) hw.rest)

end Heap

/-! ## 2. What reads answer -/

/-- The outcome of an operation, whatever it leaves of the heap. -/
def answer {α : Type} (m : HeapM α) (heap : Heap) : Except (Failure EvalError) α :=
  match m heap with
  | .ok a _ => .ok a
  | .error e _ => .error e

theorem answer_read {α β : Type} (x : Except Fault α) (f : α → HeapM β) (heap : Heap) :
    answer (liftM x >>= f) heap =
      match x with
      | .ok a => answer (f a) heap
      | .error fault => .error (.fault fault) := by
  cases x <;> rfl

theorem answer_check {α β : Type} (x : Except EvalError α) (f : α → HeapM β) (heap : Heap) :
    answer (liftM x >>= f) heap =
      match x with
      | .ok a => answer (f a) heap
      | .error e => .error (.error e) := by
  cases x <;> rfl

section Reads

variable {heap : Heap} {h : Handle}

theorem getSubscript_list {elements : Buffer Value} (hl : heap.get? h = some (.list elements))
    (key : Value) :
    answer (getSubscript (.object h) key) heap =
      match requirePosition key elements.size Kind.list.name with
      | .ok index => .ok ((elements.get? index).getD .null)
      | .error e => .error (.error e) := by
  show answer (liftM (heap.get h) >>= _) heap = _
  rw [answer_read, Heap.get_eq_ok_iff.mpr hl]
  show answer (liftM (requirePosition key elements.size Kind.list.name) >>= _) heap = _
  rw [answer_check]
  cases requirePosition key elements.size Kind.list.name <;> rfl

/-- A key of a map reads what it is bound to, or is missing. -/
theorem getSubscript_map {table : Table Value Value} {f : Key → Option (Value × Value)}
    (hm : heap.get? h = some (.map table)) (hr : table.Represents heap.keyOf? Key.hash f)
    {key : Value} {k : Key} (hk : heap.keyOf? key = some k) :
    answer (getSubscript (.object h) key) heap =
      match f k with
      | some (_, value) => .ok value
      | none =>
        match heap.missingKey key with
        | .ok e => .error (.error e)
        | .error fault => .error (.fault fault) := by
  show answer (liftM (heap.get h) >>= _) heap = _
  rw [answer_read, Heap.get_eq_ok_iff.mpr hm]
  show answer (liftM (heap.lookup table key) >>= _) heap = _
  rw [answer_read, Heap.lookup_eq hr hk]
  cases f k with
  | some binding => rfl
  | none =>
    show answer (liftM (heap.missingKey key) >>= _) heap = _
    rw [answer_read]
    cases heap.missingKey key <;> rfl

theorem Heap.getAttribute_script {script : Script} (hs : heap.get? h = some (.script script))
    (name : String) :
    heap.getAttribute (.object h) name =
      match heap.scriptFunction script name with
      | .error fault => .error (.fault fault)
      | .ok (some function) => .ok (.object function)
      | .ok none =>
        match script.global? name with
        | some value => .ok value
        | none => .error (.error (.attributeNotFound Kind.script.name name)) := by
  unfold getAttribute
  dsimp only
  rw [liftM_bind_of_ok (get_eq_ok_iff.mpr hs)]
  dsimp only
  cases heap.scriptFunction script name with
  | error fault => rfl
  | ok function =>
    rw [liftM_bind_of_ok rfl]
    cases function with
    | some function => rfl
    | none => cases script.global? name <;> rfl

end Reads

/-! ### Reads of what is left alone -/

namespace Heap

/-- A key shows as before as long as its string stays. -/
theorem missingKey_congr {heap other : Heap} {key : Value} {k : Key}
    (hk : heap.keyOf? key = some k)
    (hs : ∀ h s, key = .object h → heap.get? h = some (.string s) →
      other.get? h = some (.string s)) : other.missingKey key = heap.missingKey key := by
  have hrender : other.render key true = heap.render key true := by
    rw [render_eq, render_eq]
    cases key with
    | object h =>
      obtain ⟨s, hget, -⟩ := keyOf?_object.mp hk
      rw [renderIn_object, renderIn_object, get_eq_ok_iff.mpr hget,
        get_eq_ok_iff.mpr (hs h s rfl hget)]
      rfl
    | _ => simp only [renderIn]
  rw [missingKey, missingKey, hrender, hashOf_of_keyOf? hk, hashOf_of_keyOf? (keyOf?_mono hk hs)]

/-- The functions of the heap are those it had, if a module was written. -/
theorem Rewritten.asFunction_eq {heap after : Heap} {h : Handle} {s s' : Script} {measured : Bool}
    (hw : heap.Rewritten h (.script s') measured after) (hs : heap.get? h = some (.script s))
    (v : Value) : after.asFunction v = heap.asFunction v := by
  cases v with
  | object k =>
    rw [asFunction, asFunction, view_object, view_object]
    by_cases hk : k = h
    · subst hk
      rw [get_eq_ok_iff.mpr hs, get_eq_ok_iff.mpr hw.get?_self]
      rfl
    · rw [get, get, hw.get?_other hk]
  | _ => rfl

end Heap

/-! ## 3. Lists, maps and modules -/

namespace Heap

variable {heap after : Heap} {h : Handle}

/-- What a subscript that was written comes to. -/
inductive SubscriptSet (heap : Heap) (key value : Value) (after : Heap) : Value → Prop
  /-- An element is another one. Whatever names its position reads it, and all else reads as
  before. -/
  | element {h : Handle} {elements : Buffer Value} {index : Nat} :
      heap.get? h = some (.list elements) →
      requirePosition key elements.size Kind.list.name = .ok index →
      heap.Rewritten h (.list (elements.set index value)) false after →
      (∀ k, requirePosition k elements.size Kind.list.name = .ok index →
        answer (getSubscript (.object h) k) after = .ok value) →
      (∀ k, requirePosition k elements.size Kind.list.name ≠ .ok index →
        answer (getSubscript (.object h) k) after = answer (getSubscript (.object h) k) heap) →
      SubscriptSet heap key value after (.object h)
  /-- A key has a value. Whatever is the same key reads it, and every other key reads as before. -/
  | entry {h : Handle} {table table' : Table Value Value} :
      heap.get? h = some (.map table) →
      heap.Rewritten h (.map table') true after →
      answer (getSubscript (.object h) key) after = .ok value →
      (∀ k hash, heap.hashOf k = .ok (some hash) → heap.equal k key = .ok true →
        answer (getSubscript (.object h) k) after = .ok value) →
      (∀ k hash, heap.hashOf k = .ok (some hash) → heap.equal k key = .ok false →
        answer (getSubscript (.object h) k) after = answer (getSubscript (.object h) k) heap) →
      SubscriptSet heap key value after (.object h)

/-- What an attribute that was written comes to: the first variable of this name has another value,
which is read back, and all other names read as before. -/
def AttributeSet (heap : Heap) (receiver : Value) (name : String) (value : Value) (after : Heap) :
    Prop :=
  ∃ h script index, receiver = .object h ∧ heap.get? h = some (.script script) ∧
    script.globalIndex? name = some index ∧
    heap.Rewritten h (.script { script with globals := script.globals.set index ⟨name, value⟩ })
      false after ∧
    after.getAttribute receiver name = .ok value ∧
    ∀ other, other ≠ name → after.getAttribute receiver other = heap.getAttribute receiver other

theorem requirePosition_lt {key : Value} {length index : Nat} {container : String}
    (hi : requirePosition key length container = .ok index) : index < length := by
  unfold requirePosition at hi
  cases hn : requireInteger key (container ++ " index") with
  | error e =>
    rw [hn] at hi
    cases hi
  | ok n =>
    rw [hn] at hi
    change requireIndex n length container = .ok index at hi
    unfold requireIndex at hi
    split at hi
    · cases hi
      omega
    · cases hi

theorem elementSet {elements : Buffer Value} (hl : heap.get? h = some (.list elements))
    {key : Value} {index : Nat}
    (hi : requirePosition key elements.size Kind.list.name = .ok index) (value : Value) :
    heap.SubscriptSet key value (heap.replace h (.list (elements.set index value)))
      (.object h) := by
  have hw := replace_rewritten hl (.list (elements.set index value))
  have hsize : (elements.set index value).size = elements.size := by simp [Buffer.set, Buffer.size]
  have helement : ∀ i, (elements.set index value).get? i =
      if index = i then some value else elements.get? i := by
    intro i
    have hlt : index < elements.items.size := requirePosition_lt hi
    simp [Buffer.set, Buffer.get?, Array.getElem?_setIfInBounds, hlt]
  refine .element hl hi hw (fun k hk => ?_) fun k hk => ?_
  · rw [getSubscript_list hw.get?_self, hsize, hk]
    simp [helement]
  · rw [getSubscript_list hw.get?_self, getSubscript_list hl, hsize]
    cases hpos : requirePosition k elements.size Kind.list.name with
    | error e => rfl
    | ok i =>
      have hne : index ≠ i := by
        rintro rfl
        exact hk hpos
      simp [helement, hne]

theorem entrySet {table : Table Value Value} {f : Key → Option (Value × Value)}
    (hm : heap.get? h = some (.map table)) (hr : table.Represents heap.keyOf? Key.hash f)
    {key : Value} {k : Key} (hk : heap.keyOf? key = some k) (value : Value) :
    heap.SubscriptSet key value ((heap.replace h (.map (table.write
      (table.find? k.hash fun c => decide (heap.keyOf? c = some k)) key k.hash value))).remeasure h)
      (.object h) := by
  generalize htable : table.write (table.find? k.hash fun c => decide (heap.keyOf? c = some k)) key
    k.hash value = table'
  generalize hafter : (heap.replace h (.map table')).remeasure h = after
  have hw : heap.Rewritten h (.map table') true after :=
    hafter ▸ remeasure_rewritten (replace_rewritten hm _)
  have hkeys : ∀ v, after.keyOf? v = heap.keyOf? v := by
    intro v
    rw [← hafter, keyOf?_remeasure, keyOf?_replace_map hm]
  have hr' := (htable ▸ write_represents hr hk value).congr fun r _ => hkeys r.1
  -- Whatever stands for the key that was set reads the value, also the key as it was given.
  have hsame : ∀ v, heap.keyOf? v = some k →
      answer (getSubscript (.object h) v) after = .ok value := by
    intro v hv
    rw [getSubscript_map hw.get?_self hr' ((hkeys v).trans hv), Table.rebind, if_pos rfl]
  refine .entry hm hw (hsame key hk) (fun v hash hhash heq => ?_) fun v hash hhash hne => ?_
  · obtain ⟨j, hj, -⟩ := hashOf_eq_some_iff.mp hhash
    rw [equal_of_keyOf? hj hk] at heq
    have hjk : j = k := by simpa using heq
    exact hsame v (hjk ▸ hj)
  · obtain ⟨j, hj, -⟩ := hashOf_eq_some_iff.mp hhash
    rw [equal_of_keyOf? hj hk] at hne
    have hjk : j ≠ k := by simpa using hne
    have hmissing : after.missingKey v = heap.missingKey v := by
      refine missingKey_congr hj fun g s _ hs => ?_
      have hg : g ≠ h := by
        rintro rfl
        rw [hm] at hs
        cases hs
      rw [hw.get?_other hg, hs]
    rw [getSubscript_map hw.get?_self hr' ((hkeys v).trans hj), getSubscript_map hm hr hj, hmissing,
      Table.rebind, if_neg hjk]

/-! ### Variables of a module -/

/-- Where a search for a name ends, a variable of this name stands, and none before it. -/
theorem find?_set {l : List Global} {name : String} {index : Nat}
    (hi : l.findIdx? (·.name == name) = some index) (value : Value) (other : String) :
    (l.set index ⟨name, value⟩).find? (·.name == other) =
      if other = name then some ⟨name, value⟩ else l.find? (·.name == other) := by
  induction l generalizing index with
  | nil => cases hi
  | cons g l ih =>
    rw [List.findIdx?_cons] at hi
    split at hi
    · next hg =>
      cases hi
      have hg : g.name = name := by simpa using hg
      by_cases hother : other = name
      · simp [hother]
      · simp [hother, hg, Ne.symm hother]
    · next hg =>
      obtain ⟨i, hrest, rfl⟩ := Option.map_eq_some_iff.mp hi
      have hg : (g.name == name) = false := by simpa using hg
      rw [List.set_cons_succ, List.find?_cons, List.find?_cons, ih hrest]
      by_cases hother : other = name
      · simp [hother, hg]
      · simp [hother]

/-- A variable that is overwritten keeps its name. -/
theorem setGlobal_eq {script : Script} {name : String} {index : Nat}
    (hi : script.globalIndex? name = some index) (value : Value) :
    script.setGlobal index value =
      { script with globals := script.globals.set index ⟨name, value⟩ } := by
  obtain ⟨hlt, hname, -⟩ := List.findIdx?_eq_some_iff_getElem.mp hi
  have hget : script.globals.get? index = some script.globals.toList[index] := by
    rw [← Buffer.getElem?_toList, List.getElem?_eq_getElem hlt]
  have hname : script.globals.toList[index].name = name := by simpa using hname
  simp only [Script.setGlobal, hget, hname]

theorem attributeSet {script : Script} (hs : heap.get? h = some (.script script)) {name : String}
    (hf : heap.scriptFunction script name = .ok none) {index : Nat}
    (hi : script.globalIndex? name = some index) (value : Value) :
    heap.AttributeSet (.object h) name value
      (heap.replace h (.script (script.setGlobal index value))) := by
  rw [setGlobal_eq hi]
  have hw := replace_rewritten hs
    (.script { script with globals := script.globals.set index ⟨name, value⟩ })
  have hfunctions : ∀ other, (heap.replace h (.script { script with
      globals := script.globals.set index ⟨name, value⟩ })).scriptFunction { script with
        globals := script.globals.set index ⟨name, value⟩ } other =
        heap.scriptFunction script other := by
    intro other
    unfold scriptFunction
    simp only [hw.asFunction_eq hs]
  refine ⟨h, script, index, rfl, hs, hi, hw, ?_, fun other hne => ?_⟩
  · rw [getAttribute_script hw.get?_self, hfunctions, hf, Script.global?, Buffer.toList_set,
      find?_set hi, if_pos rfl]
    rfl
  · rw [getAttribute_script hw.get?_self, getAttribute_script hs, hfunctions, Script.global?,
      Script.global?, Buffer.toList_set, find?_set hi, if_neg hne]

end Heap

/-! ## 4. Assignments -/

/-- An operation does not meet a fault. It does what is asked, or it fails and does nothing. -/
def Endings.atomic {α : Type} (heap : Heap) (P : Heap → Prop) : Endings α where
  ok _ after := P after
  error _ after := after = heap
  fault _ _ := False

section Assignments

variable {heap : Heap}

/-- Keys of maps are keys, and strings know their hash, in every run. -/
theorem Heap.MapsProper.closed (hp : heap.MapsProper) (hd : heap.NoDangling) : heap.Closed where
  held := hd
  keys := by
    intro h table key value hm hmem
    obtain ⟨f, hr⟩ := hp h table hm
    rw [Table.entries_eq_map] at hmem
    obtain ⟨⟨_, _, hash⟩, hrec, heq⟩ := List.mem_map.mp hmem
    cases heq
    obtain ⟨k, hk, -⟩ := hr.bound _ _ _ hrec
    exact isKey_of_hashOf (hashOf_of_keyOf? hk)
  hashes := fun _ s _ => s.hash_eq

theorem setSubscript_atomic (hp : heap.MapsProper) {receiver key : Value}
    (hrec : heap.Has receiver) (hkey : heap.Has key) (value : Value) :
    Ends (setSubscript receiver key value) heap
      (.atomic heap fun after => heap.SubscriptSet key value after receiver) := by
  refine .get ?_
  cases receiver with
  | object h =>
    obtain ⟨o, hget, ho⟩ := Heap.get_ok hrec
    refine .read_ok hget ?_
    cases o with
    | list elements =>
      exact .check (fun index hi => .set (Heap.elementSet ho hi value)) fun _ _ => rfl
    | map table =>
      obtain ⟨f, hr⟩ := hp h table ho
      by_cases hk : ∃ k, heap.keyOf? key = some k
      · obtain ⟨k, hk⟩ := hk
        exact Heap.mapSet_ends ho hr hk value (Heap.entrySet ho hr hk value)
      · -- What is no key is refused before anything is written.
        obtain ⟨hash?, hhash⟩ := Heap.hashOf_ok hkey
        refine .get (.read_ok hget (.read_ok hhash ?_))
        cases hash? with
        | none =>
          obtain ⟨kind, hkind⟩ := Heap.typeName_ok hkey
          exact .read_ok hkind (.throw rfl)
        | some hash =>
          obtain ⟨k, hkey, -⟩ := Heap.hashOf_eq_some_iff.mp hhash
          exact absurd ⟨k, hkey⟩ hk
    | _ => exact .throw rfl
  | _ => exact .read_ok rfl (.throw rfl)

theorem setAttribute_atomic (hc : heap.Closed) {receiver : Value} (hrec : heap.Has receiver)
    (name : String) (value : Value) :
    Ends (setAttribute receiver name value) heap
      (.atomic heap fun after => heap.AttributeSet receiver name value after) := by
  refine .get ?_
  cases receiver with
  | object h =>
    obtain ⟨o, hget, ho⟩ := Heap.get_ok hrec
    refine .read_ok hget ?_
    cases o with
    | string s | list elements =>
      dsimp only
      split <;> exact .throw rfl
    | script script =>
      obtain ⟨f, hf, -⟩ := Heap.scriptFunction_ok hc ho name
      refine .read_ok hf ?_
      cases f with
      | some f => exact .throw rfl
      | none =>
        dsimp only
        split
        · next index hi => exact .set (Heap.attributeSet ho hf hi value)
        · exact .throw rfl
    | _ => exact .throw rfl
  | _ => exact .read_ok rfl (.throw rfl)

end Assignments

/-- On every heap that a run leads to and where no handle is dangling, writing a subscript or an
attribute of what is there does nothing if it fails. If it does not fail, one object is another
one, nothing else differs, what was written is read back and what was not reads as before. -/
theorem Reachable.assignments_framed {tuning : Tuning} {heap : Heap}
    (hr : Reachable (fun _ op => op.MapsEmpty) tuning heap) (hd : heap.NoDangling)
    {receiver key : Value} (hrec : heap.Has receiver) (hkey : heap.Has key) (value : Value)
    (name : String) :
    Ends (setSubscript receiver key value) heap
      (.atomic heap fun after => heap.SubscriptSet key value after receiver) ∧
    Ends (setAttribute receiver name value) heap
      (.atomic heap fun after => heap.AttributeSet receiver name value after) :=
  ⟨setSubscript_atomic hr.mapsProper hrec hkey value,
    setAttribute_atomic (hr.mapsProper.closed hd) hrec name value⟩

/-- A map gets its first entry, for which its table is built. Its attributes cannot be written. -/
theorem Reachable.assignments_framed_of_first_entry :
    let heap := (HeapOp.act .newMap).after (.empty .standard)
    let map := Value.object ⟨0, 0⟩
    Reachable (fun _ op => op.MapsEmpty) .standard heap ∧ heap.NoDangling ∧ heap.Has map ∧
    ∃ after, setSubscript map (.bool true) .null heap = .ok () after ∧
      heap.SubscriptSet (.bool true) .null after map ∧
      ∃ e, setAttribute map "true" .null heap = .error (.error e) heap := by
  intro heap map
  have hr : Reachable (fun _ op => op.MapsEmpty) .standard heap :=
    .step .start (by intro table hmap; cases hmap)
  have hd : heap.NoDangling := by decide
  have hmap : heap.Has map := Heap.has_object.mpr (by decide)
  obtain ⟨hset, -⟩ := hr.assignments_framed hd hmap (heap.has_bool true) .null "true"
  exact ⟨hr, hd, hmap, _, rfl, hset, _, rfl⟩

end ScriptMachine
