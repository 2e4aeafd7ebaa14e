import ScriptMachine.Proofs.Heap.Action
import ScriptMachine.Proofs.Heap.Marking
import ScriptMachine.Proofs.Table.Entries

/-!
# What an operation can change

Of all that can be asked of a heap, few things write, and each in one of a handful of ways. Once
that is said, an invariant of the heap is a matter of these ways and not of the operations.

Main definitions:
- `Rewrite`: what a write in place may do to an object.
- `Change`, `ObjectChange`: the ways in which an action may leave the heap, and those that leave the
  roots and pins as they are.

Results:
1. `HeapAction.changes`: every action leaves the heap in one of these ways, whatever its operands
   and however it ends.
2. `HeapOp.after_anchors`: only actions that are about roots and pins change any.
3. `HeapOp.after_tidy`: every operation keeps the arena tidy, so `Reachable.tidy`.
-/

namespace ScriptMachine

/-! ## 1. Views and keys -/

namespace Heap

theorem view_object {α : Type} (heap : Heap) (select : Object → Option α) (h : Handle) :
    heap.view select (.object h) = (heap.get h).map select := by
  unfold view
  dsimp only
  cases heap.get h <;> rfl

/-- The value can be a key of a map: it is a primitive, or a string that is there. -/
def IsKey (heap : Heap) : Value → Prop
  | .object h => ∃ s, heap.get? h = some (.string s)
  | .null | .bool _ | .number _ => True

theorem asString_eq_some {heap : Heap} {v : Value} {s : ByteString}
    (h : heap.asString v = .ok (some s)) : ∃ k, v = .object k ∧ heap.get? k = some (.string s) := by
  cases v with
  | object k =>
    rw [asString, view_object] at h
    cases hg : heap.get k with
    | error f => simp [hg, Except.map] at h
    | ok o =>
      cases o <;> simp [hg, Except.map] at h
      exact ⟨k, rfl, by rw [get_eq_ok_iff.mp hg, h]⟩
  | _ => cases h

theorem asMap_eq_some {heap : Heap} {v : Value} {t : Table Value Value}
    (h : heap.asMap v = .ok (some t)) : ∃ k, heap.get? k = some (.map t) := by
  cases v with
  | object k =>
    rw [asMap, view_object] at h
    cases hg : heap.get k with
    | error f => simp [hg, Except.map] at h
    | ok o =>
      cases o <;> simp [hg, Except.map] at h
      exact ⟨k, by rw [get_eq_ok_iff.mp hg, h]⟩
  | _ => cases h

theorem isKey_of_hashOf {heap : Heap} {key : Value} {hash : UInt32}
    (h : heap.hashOf key = .ok (some hash)) : heap.IsKey key := by
  cases key with
  | object k =>
    unfold hashOf at h
    cases hs : heap.asString (.object k) with
    | error f => simp [hs, bind, Except.bind] at h
    | ok s? =>
      cases s? with
      | none => simp [hs, bind, Except.bind, pure, Except.pure] at h
      | some s =>
        obtain ⟨k', hk, hg⟩ := asString_eq_some hs
        cases hk
        exact ⟨s, hg⟩
  | _ => exact trivial

end Heap

/-! ## 2. Ways to change -/

/-- `Rewrite heap given o o'`: what `o'` in the place of `o` may be. The kind stays, a string is
never written, and what the new object holds the old one held, or it was given; a new key of a map
can be one. -/
structure Rewrite (heap : Heap) (given : List Handle) (o o' : Object) : Prop where
  kind : o'.kind = o.kind
  notString : o.kind ≠ .string
  children : ∀ k ∈ o'.children, k ∈ o.children ∨ k ∈ given
  keys : ∀ t', o' = .map t' → ∃ t, o = .map t ∧
    ∀ key value, (key, value) ∈ t'.entries → (∃ w, (key, w) ∈ t.entries) ∨ heap.IsKey key

/-- `Change given target heap after`: an action that is handed the handles `given`, and may write
the object of `target`, can turn `heap` into `after`. -/
inductive Change (given : List Handle) (target : Option Handle) (heap : Heap) : Heap → Prop
  | none : Change given target heap heap
  | alloc (o : Object) : o.children ⊆ given → (∀ t, o = .map t → t = .empty) →
      Change given target heap (heap.alloc o).2
  | write {h : Handle} {o o' : Object} : target = some h → heap.get? h = some o →
      Rewrite heap given o o' → Change given target heap (heap.replace h o')
  | writeMeasured {h : Handle} {o o' : Object} : target = some h → heap.get? h = some o →
      Rewrite heap given o o' → Change given target heap ((heap.replace h o').remeasure h)
  | anchor (roots pins : List Handle) :
      Change given target heap { heap with roots := roots, pins := pins }
  | collect : Change given target heap heap.collect.2

/-- `ObjectChange given target heap after`: the same, for an action that is not about roots and
pins. -/
inductive ObjectChange (given : List Handle) (target : Option Handle) (heap : Heap) : Heap → Prop
  | none : ObjectChange given target heap heap
  | alloc (o : Object) : o.children ⊆ given → (∀ t, o = .map t → t = .empty) →
      ObjectChange given target heap (heap.alloc o).2
  | write {h : Handle} {o o' : Object} : target = some h → heap.get? h = some o →
      Rewrite heap given o o' → ObjectChange given target heap (heap.replace h o')
  | writeMeasured {h : Handle} {o o' : Object} : target = some h → heap.get? h = some o →
      Rewrite heap given o o' →
      ObjectChange given target heap ((heap.replace h o').remeasure h)
  | collect : ObjectChange given target heap heap.collect.2

theorem ObjectChange.change {given : List Handle} {target : Option Handle} {heap after : Heap}
    (hc : ObjectChange given target heap after) : Change given target heap after := by
  cases hc with
  | none => exact .none
  | alloc o hchildren hmap => exact .alloc o hchildren hmap
  | write htarget ho hw => exact .write htarget ho hw
  | writeMeasured htarget ho hw => exact .writeMeasured htarget ho hw
  | collect => exact .collect

/-- The operation leaves the heap in one of the ways of `Change`, however it ends. -/
def Changes {α : Type} (given : List Handle) (target : Option Handle) (m : HeapM α) : Prop :=
  ∀ heap, Ends m heap (.always (Change given target heap))

/-- The operation leaves the heap in one of the ways of `ObjectChange`, however it ends. -/
def ObjectChanges {α : Type} (given : List Handle) (target : Option Handle) (m : HeapM α) :
    Prop :=
  ∀ heap, Ends m heap (.always (ObjectChange given target heap))

theorem ObjectChanges.changes {α : Type} {given : List Handle} {target : Option Handle}
    {m : HeapM α} (h : ObjectChanges given target m) : Changes given target m := by
  intro heap
  exact (h heap).mono (fun _ _ hc => hc.change) (fun _ _ hc => hc.change) fun _ _ hc => hc.change

theorem ObjectChanges.andThen {α β : Type} {given : List Handle} {target : Option Handle}
    {m : HeapM α} (h : ObjectChanges given target m) (f : α → β) :
    ObjectChanges given target (do return f (← m)) := by
  intro heap
  exact .bind ((h heap).mono (fun _ _ ha => ha) (fun _ _ ha => ha) fun _ _ ha => ha)

/-! ### Writes of each kind of container -/

theorem rewrite_list {heap : Heap} {given : List Handle} {old new : Buffer Value}
    (h : ∀ v ∈ new.toList, v ∈ old.toList ∨ ∀ k, v.handle? = some k → k ∈ given) :
    Rewrite heap given (.list old) (.list new) where
  kind := rfl
  notString := by simp [Object.kind]
  children := by
    intro k hk
    obtain ⟨v, hv, hvk⟩ := List.mem_filterMap.mp hk
    rcases h v hv with hold | hgiven
    · exact .inl (List.mem_filterMap.mpr ⟨v, hold, hvk⟩)
    · exact .inr (hgiven k hvk)
  keys := by
    intro t ht
    cases ht

theorem rewrite_map_write {heap : Heap} {t : Table Value Value} {slot : Option Nat}
    {key value : Value} {hash : UInt32} (hkey : heap.hashOf key = .ok (some hash))
    {given : List Handle} (hk : ∀ k, key.handle? = some k → k ∈ given)
    (hv : ∀ k, value.handle? = some k → k ∈ given) :
    Rewrite heap given (.map t) (.map (t.write slot key hash value)) where
  kind := rfl
  notString := by simp [Object.kind]
  children := by
    intro k hmem
    simp only [Object.children, List.mem_flatMap, Prod.exists] at hmem ⊢
    obtain ⟨x, y, hxy, hm⟩ := hmem
    obtain ⟨hx, hy⟩ := Table.mem_entries_write hxy
    simp only [List.mem_filterMap, List.mem_cons, List.not_mem_nil, or_false] at hm
    obtain ⟨v, rfl | rfl, hvk⟩ := hm
    · rcases hx with ⟨w, hw⟩ | rfl
      · exact .inl ⟨v, w, hw, by simp [hvk]⟩
      · exact .inr (hk k hvk)
    · rcases hy with ⟨w, hw⟩ | rfl
      · exact .inl ⟨w, v, hw, by simp [hvk]⟩
      · exact .inr (hv k hvk)
  keys := by
    intro t' ht'
    cases ht'
    refine ⟨t, rfl, fun x y hxy => ?_⟩
    rcases (Table.mem_entries_write hxy).1 with hold | rfl
    · exact .inl hold
    · exact .inr (Heap.isKey_of_hashOf hkey)

theorem rewrite_map_remove {heap : Heap} {given : List Handle} {t : Table Value Value} {i : Nat} :
    Rewrite heap given (.map t) (.map (t.removeAt i).2) where
  kind := rfl
  notString := by simp [Object.kind]
  children := by
    intro k hmem
    obtain ⟨p, hp, hm⟩ := List.mem_flatMap.mp hmem
    exact .inl (List.mem_flatMap.mpr ⟨p, Table.mem_entries_removeAt hp, hm⟩)
  keys := by
    intro t' ht'
    cases ht'
    exact ⟨t, rfl, fun x y hxy => .inl ⟨y, Table.mem_entries_removeAt hxy⟩⟩

theorem rewrite_script {heap : Heap} {given : List Handle} {s : Script} {index : Nat}
    {value : Value} (hv : ∀ k, value.handle? = some k → k ∈ given) :
    Rewrite heap given (.script s) (.script (s.setGlobal index value)) where
  kind := rfl
  notString := by simp [Object.kind]
  children := by
    intro k hk
    unfold Script.setGlobal at hk
    split at hk
    · next global hg =>
      simp only [Object.children, Buffer.toList_set, List.mem_append, List.mem_filterMap] at hk ⊢
      rcases hk with hk | ⟨g, hmem, hgk⟩
      · exact .inl (.inl hk)
      · rcases List.mem_or_eq_of_mem_set hmem with hmem | rfl
        · exact .inl (.inr ⟨g, hmem, hgk⟩)
        · exact .inr (hv k hgk)
    · exact .inl hk
  keys := by
    intro t ht
    cases ht

/-! ## 3. Each operation -/

theorem handle_mem {v : Value} {vs : List Value} (hv : v ∈ vs) (k : Handle)
    (hk : v.handle? = some k) : k ∈ vs.filterMap Value.handle? :=
  List.mem_filterMap.mpr ⟨v, hv, hk⟩

theorem listPush_changes (list element : Value) :
    ObjectChanges ([list, element].filterMap Value.handle?) list.handle?
      (listPush list element) := by
  intro heap
  cases list with
  | object h =>
    refine .get (.read (fun o ho => ?_) fun e he => .none)
    cases o with
    | list elements =>
      refine .bind (.set (.pure (.write rfl (Heap.get_eq_ok_iff.mp ho) (rewrite_list ?_))))
      intro v hv
      rw [Buffer.toList_push, List.mem_append, List.mem_singleton] at hv
      rcases hv with hv | rfl
      · exact .inl hv
      · exact .inr (handle_mem (by simp))
    | _ => exact .pure .none
  | _ => exact .pure .none

theorem listPop_changes (list : Value) :
    ObjectChanges ([list].filterMap Value.handle?) list.handle? (listPop list) := by
  intro heap
  cases list with
  | object h =>
    refine .get (.read (fun o ho => ?_) fun e he => .none)
    cases o with
    | list elements =>
      refine .bind (.set (.pure (.write rfl (Heap.get_eq_ok_iff.mp ho) (rewrite_list ?_))))
      intro v hv
      rw [Buffer.toList_pop] at hv
      exact .inl (List.dropLast_subset _ hv)
    | _ => exact .pure .none
  | _ => exact .pure .none

theorem Heap.writeMap_eq (heap : Heap) (map : Handle) (table : Table Value Value)
    (write : Table Value Value → Table Value Value) :
    heap.writeMap map table write = heap.replace map (.map (write table)) :=
  heap.replace_replace map (.map .empty) (.map (write table))

theorem mapSet_changes (map : Handle) (key value : Value) :
    ObjectChanges ([.object map, key, value].filterMap Value.handle?) (some map)
      (mapSet map key value) := by
  intro heap
  refine .get (.read (fun o ho => ?_) fun e he => .none)
  cases o with
  | map table =>
    refine .read (fun hash? hhash => ?_) fun e he => .none
    cases hash? with
    | none => exact .read (fun name hn => .throw .none) fun e he => .none
    | some hash =>
      refine .read (fun slot hslot => .set ?_) fun e he => .none
      rw [Heap.writeMap_eq]
      exact .writeMeasured rfl (Heap.get_eq_ok_iff.mp ho)
        (rewrite_map_write hhash (handle_mem (by simp)) (handle_mem (by simp)))
  | _ => exact .throw .none

theorem mapRemove_changes (map : Handle) (key : Value) :
    ObjectChanges ([.object map, key].filterMap Value.handle?) (some map) (mapRemove map key) := by
  intro heap
  refine .get (.read (fun hash? hhash => ?_) fun e he => .none)
  cases hash? with
  | none => exact .pure .none
  | some hash =>
    refine .read (fun o ho => ?_) fun e he => .none
    cases o with
    | map table =>
      refine .read (fun slot hslot => ?_) fun e he => .none
      cases slot with
      | none => exact .pure .none
      | some i =>
        exact .bind (.set (.pure (.write rfl (Heap.get_eq_ok_iff.mp ho) rewrite_map_remove)))
    | _ => exact .pure .none

theorem newString_changes (bytes : List UInt8) (given : List Handle) (target : Option Handle) :
    ObjectChanges given target (newString bytes) := by
  intro heap
  exact .newObject (.alloc _ (by simp [Object.children]) (by simp))

theorem unsupported_changes {α : Type} (op : Operator) (left right : Value) (given : List Handle)
    (target : Option Handle) :
    ObjectChanges given target (unsupported op left right : HeapM α) := by
  intro heap
  refine .get (.read (fun l hl => ?_) fun e he => .none)
  exact .read (fun r hr => .throw .none) fun e he => .none

theorem concatenate_changes (left right : Value) (given : List Handle) (target : Option Handle) :
    ObjectChanges given target (concatenate left right) := by
  intro heap
  unfold concatenate
  split
  · next a b =>
    refine .get (.read (fun l hl => ?_) fun e he => .none)
    refine .read (fun r hr => ?_) fun e he => .none
    split
    · exact newString_changes _ given target heap
    · exact .throw .none
    · exact unsupported_changes _ _ _ given target heap
  · exact unsupported_changes _ _ _ given target heap

theorem evaluate_changes (op : Operator) (left right : Value) (given : List Handle)
    (target : Option Handle) : ObjectChanges given target (evaluate op left right) := by
  intro heap
  have hunsupported : ∀ op, ObjectChanges given target (unsupported op left right : HeapM Value) :=
    fun op => unsupported_changes op left right given target
  unfold evaluate
  split
  · exact .pure .none
  · split
    · exact hunsupported op heap
    · exact .throw .none
  · cases op with
    | add => exact concatenate_changes left right given target heap
    | mod =>
      refine .get (.read (fun s hs => ?_) fun e he => .none)
      cases s with
      | none => exact hunsupported .mod heap
      | some s => exact .throw .none
    | _ => exact hunsupported _ heap

theorem setAttribute_changes (receiver : Value) (name : String) (value : Value) :
    ObjectChanges ([receiver, value].filterMap Value.handle?) receiver.handle?
      (setAttribute receiver name value) := by
  intro heap
  refine .get ?_
  cases receiver with
  | object h =>
    refine .read (fun o ho => ?_) fun e he => .none
    cases o with
    | string s | list l =>
      dsimp only
      split <;> exact .throw .none
    | script s =>
      refine .read (fun f hf => ?_) fun e he => .none
      cases f with
      | some f => exact .throw .none
      | none =>
        dsimp only
        split
        · exact .set (.write rfl (Heap.get_eq_ok_iff.mp ho) (rewrite_script (handle_mem (by simp))))
        · exact .throw .none
    | _ => exact .throw .none
  | _ => exact .read (fun n hn => .throw .none) fun e he => .none

theorem getSubscript_changes (receiver key : Value) (given : List Handle)
    (target : Option Handle) : ObjectChanges given target (getSubscript receiver key) := by
  intro heap
  refine .get ?_
  cases receiver with
  | object h =>
    refine .read (fun o ho => ?_) fun e he => .none
    cases o with
    | string s => exact .check (fun i hi => newString_changes _ given target heap) fun e he => .none
    | list elements => exact .check (fun i hi => .pure .none) fun e he => .none
    | map table =>
      refine .read (fun v hv => ?_) fun e he => .none
      cases v with
      | some v => exact .pure .none
      | none => exact .read (fun n hn => .throw .none) fun e he => .none
    | _ => exact .throw .none
  | _ => exact .read (fun n hn => .throw .none) fun e he => .none

theorem setSubscript_changes (receiver key value : Value) :
    ObjectChanges ([receiver, key, value].filterMap Value.handle?) receiver.handle?
      (setSubscript receiver key value) := by
  intro heap
  refine .get ?_
  cases receiver with
  | object h =>
    refine .read (fun o ho => ?_) fun e he => .none
    cases o with
    | string s => exact .throw .none
    | list elements =>
      refine .check (fun i hi => ?_) fun e he => .none
      refine .set (.write rfl (Heap.get_eq_ok_iff.mp ho) (rewrite_list ?_))
      intro v hv
      rw [Buffer.toList_set] at hv
      rcases List.mem_or_eq_of_mem_set hv with hv | rfl
      · exact .inl hv
      · exact .inr (handle_mem (by simp))
    | map table => exact mapSet_changes h key value heap
    | _ => exact .throw .none
  | _ => exact .read (fun n hn => .throw .none) fun e he => .none

theorem iterate_changes (container state : Value) (given : List Handle)
    (target : Option Handle) : ObjectChanges given target (iterate container state) := by
  intro heap
  cases container with
  | object h =>
    refine .check (fun step hstep => ?_) fun e he => .none
    refine .get (.read (fun o ho => ?_) fun e he => .none)
    cases o with
    | string s =>
      dsimp only
      split
      · exact (newString_changes _ given target).andThen _ heap
      · exact .pure .none
    | list elements =>
      dsimp only
      split <;> exact .pure .none
    | map table =>
      dsimp only
      split <;> exact .pure .none
    | range start stop => exact .pure .none
    | _ => exact .throw .none
  | _ => exact .throw .none

/-! ## 4. All of them -/

/-- A read changes nothing. -/
theorem read_changes {α β : Type} (x : Heap → Except Fault α) (f : α → β) (given : List Handle)
    (target : Option Handle) :
    ObjectChanges given target (do return f (← x (← get)) : HeapM β) := by
  intro heap
  exact .get (.read (fun a ha => .pure .none) fun e he => .none)

theorem mapRead_changes {α : Type} (read : Heap → Table Value Value → Except Fault α)
    (f : α → Finding) (map : Value) (given : List Handle) (target : Option Handle) :
    ObjectChanges given target (do
      let heap ← get
      match ← heap.asMap map with
      | some table => return f (← read heap table)
      | none => return .refused) := by
  intro heap
  refine .get (.read (fun t? ht => ?_) fun e he => .none)
  cases t? with
  | none => exact .pure .none
  | some table => exact .read (fun a ha => .pure .none) fun e he => .none

theorem withHandle_ends {heap : Heap} {v : Value} {body : Handle → HeapM Finding}
    {Q : Endings Finding} (h : ∀ k, v = .object k → Ends (body k) heap Q)
    (hrefused : Q.ok .refused heap) : Ends (HeapAction.withHandle v body) heap Q := by
  cases v with
  | object k => exact h k rfl
  | _ => exact .pure hrefused

theorem newObject_changes {o : Object} {given : List Handle} (target : Option Handle)
    (hc : o.children ⊆ given) (hm : ∀ t, o = .map t → t = .empty) :
    ObjectChanges given target (newObject o) := by
  intro heap
  exact .newObject (.alloc o hc hm)

theorem HeapAction.objectChanges (a : HeapAction Value) (ha : a.isAnchoring = false) :
    ObjectChanges (a.operands.filterMap Value.handle?) (a.receiver?.bind Value.handle?)
      a.perform := by
  cases a with
  | newString bytes => exact (newString_changes bytes _ _).andThen _
  | newList elements =>
    exact (newObject_changes none (by simp [Object.children, operands]) (by simp)).andThen _
  | newMap =>
    exact (newObject_changes none (by simp [Object.children, Table.entries, Table.empty])
      (by simp)).andThen _
  | newRange start stop =>
    exact (newObject_changes none (by simp [Object.children]) (by simp)).andThen _
  | newForeign kind tag =>
    exact (newObject_changes none (by simp [Object.children]) (by simp)).andThen _
  | newFunction name owner arity body =>
    refine (newObject_changes none ?_ (by simp)).andThen _
    intro k hk
    simpa [Object.children, operands, Option.bind_eq_some_iff] using hk
  | newScript name functions globals =>
    refine (newObject_changes none ?_ (by simp)).andThen _
    intro k hk
    simpa [Object.children, operands, List.filterMap_map, Function.comp_def] using hk
  | newFiber stack function =>
    refine (newObject_changes none ?_ (by simp)).andThen _
    intro k hk
    simpa [Object.children, operands, Option.bind_eq_some_iff] using hk
  | listPush list element => exact (listPush_changes list element).andThen _
  | listPop list => exact (listPop_changes list).andThen _
  | mapSet map key value =>
    intro heap
    refine withHandle_ends (fun m hm => ?_) .none
    subst hm
    exact (mapSet_changes m key value).andThen (fun _ => Finding.nothing) heap
  | mapGet map key =>
    exact mapRead_changes (fun heap table => heap.lookup table key) .option map _ _
  | mapGetBytes map bytes =>
    exact mapRead_changes (fun heap table => heap.lookupBytes table bytes) .option map _ _
  | mapRemove map key =>
    intro heap
    refine withHandle_ends (fun m hm => ?_) .none
    subst hm
    exact (mapRemove_changes m key).andThen _ heap
  | binary operator left right => exact (evaluate_changes operator left right _ _).andThen _
  | getAttribute receiver name =>
    intro heap
    exact .bind (.get (.query (fun v hv => .pure .none) (fun e he => .none) fun e he => .none))
  | setAttribute receiver name value =>
    exact (setAttribute_changes receiver name value).andThen fun _ => Finding.nothing
  | getSubscript receiver key => exact (getSubscript_changes receiver key _ _).andThen _
  | setSubscript receiver key value =>
    exact (setSubscript_changes receiver key value).andThen fun _ => Finding.nothing
  | iterate container state => exact (iterate_changes container state _ _).andThen _
  | render value quoted =>
    exact read_changes (fun heap => heap.render value quoted) Finding.text _ _
  | typeName value => exact read_changes (fun heap => heap.typeName value) Finding.text _ _
  | hash value => exact read_changes (fun heap => heap.hashOf value) Finding.hash _ _
  | equal left right => exact read_changes (fun heap => heap.equal left right) Finding.flag _ _
  | collect => exact fun heap => .bind (.pure .collect)
  | addRoot _ | removeRoot _ | pin _ | release _ => cases ha

/-- Every action leaves the heap in one of the ways of `Change`, whatever its operands are and
however it ends. -/
theorem HeapAction.changes (a : HeapAction Value) :
    Changes (a.operands.filterMap Value.handle?) (a.receiver?.bind Value.handle?) a.perform := by
  cases a with
  | addRoot value =>
    exact fun heap => withHandle_ends (fun h _ => .get (.bind (.set (.pure (.anchor _ _))))) .none
  | removeRoot value =>
    exact fun heap => withHandle_ends (fun h _ => .get (.bind (.set (.pure (.anchor _ _))))) .none
  | pin values => exact fun heap => .get (.bind (.set (.pure (.anchor _ _))))
  | release depth => exact fun heap => .get (.bind (.set (.pure (.anchor _ _))))
  | _ => exact (objectChanges _ rfl).changes

/-! ## 5. Roots, pins and the arena -/

theorem ObjectChange.anchors {given : List Handle} {target : Option Handle} {heap after : Heap}
    (hc : ObjectChange given target heap after) :
    after.roots = heap.roots ∧ after.pins = heap.pins := by
  cases hc with
  | none => exact ⟨rfl, rfl⟩
  | alloc o _ _ => exact ⟨Heap.alloc_roots heap o, Heap.alloc_pins heap o⟩
  | write _ _ _ => exact ⟨Heap.replace_roots _ _ _, Heap.replace_pins _ _ _⟩
  | writeMeasured _ _ _ =>
    rw [Heap.remeasure_roots, Heap.replace_roots, Heap.remeasure_pins, Heap.replace_pins]
    exact ⟨rfl, rfl⟩
  | collect => exact ⟨rfl, rfl⟩

theorem Change.tidy {given : List Handle} {target : Option Handle} {heap after : Heap}
    (hc : Change given target heap after) (ht : heap.Tidy) : after.Tidy := by
  cases hc with
  | none => exact ht
  | alloc o _ _ => exact Heap.alloc_tidy ht o
  | write _ _ _ => exact Heap.replace_tidy ht _ _
  | writeMeasured _ _ _ => exact Heap.remeasure_tidy (Heap.replace_tidy ht _ _) _
  | anchor roots pins => exact ht.of_cells rfl rfl
  | collect => exact Heap.collect_tidy ht

/-- What an operation of a host leaves: an action's change, a new object, a write, or the same
objects measured anew. -/
theorem HeapOp.after_cases (op : HeapOp) (heap : Heap) :
    (∃ a, op = .act a ∧
      Change (a.operands.filterMap Value.handle?) (a.receiver?.bind Value.handle?) heap
        (op.after heap)) ∨
    (∃ o, op = .alloc o ∧ op.after heap = (heap.alloc o).2) ∨
    (∃ h o', op = .overwrite h o' ∧ (op.after heap = heap ∨ ∃ o, heap.get? h = some o ∧
      Rewrite heap o'.children o o' ∧ op.after heap = heap.replace h o')) ∨
    (∃ h, op = .remeasure h ∧ op.after heap = heap.remeasure h) := by
  cases op with
  | act a => exact .inl ⟨a, rfl, (a.changes heap).heapAfter⟩
  | alloc o => exact .inr (.inl ⟨o, rfl, rfl⟩)
  | overwrite h o' =>
    refine .inr (.inr (.inl ⟨h, o', rfl, ?_⟩))
    have hends : Ends (HeapOp.overwrite h o').perform heap (.always fun after =>
        after = heap ∨ ∃ o, heap.get? h = some o ∧ Rewrite heap o'.children o o' ∧
          after = heap.replace h o') := by
      refine .get (.read (fun o ho => ?_) fun e he => .inl rfl)
      split
      · next hk =>
        refine .bind (.set (.pure (.inr ⟨o, Heap.get_eq_ok_iff.mp ho, ?_, rfl⟩)))
        obtain ⟨hopen, hkind⟩ := hk
        refine ⟨hkind, fun hs => ?_, fun k hk => .inr hk, fun t ht => ?_⟩
        · rw [hkind, hs] at hopen
          cases hopen
        · subst ht
          cases hopen
      · exact .pure (.inl rfl)
    exact hends.heapAfter
  | remeasure h => exact .inr (.inr (.inr ⟨h, rfl, rfl⟩))

/-- An operation that is not about roots and pins leaves them as they are. -/
theorem HeapOp.after_anchors (op : HeapOp) (hop : op.isAnchoring = false) (heap : Heap) :
    (op.after heap).roots = heap.roots ∧ (op.after heap).pins = heap.pins := by
  rcases op.after_cases heap with ⟨a, rfl, -⟩ | ⟨o, -, ha⟩ |
    ⟨h, o', -, ha | ⟨o, -, -, ha⟩⟩ | ⟨h, -, ha⟩
  · exact (a.objectChanges hop heap).heapAfter.anchors
  · rw [ha]
    exact ⟨Heap.alloc_roots heap o, Heap.alloc_pins heap o⟩
  · rw [ha]
    exact ⟨rfl, rfl⟩
  · rw [ha]
    exact ⟨Heap.replace_roots heap h o', Heap.replace_pins heap h o'⟩
  · rw [ha]
    exact ⟨Heap.remeasure_roots heap h, Heap.remeasure_pins heap h⟩

theorem HeapOp.after_tidy (op : HeapOp) {heap : Heap} (ht : heap.Tidy) : (op.after heap).Tidy := by
  rcases op.after_cases heap with ⟨a, -, hc⟩ | ⟨o, -, ha⟩ |
    ⟨h, o', -, ha | ⟨o, -, -, ha⟩⟩ | ⟨h, -, ha⟩
  · exact hc.tidy ht
  · rw [ha]
    exact Heap.alloc_tidy ht o
  · rw [ha]
    exact ht
  · rw [ha]
    exact Heap.replace_tidy ht h o'
  · rw [ha]
    exact Heap.remeasure_tidy ht h

theorem Reachable.tidy {allowed : Heap → HeapOp → Prop} {tuning : Tuning} {heap : Heap}
    (hr : Reachable allowed tuning heap) : heap.Tidy :=
  hr.invariant (Heap.empty_tidy tuning) fun _ op ht _ => op.after_tidy ht

end ScriptMachine
