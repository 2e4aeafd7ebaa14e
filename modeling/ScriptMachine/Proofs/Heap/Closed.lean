import ScriptMachine.Proofs.Heap.Change

/-!
# Closed heaps

A heap is closed when no object on it holds a handle whose object is gone. A collection keeps a
heap closed because an object that stays keeps alive whatever it holds, an allocation because what
the new object holds outlives the collection before it, and a write in place because it brings in
nothing but what it was given.

Main definitions:
- `Object.Holds`: the places of an object where a handle can stand.
- `Heap.NoDangling`, `Heap.Closed`.
- `HeapOp.Admitted`: an operation is handed handles of objects that are there.

Results:
1. `Object.holds_iff`: the collector follows every one of these places.
2. `Change.closed`: every change by an action keeps the heap closed.
3. `HeapOp.after_closed`, and `Reachable.closed`: so does every operation, and every run.
-/

namespace ScriptMachine

/-! ## 1. Places for handles -/

/-- `o.Holds h`: the handle `h` is stored in the object `o`. -/
inductive Object.Holds : Object → Handle → Prop
  | element {elements : Buffer Value} {h : Handle} :
      .object h ∈ elements.toList → Holds (.list elements) h
  | key {table : Table Value Value} {h : Handle} {value : Value} :
      (.object h, value) ∈ table.entries → Holds (.map table) h
  | value {table : Table Value Value} {h : Handle} {key : Value} :
      (key, .object h) ∈ table.entries → Holds (.map table) h
  | owner {f : Callable} {h : Handle} : f.owner = some h → Holds (.function f) h
  | function {s : Script} {h : Handle} : h ∈ s.functions.toList → Holds (.script s) h
  | global {s : Script} {h : Handle} {name : String} :
      ⟨name, .object h⟩ ∈ s.globals.toList → Holds (.script s) h
  | slot {f : Fiber} {h : Handle} : .object h ∈ f.stack.toList → Holds (.fiber f) h
  | running {f : Fiber} {h : Handle} : f.function = some h → Holds (.fiber f) h

theorem Value.handle?_eq_some_iff {v : Value} {h : Handle} :
    v.handle? = some h ↔ v = .object h := by
  cases v <;> simp [handle?]

theorem Value.mem_handles_iff {vs : List Value} {h : Handle} :
    h ∈ vs.filterMap handle? ↔ .object h ∈ vs := by
  simp only [List.mem_filterMap, handle?_eq_some_iff]
  exact ⟨fun ⟨v, hv, he⟩ => he ▸ hv, fun hv => ⟨_, hv, rfl⟩⟩

/-- The collector follows every place where a handle can stand, and no other. -/
theorem Object.holds_iff {o : Object} {h : Handle} : o.Holds h ↔ h ∈ o.children := by
  constructor
  · intro hh
    cases hh with
    | element hm => exact Value.mem_handles_iff.mpr hm
    | key hm | value hm => exact List.mem_flatMap.mpr ⟨_, hm, Value.mem_handles_iff.mpr (by simp)⟩
    | owner ho => simp [children, ho]
    | function hm => exact List.mem_append_left _ hm
    | global hm => exact List.mem_append_right _ (List.mem_filterMap.mpr ⟨_, hm, rfl⟩)
    | slot hm => exact List.mem_append_left _ (Value.mem_handles_iff.mpr hm)
    | running hr => exact List.mem_append_right _ (by simp [hr])
  · intro hm
    cases o with
    | string s | range start stop | foreign f => cases hm
    | list elements => exact .element (Value.mem_handles_iff.mp hm)
    | map table =>
      obtain ⟨⟨key, value⟩, hp, hk⟩ := List.mem_flatMap.mp hm
      have hk := Value.mem_handles_iff.mp hk
      simp only [List.mem_cons, List.not_mem_nil, or_false] at hk
      rcases hk with rfl | rfl
      · exact .key hp
      · exact .value hp
    | function f => exact .owner (by simpa [children] using hm)
    | script s =>
      rcases List.mem_append.mp hm with hf | hg
      · exact .function hf
      · obtain ⟨⟨name, value⟩, hg, hv⟩ := List.mem_filterMap.mp hg
        obtain rfl : value = .object h := Value.handle?_eq_some_iff.mp hv
        exact .global hg
    | fiber f =>
      rcases List.mem_append.mp hm with hs | hr
      · exact .slot (Value.mem_handles_iff.mp hs)
      · exact .running (by simpa using hr)

/-! ## 2. Closed heaps -/

namespace Heap

/-- Every handle stored in an object has its object. -/
def NoDangling (heap : Heap) : Prop :=
  ∀ h o k, heap.get? h = some o → o.Holds k → heap.isLive k = true

/-- Every handle stored in an object has its object, every key of a map can be one, and every
string knows its hash. -/
structure Closed (heap : Heap) : Prop where
  held : ∀ h o k, heap.get? h = some o → o.Holds k → heap.isLive k = true
  keys : ∀ h table key value, heap.get? h = some (.map table) → (key, value) ∈ table.entries →
    heap.IsKey key
  hashes : ∀ h s, heap.get? h = some (.string s) → s.hash = hashBytes s.bytes

theorem Closed.noDangling {heap : Heap} (hc : heap.Closed) : heap.NoDangling :=
  hc.held

theorem empty_get? (tuning : Tuning) (h : Handle) : (empty tuning).get? h = none := rfl

theorem empty_closed (tuning : Tuning) : (empty tuning).Closed where
  held := by simp [empty_get?]
  keys := by simp [empty_get?]
  hashes := by simp [empty_get?]

/-- A key stays one as long as its string does. -/
theorem IsKey.mono {heap other : Heap} {key : Value} (hk : heap.IsKey key)
    (hs : ∀ h s, key = .object h → heap.get? h = some (.string s) →
      other.get? h = some (.string s)) : other.IsKey key := by
  cases key with
  | object h =>
    obtain ⟨s, hg⟩ := hk
    exact ⟨s, hs h s rfl hg⟩
  | _ => exact trivial

/-- Roots, pins and sizes do not matter. -/
theorem Closed.of_get? {heap other : Heap} (hc : heap.Closed)
    (hv : ∀ h, other.get? h = heap.get? h) : other.Closed where
  held := by
    intro h o k ho hk
    have hl := hc.held h o k (hv h ▸ ho) hk
    rwa [isLive, hv]
  keys := by
    intro h table key value ho hm
    exact (hc.keys h table key value (hv h ▸ ho) hm).mono fun k s _ hs => hv k ▸ hs
  hashes := fun h s hs => hc.hashes h s (hv h ▸ hs)

/-- What is left is closed if it is what something reaches: with an object, all that it holds is
reached. -/
theorem Closed.of_reached {heap other : Heap} (hc : heap.Closed) (start : List Handle)
    (hv : ∀ h o, other.get? h = some o ↔ heap.get? h = some o ∧ heap.Reaches start h) :
    other.Closed := by
  have held : ∀ h o k, other.get? h = some o → o.Holds k →
      heap.isLive k = true ∧ heap.Reaches start k := by
    intro h o k ho hk
    obtain ⟨hg, hr⟩ := (hv h o).mp ho
    have hl := hc.held h o k hg hk
    exact ⟨hl, .child hr hg (Object.holds_iff.mp hk) hl⟩
  refine ⟨fun h o k ho hk => ?_, fun h table key value ho hm => ?_, fun h s hs => ?_⟩
  · obtain ⟨hl, hr⟩ := held h o k ho hk
    obtain ⟨p, hp⟩ := isLive_iff.mp hl
    exact isLive_iff.mpr ⟨p, (hv k p).mpr ⟨hp, hr⟩⟩
  · refine (hc.keys h table key value ((hv h _).mp ho).1 hm).mono fun k s he hs => ?_
    exact (hv k _).mpr ⟨hs, (held h _ k ho (.key (he ▸ hm))).2⟩
  · exact hc.hashes h s ((hv h _).mp hs).1

theorem collect_closed {heap : Heap} (ht : heap.Tidy) (hc : heap.Closed) :
    heap.collect.2.Closed :=
  hc.of_reached heap.anchors fun _ _ => get?_collect ht

/-! ### Allocation -/

theorem store_closed {heap : Heap} (ht : heap.Tidy) (hc : heap.Closed) {o : Object}
    (ho : ∀ k ∈ o.children, heap.isLive k = true) (hm : ∀ t, o = .map t → t = .empty) :
    (heap.store o).2.Closed where
  held := by
    intro h p k hp hk
    rw [(get?_store ht o h).2] at hp
    split at hp
    · cases hp
      exact isLive_store ht o (ho k (Object.holds_iff.mp hk))
    · exact isLive_store ht o (hc.held h p k hp hk)
  keys := by
    intro h table key value hp hmem
    rw [(get?_store ht o h).2] at hp
    split at hp
    · cases hp
      rw [hm table rfl] at hmem
      simp [Table.entries, Table.empty] at hmem
    · exact (hc.keys h table key value hp hmem).mono fun k s _ hs => get?_store_of_some ht o hs
  hashes := fun _ s _ => s.hash_eq

/-- What an object holds outlives the collection that makes room for it. -/
theorem isLive_collectKeeping {heap : Heap} (ht : heap.Tidy) {handles : List Handle} {k : Handle}
    (hk : k ∈ handles) (hl : heap.isLive k = true) :
    (heap.collectKeeping handles).isLive k = true := by
  obtain ⟨o, ho⟩ := isLive_iff.mp hl
  exact isLive_iff.mpr ⟨o, (get?_collectKeeping ht).mpr ⟨ho, .start (by simp [hk]) hl⟩⟩

theorem alloc_closed {heap : Heap} (ht : heap.Tidy) (hc : heap.Closed) {o : Object}
    (ho : ∀ k ∈ o.children, heap.isLive k = true) (hm : ∀ t, o = .map t → t = .empty) :
    (heap.alloc o).2.Closed := by
  rcases alloc_cases heap o with ⟨-, ha⟩ | ⟨-, ha⟩
  · rw [ha]
    exact store_closed ht hc ho hm
  · rw [ha]
    have hkept : (heap.collectKeeping o.children).Closed :=
      hc.of_reached _ fun _ _ => get?_collectKeeping ht
    exact store_closed (collectKeeping_tidy ht _) hkept
      (fun k hk => isLive_collectKeeping ht hk (ho k hk)) hm

/-- A new object is there. -/
theorem isLive_alloc (heap : Heap) (ht : heap.Tidy) (o : Object) :
    (heap.alloc o).2.isLive (heap.alloc o).1 = true := by
  rcases alloc_cases heap o with ⟨-, ha⟩ | ⟨-, ha⟩
  · rw [ha, isLive_iff]
    exact ⟨o, by rw [(get?_store ht o _).2, if_pos rfl]⟩
  · rw [ha, isLive_iff]
    exact ⟨o, by rw [(get?_store (collectKeeping_tidy ht _) o _).2, if_pos rfl]⟩

/-! ### Writes -/

theorem replace_closed {heap : Heap} (hc : heap.Closed) {given : List Handle}
    (hg : ∀ k ∈ given, heap.isLive k = true) {h : Handle} {o o' : Object}
    (ho : heap.get? h = some o) (hw : Rewrite heap given o o') : (heap.replace h o').Closed := by
  -- A key that is a string stays one: the object that is written is none.
  have hkey : ∀ key, heap.IsKey key → (heap.replace h o').IsKey key := by
    intro key hk
    refine hk.mono fun k s _ hs => ?_
    have hne : k ≠ h := by
      rintro rfl
      rw [ho] at hs
      cases hs
      exact hw.notString rfl
    rw [get?_replace ho, if_neg hne, hs]
  refine ⟨fun k p j hp hj => ?_, fun k table key value hp hm => ?_, fun _ s _ => s.hash_eq⟩
  · rw [isLive_replace]
    rw [get?_replace ho] at hp
    split at hp
    · cases hp
      rcases hw.children j (Object.holds_iff.mp hj) with hold | hnew
      · exact hc.held h o j ho (Object.holds_iff.mpr hold)
      · exact hg j hnew
    · exact hc.held k p j hp hj
  · apply hkey
    rw [get?_replace ho] at hp
    split at hp
    · cases hp
      obtain ⟨t, rfl, hkeys⟩ := hw.keys table rfl
      rcases hkeys key value hm with ⟨w, hold⟩ | hnew
      · exact hc.keys h t key w ho hold
      · exact hnew
    · exact hc.keys k table key value hp hm

end Heap

/-! ## 3. Runs -/

theorem Change.closed {given : List Handle} {target : Option Handle} {heap after : Heap}
    (hch : Change given target heap after) (ht : heap.Tidy) (hc : heap.Closed)
    (hg : ∀ k ∈ given, heap.isLive k = true) : after.Closed := by
  cases hch with
  | none => exact hc
  | alloc o hsub hm => exact Heap.alloc_closed ht hc (fun k hk => hg k (hsub hk)) hm
  | write _ ho hw => exact Heap.replace_closed hc hg ho hw
  | writeMeasured _ ho hw =>
    exact (Heap.replace_closed hc hg ho hw).of_get? fun k => Heap.get?_remeasure _ _ k
  | anchor roots pins => exact hc.of_get? fun _ => rfl
  | collect => exact Heap.collect_closed ht hc

/-- The operation is handed handles only whose objects are there, and a map that it allocates has
no entries yet. -/
def HeapOp.Admitted (heap : Heap) (op : HeapOp) : Prop :=
  (∀ h ∈ op.handles, heap.isLive h = true) ∧ ∀ table, op = .alloc (.map table) → table = .empty

theorem HeapOp.after_closed {op : HeapOp} {heap : Heap} (ht : heap.Tidy) (hc : heap.Closed)
    (hop : op.Admitted heap) : (op.after heap).Closed := by
  obtain ⟨hlive, hmap⟩ := hop
  rcases op.after_cases heap with ⟨a, rfl, hch⟩ | ⟨o, rfl, ha⟩ |
    ⟨h, o', rfl, ha | ⟨o, ho, hw, ha⟩⟩ | ⟨h, rfl, ha⟩
  · exact hch.closed ht hc hlive
  · rw [ha]
    exact Heap.alloc_closed ht hc hlive fun t ht => hmap t (ht ▸ rfl)
  · rw [ha]
    exact hc
  · rw [ha]
    exact Heap.replace_closed hc (fun k hk => hlive k (List.mem_cons_of_mem _ hk)) ho hw
  · rw [ha]
    exact hc.of_get? fun k => Heap.get?_remeasure heap h k

/-- Every run of admitted operations leads to a closed heap. -/
theorem Reachable.closed {tuning : Tuning} {heap : Heap}
    (hr : Reachable (fun heap op => op.Admitted heap) tuning heap) : heap.Closed := by
  have hboth : heap.Tidy ∧ heap.Closed :=
    hr.invariant (P := fun heap => heap.Tidy ∧ heap.Closed)
      ⟨Heap.empty_tidy tuning, Heap.empty_closed tuning⟩
      fun _ op ⟨ht, hc⟩ hop => ⟨op.after_tidy ht, op.after_closed ht hc hop⟩
  exact hboth.2

end ScriptMachine
