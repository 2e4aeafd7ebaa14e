import Mathlib.Data.List.Forall2
import ScriptMachine.Proofs.Machine.Accounting
import ScriptMachine.Proofs.Machine.Installation

/-!
# Lists of new strings

A list of strings is made one string at a time, and each of them is an allocation that may collect.
The list is pinned meanwhile and holds the strings that there are, so a collection finds its way to
all of them. A new string is on the list before the next one is allocated.

Main definitions:
- `Heap.IsTextList`: a list of strings of given texts.
- `Heap.Filling`: a heap with a list that is filled, compared with the heap before there was a list.

Results:
1. `Heap.Filling.alloc`, `Heap.Filling.push`: an allocation takes nothing from the list, and a push
   adds to it and touches nothing else.
2. `Heap.Filling.step`, `Heap.Filling.run`: one more string, and any number of them.
3. `Heap.ComesAbout.newStringList_made`: the list has the strings, and all that was protected is as
   it was.
-/

namespace ScriptMachine

namespace Heap

/-- `heap.IsText v text`: the value is a string of this text. -/
def IsText (heap : Heap) (v : Value) (text : String) : Prop :=
  ∃ k, v = .object k ∧ heap.get? k = some (.string (.ofText text))

/-- `heap.IsTextList h texts`: behind `h` is a list of strings of these texts, in this order. -/
def IsTextList (heap : Heap) (h : Handle) (texts : List String) : Prop :=
  ∃ elements, heap.get? h = some (.list elements) ∧
    List.Forall₂ heap.IsText elements.toList texts

/-- The strings are the same on another heap that has them. -/
theorem forall₂_isText_of_get? {heap after : Heap} {values : List Value} {texts : List String}
    (htexts : List.Forall₂ heap.IsText values texts)
    (hkept : ∀ k ∈ values.filterMap Value.handle?, ∀ s, heap.get? k = some (.string s) →
      after.get? k = some (.string s)) : List.Forall₂ after.IsText values texts := by
  induction htexts with
  | nil => exact .nil
  | cons htext _ ih =>
    obtain ⟨k, rfl, hk⟩ := htext
    refine .cons ⟨k, rfl, hkept k (.head _) _ hk⟩ (ih fun j hj => hkept j (.tail _ hj))

/-- `start.Filling h done heap`: `start` has become `heap` by the making of a list `h`, which is
pinned and holds strings of the texts `done` so far. -/
structure Filling (start : Heap) (h : Handle) (done : List String) (heap : Heap) : Prop where
  tidy : heap.Tidy
  fresh : start.get? h = none
  list : heap.IsTextList h done
  roots : heap.roots = start.roots
  pins : heap.pins = h :: start.pins
  kept : ∀ k, start.Reaches start.anchors k → heap.get? k = start.get? k

namespace Filling

variable {start heap : Heap} {h : Handle} {done : List String}

theorem mem_anchors (hf : start.Filling h done heap) : h ∈ heap.anchors := by
  rw [anchors, hf.pins]
  exact List.mem_append_right _ List.mem_cons_self

/-- What was protected is protected still. -/
theorem reaches (hf : start.Filling h done heap) {k : Handle}
    (hk : start.Reaches start.anchors k) : heap.Reaches heap.anchors k := by
  refine hk.grow ?_ fun j o hj ho => ⟨o, by rw [hf.kept j hj, ho], List.Subset.refl _⟩
  rw [anchors, anchors, hf.roots, hf.pins]
  exact List.append_subset.mpr ⟨List.subset_append_left _ _,
    List.subset_append_of_subset_right _ (List.subset_cons_self _ _)⟩

/-- An allocation, with or without a collection, leaves the list and its strings alone. -/
theorem alloc (hf : start.Filling h done heap) (o : Object) :
    start.Filling h done (heap.alloc o).2 := by
  have hkept : ∀ k, heap.Reaches heap.anchors k → (heap.alloc o).2.get? k = heap.get? k :=
    fun k hk => get?_alloc_of_reached hf.tidy o (hk.mono (List.subset_append_left _ _))
  obtain ⟨elements, hl, htexts⟩ := hf.list
  have hlist : heap.Reaches heap.anchors h :=
    .start hf.mem_anchors (isLive_iff.mpr ⟨_, hl⟩)
  refine ⟨alloc_tidy hf.tidy o, hf.fresh, ⟨elements, by rw [hkept h hlist, hl], ?_⟩, ?_, ?_, ?_⟩
  · -- The strings are reached through the list.
    refine forall₂_isText_of_get? htexts fun k hk s hs => ?_
    rw [hkept k (.child hlist hl hk (isLive_iff.mpr ⟨_, hs⟩)), hs]
  · rw [alloc_roots, hf.roots]
  · rw [alloc_pins, hf.pins]
  · intro k hk
    rw [hkept k (hf.reaches hk), hf.kept k hk]

/-- A string is added to the list. -/
theorem push (hf : start.Filling h done heap) {v : Value} {text : String}
    (hv : heap.IsText v text) : Ends (listPush (.object h) v) heap
      (.returns fun _ after => start.Filling h (done ++ [text]) after) := by
  obtain ⟨elements, hl, htexts⟩ := hf.list
  refine .get (.read_ok (get_eq_ok_iff.mpr hl) (.bind (.set (.pure ?_))))
  have hother : ∀ k, k ≠ h → (heap.replace h (.list (elements.push v))).get? k = heap.get? k := by
    intro k hk
    rw [get?_replace hl, if_neg hk]
  refine ⟨replace_tidy hf.tidy _ _, hf.fresh, ⟨_, by rw [get?_replace hl, if_pos rfl], ?_⟩,
    by rw [replace_roots, hf.roots], by rw [replace_pins, hf.pins], fun k hk => ?_⟩
  · -- A string is no list, so it is not what is written.
    have hall : List.Forall₂ heap.IsText (elements.push v).toList (done ++ [text]) := by
      rw [Buffer.toList_push]
      exact List.rel_append htexts (.cons hv .nil)
    refine forall₂_isText_of_get? hall fun k _ s hs => ?_
    rw [hother k, hs]
    rintro rfl
    cases hl.symm.trans hs
  · rw [hother k, hf.kept k hk]
    rintro rfl
    obtain ⟨o, ho⟩ := isLive_iff.mp hk.isLive
    cases hf.fresh.symm.trans ho

/-- One more string. -/
theorem step (hf : start.Filling h done heap) (item : String) : Ends (do
      let string ← newText item
      let _ ← listPush (.object h) string) heap
      (.returns fun _ after => start.Filling h (done ++ [item]) after) :=
  .bind (.newObject (.bind ((hf.alloc _).push ⟨_, rfl, get?_alloc_new hf.tidy _⟩)))

/-- Any number of strings, by induction on how many there are to come. -/
theorem run (hf : start.Filling h done heap) (items : List String) :
    Ends (items.forM fun item => do
      let string ← newText item
      let _ ← listPush (.object h) string) heap
      (.returns fun _ after => start.Filling h (done ++ items) after) := by
  induction items generalizing done heap with
  | nil => exact .pure (by rwa [List.append_nil])
  | cons item items ih =>
    refine .bind ((hf.step item).mono (fun _ after hafter => ?_) (fun _ _ => id) fun _ _ => id)
    have hrest := ih hafter
    rwa [List.append_assoc] at hrest

/-- The list is pinned as soon as it is there. -/
theorem of_alloc (ht : start.Tidy) (elements : Buffer Value) (hnone : elements.toList = []) :
    start.Filling (start.alloc (.list elements)).1 []
      ((start.alloc (.list elements)).2.pin [.object (start.alloc (.list elements)).1]) where
  tidy := (alloc_tidy ht _).of_cells rfl rfl
  fresh := get?_alloc_self ht _
  list := ⟨elements, get?_alloc_new ht _, by rw [hnone]; exact .nil⟩
  roots := alloc_roots start _
  pins := congrArg (_ :: ·) (alloc_pins start _)
  kept k hk := get?_alloc_of_reached ht _ (hk.mono (List.subset_append_left _ _))

end Filling

/-- What a scope leaves is what its body leaves, without the pins. -/
theorem pinned_returns {α : Type} {heap : Heap} {values : List Value} {body : HeapM α}
    {P : α → Heap → Prop} (h : Ends body (heap.pin values) (.returns P)) :
    Ends (pinned values body) heap
      (.returns fun a after => ∃ inner, P a inner ∧ after = inner.unpin heap.pins.length) := by
  obtain ⟨a, hbody, ha⟩ := h.exists_ok
  unfold Ends pinned
  rw [hbody]
  exact ⟨_, ha, rfl⟩

/-- `heap.ListMade items h after`: with strings of the texts `items` allocated and put on a new list
`h`, `heap` has become `after`. -/
structure ListMade (heap : Heap) (items : List String) (h : Handle) (after : Heap) : Prop where
  fresh : heap.isLive h = false
  list : after.IsTextList h items
  roots : after.roots = heap.roots
  pins : after.pins = heap.pins
  /-- What is reached from the roots or from the pins is there as it was. -/
  kept : ∀ k, heap.Reaches heap.anchors k → after.isLive k = true ∧ after.get? k = heap.get? k

/-- The last pin is released. -/
theorem Filling.made {start heap : Heap} {h : Handle} {items : List String}
    (hf : start.Filling h items heap) : start.ListMade items h (heap.unpin start.pins.length) where
  fresh := by rw [isLive, hf.fresh]; rfl
  list := hf.list
  roots := hf.roots
  pins := by
    rw [unpin, hf.pins]
    simp
  kept k hk := by
    have hsame : (heap.unpin start.pins.length).get? k = start.get? k := hf.kept k hk
    exact ⟨by rw [isLive, hsame]; exact hk.isLive, hsame⟩

theorem newStringList_returns {heap : Heap} (ht : heap.Tidy) (items : List String) :
    Ends (newStringList items) heap
      (.returns fun v after => ∃ h, v = .object h ∧ heap.ListMade items h after) := by
  refine .bind (.newObject (.bind ((pinned_returns
    ((Filling.of_alloc ht (.withCapacity items.length) rfl).run items)).mono ?_ (fun _ _ => id)
      fun _ _ => id)))
  rintro _ _ ⟨inner, hfilled, rfl⟩
  rw [alloc_pins]
  exact .pure ⟨_, rfl, hfilled.made⟩

end Heap

/-- On every machine that any run leads to, whatever its tuning, a list of any strings is made, and
nothing that was protected is lost or changed by the collections that come with it. -/
theorem Heap.ComesAbout.newStringList_made {m : Machine} (hm : m.heap.ComesAbout)
    (items : List String) : ∃ h after,
    onHeap (newStringList items) m = .ok (.object h) { m with heap := after } ∧
      m.heap.ListMade items h after := by
  obtain ⟨_, hok, h, rfl, hmade⟩ := (newStringList_returns hm.balanced.1 items).exists_ok
  refine ⟨h, _, ?_, hmade⟩
  rw [onHeap_eq, hok]

/-- Nothing can be allocated without a collection. All three strings are there at the end, and so is
the fiber. -/
theorem Heap.ComesAbout.newStringList_made_of_full :
    let m := Machine.bare ⟨none, ⟨100, 0, 0, false⟩, 64⟩
    m.heap.ComesAbout ∧ m.heap.needsCollection 80 = true ∧ ∃ h after,
      onHeap (newStringList ["red", "", "red"]) m = .ok (.object h) { m with heap := after } ∧
      m.heap.ListMade ["red", "", "red"] h after ∧
      after.get? m.fiber = some (.fiber ⟨.empty, none⟩) := by
  intro m
  have hm : m.heap.ComesAbout := Machine.bare_comesAbout _
  obtain ⟨h, after, hok, hmade⟩ := hm.newStringList_made ["red", "", "red"]
  have hfiber : m.heap.get? m.fiber = some (.fiber ⟨.empty, none⟩) := Machine.bare_fiber _
  have hreached : m.heap.Reaches m.heap.anchors m.fiber :=
    .start (Machine.bare_anchors _ ▸ .head _) (isLive_iff.mpr ⟨_, hfiber⟩)
  exact ⟨hm, rfl, h, after, hok, hmade, by rw [(hmade.kept _ hreached).2, hfiber]⟩

end ScriptMachine
