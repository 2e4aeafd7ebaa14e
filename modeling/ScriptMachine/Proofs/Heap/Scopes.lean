import Mathlib.Data.List.Count
import Mathlib.Logic.Relation
import ScriptMachine.Proofs.Heap.Survival

/-!
# Pins and roots protect as long as they are held

What a host works with it has to hold. It holds objects for the length of a scope, by pinning them
or by iterating over one, or until further notice, by registering them as roots. Scopes nest. Each
remembers how many pins there were when it began, and ends by going back to that number, so what
matters is that nothing else touches the pins: an allocation pins what the new object holds, and a
scope inside pins more, but both leave the pins as they found them. Registrations are counted.
Taking one away moves another to its place, so their order is lost, but no other goes.

Main definitions:
- `PinScope`, `Scoped`, `Scoped.Step`: a heap with its open scopes, and what can be done to it.
- `Scoped.Holds`: an open scope has pinned a handle, or a registration of it is left.
- `Scoped.Protects`: what holding an object is good for.

Results:
1. `Scoped.Step.sound`: every step leaves the pins to be those of the open scopes, and as many
   registrations as were made and not taken away.
2. `Scoped.Sound.mem_anchors_iff`: a collection starts from what is held, and from nothing else.
3. `Scoped.protects_of_run`: in every run, what is held protects.
-/

namespace ScriptMachine

/-! ## 1. Heaps with open scopes -/

/-- A scope that is open. -/
structure PinScope where
  /-- The pins when the scope began. -/
  before : List Handle
  /-- What the scope has pinned. -/
  values : List Value
  /-- The cursor, if the scope belongs to an iteration. -/
  cursor : Option Cursor

/-- The handles that a scope has pinned. -/
def PinScope.handles (scope : PinScope) : List Handle :=
  scope.values.filterMap Value.handle?

/-- The cursor after a step. It stays where it is if its container was gone before it was pinned. -/
def Cursor.advanced (c : Cursor) (heap : Heap) : Cursor :=
  match c.advance heap with
  | .ok (_, c') _ => c'
  | .error _ _ => c

/-- A heap in the hands of a host. -/
structure Scoped where
  heap : Heap
  /-- The open scopes, the innermost first. -/
  scopes : List PinScope
  /-- The handles that were registered, once for each time. -/
  added : List Handle
  /-- The handles of which a registration was found and taken away, once for each time. -/
  taken : List Handle

namespace Scoped

/-- An empty heap without scopes. -/
def start (tuning : Tuning) : Scoped :=
  ⟨.empty tuning, [], [], []⟩

/-- What a host can do: anything that is not about roots and pins, also if it fails, to register a
root and to take one away, to open a scope and to close the innermost one. A scope that belongs to
an iteration can be advanced and restarted while it is the innermost. -/
inductive Step (s : Scoped) : Scoped → Prop
  | op (op : HeapOp) : op.isAnchoring = false → Step s { s with heap := op.after s.heap }
  | addRoot (h : Handle) : Step s { s with heap := s.heap.addRoot h, added := h :: s.added }
  | removeRoot (h : Handle) : Step s { s with
      heap := s.heap.removeRoot h
      taken := if h ∈ s.heap.roots then h :: s.taken else s.taken }
  | pin (values : List Value) : Step s { s with
      heap := s.heap.pin values
      scopes := ⟨s.heap.pins, values, none⟩ :: s.scopes }
  | iterate (container : Value) : Step s { s with
      heap := s.heap.pin [container]
      scopes := ⟨s.heap.pins, [container], some (.start container)⟩ :: s.scopes }
  | advance {scope : PinScope} {rest : List PinScope} {c : Cursor} :
      s.scopes = scope :: rest → scope.cursor = some c →
      Step s { s with
        heap := heapAfter c.advance s.heap
        scopes := { scope with cursor := some (c.advanced s.heap) } :: rest }
  | restart {scope : PinScope} {rest : List PinScope} {c : Cursor} :
      s.scopes = scope :: rest → scope.cursor = some c →
      Step s { s with scopes := { scope with cursor := some c.restart } :: rest }
  | close {scope : PinScope} {rest : List PinScope} : s.scopes = scope :: rest →
      Step s { s with heap := s.heap.unpin scope.before.length, scopes := rest }

/-- What a host that began with an empty heap can come to. -/
def Run (tuning : Tuning) (s : Scoped) : Prop :=
  Relation.ReflTransGen Step (start tuning) s

/-- An open scope has pinned the handle, or it was registered more often than a registration of it
was taken away. -/
def Holds (s : Scoped) (h : Handle) : Prop :=
  (∃ scope ∈ s.scopes, h ∈ scope.handles) ∨ s.taken.count h < s.added.count h

/-- What holding an object is good for. -/
structure Protects (s : Scoped) : Prop where
  /-- The innermost scope ends with the pins that it began with. -/
  closes : ∀ {scope rest}, s.scopes = scope :: rest →
    (s.heap.unpin scope.before.length).pins = scope.before
  /-- There are as many registrations as were made and not taken away. -/
  registered : ∀ h, s.heap.roots.count h + s.taken.count h = s.added.count h
  /-- One more is taken away, if there is one, and none of another object. -/
  removed : ∀ h k, (s.heap.removeRoot h).roots.count k =
    s.heap.roots.count k - if k = h then 1 else 0
  /-- What is reached from what is held is there after the next step. -/
  kept : ∀ {s'}, s.Step s' → ∀ {h k}, s.Holds h → s.heap.Reaches [h] k →
    s'.heap.isLive k = true
  /-- What is held is there as long as it is held. -/
  stays : ∀ {s' h}, Relation.ReflTransGen (fun a b => a.Step b ∧ a.Holds h) s s' →
    s.heap.isLive h = true → s'.heap.isLive h = true
  /-- A collection leaves what is reached from what is held, and nothing else. -/
  collected : ∀ k, s.heap.collect.2.isLive k = true ↔ ∃ h, s.Holds h ∧ s.heap.Reaches [h] k

/-! ## 2. One step -/

end Scoped

theorem Cursor.heapAfter_advance (c : Cursor) (heap : Heap) :
    heapAfter c.advance heap = heap ∨
      heapAfter c.advance heap = (HeapOp.act (.iterate c.container c.state)).after heap := by
  cases hf : c.finished with
  | true =>
    refine .inl ?_
    unfold heapAfter advance
    rw [if_pos hf]
    rfl
  | false =>
    refine .inr ?_
    show _ = heapAfter (do return Finding.step (← ScriptMachine.iterate c.container c.state)) heap
    unfold heapAfter advance
    rw [if_neg (by rw [hf]; decide)]
    simp only [bind, EStateM.bind, attempt]
    cases ScriptMachine.iterate c.container c.state heap with
    | ok step after => cases step <;> rfl
    | error e after => cases e <;> rfl

namespace Scoped

variable {s s' : Scoped}

/-- To the heap, a step is an operation, or nothing. -/
theorem Step.heapOp (hstep : s.Step s') :
    s'.heap = s.heap ∨ ∃ op : HeapOp, s'.heap = op.after s.heap := by
  cases hstep with
  | op op _ => exact .inr ⟨op, rfl⟩
  | addRoot h => exact .inr ⟨.act (.addRoot (.object h)), rfl⟩
  | removeRoot h => exact .inr ⟨.act (.removeRoot (.object h)), rfl⟩
  | pin values => exact .inr ⟨.act (.pin values), rfl⟩
  | iterate container => exact .inr ⟨.act (.pin [container]), rfl⟩
  | @advance _ _ c _ _ => exact (c.heapAfter_advance s.heap).imp_right fun h => ⟨_, h⟩
  | restart _ _ => exact .inl rfl
  | close _ => exact .inr ⟨.act (.release _), rfl⟩

/-- The pins are those of the scopes, and each scope began with those of the scopes outside. -/
def Nested : List PinScope → List Handle → Prop
  | [], pins => pins = []
  | scope :: rest, pins => pins = scope.handles ++ scope.before ∧ Nested rest scope.before

/-- The invariant of a host's work. -/
structure Sound (s : Scoped) : Prop where
  tidy : s.heap.Tidy
  nested : Nested s.scopes s.heap.pins
  registered : ∀ h, s.heap.roots.count h + s.taken.count h = s.added.count h

theorem start_sound (tuning : Tuning) : (start tuning).Sound where
  tidy := Heap.empty_tidy tuning
  nested := rfl
  registered := fun _ => rfl

/-- A scope closes with the pins that it began with. -/
theorem pins_unpin {scope : PinScope} {rest : List PinScope} {heap : Heap}
    (hn : Nested (scope :: rest) heap.pins) :
    (heap.unpin scope.before.length).pins = scope.before := by
  show heap.pins.drop (heap.pins.length - scope.before.length) = scope.before
  rw [hn.1, List.length_append, Nat.add_sub_cancel, List.drop_left]

theorem count_removeRoot (heap : Heap) (h k : Handle) :
    (heap.removeRoot h).roots.count k = heap.roots.count k - if k = h then 1 else 0 := by
  rw [(heap.removeRoot_perm h).count_eq, List.count_erase]
  simp only [beq_iff_eq, eq_comm (a := h)]

/-- What leaves roots and pins alone, and the scopes but for a cursor. -/
theorem Sound.of_anchors (hs : s.Sound) (ht : s'.heap.Tidy)
    (hanchors : s'.heap.roots = s.heap.roots ∧ s'.heap.pins = s.heap.pins)
    (hscopes : Nested s.scopes s.heap.pins → Nested s'.scopes s.heap.pins)
    (hadded : s'.added = s.added) (htaken : s'.taken = s.taken) : s'.Sound where
  tidy := ht
  nested := by
    rw [hanchors.2]
    exact hscopes hs.nested
  registered := by
    rw [hanchors.1, hadded, htaken]
    exact hs.registered

theorem Step.tidy (hstep : s.Step s') (ht : s.heap.Tidy) : s'.heap.Tidy := by
  rcases hstep.heapOp with hheap | ⟨op, hheap⟩
  · rwa [hheap]
  · rw [hheap]
    exact op.after_tidy ht

theorem advance_anchors (c : Cursor) (heap : Heap) :
    (heapAfter c.advance heap).roots = heap.roots ∧
      (heapAfter c.advance heap).pins = heap.pins := by
  rcases c.heapAfter_advance heap with h | h
  · rw [h]
    exact ⟨rfl, rfl⟩
  · rw [h]
    exact HeapOp.after_anchors _ rfl heap

theorem Step.sound (hstep : s.Step s') (hs : s.Sound) : s'.Sound := by
  have ht := hstep.tidy hs.tidy
  cases hstep with
  | op op hop => exact hs.of_anchors ht (op.after_anchors hop s.heap) id rfl rfl
  | addRoot h =>
    refine ⟨ht, hs.nested, fun k => ?_⟩
    have hk := hs.registered k
    show (s.heap.roots ++ [h]).count k + s.taken.count k = (h :: s.added).count k
    rw [List.count_append, List.count_singleton, List.count_cons]
    omega
  | removeRoot h =>
    refine ⟨ht, hs.nested, fun k => ?_⟩
    have hk := hs.registered k
    by_cases hmem : h ∈ s.heap.roots
    · -- A registration is found, so there is one to take off the count.
      have hpos := List.count_pos_iff.mpr hmem
      simp only [if_pos hmem, count_removeRoot, List.count_cons, beq_iff_eq, eq_comm (a := h)]
      split
      · next hkh =>
        subst hkh
        omega
      · omega
    · have hzero := List.count_eq_zero.mpr hmem
      simp only [if_neg hmem, count_removeRoot]
      split
      · next hkh =>
        subst hkh
        omega
      · omega
  | pin values => exact ⟨ht, ⟨rfl, hs.nested⟩, hs.registered⟩
  | iterate container => exact ⟨ht, ⟨rfl, hs.nested⟩, hs.registered⟩
  | @advance _ _ c hscopes _ =>
    refine hs.of_anchors ht (advance_anchors c s.heap) (fun hn => ?_) rfl rfl
    rw [hscopes] at hn
    exact hn
  | restart hscopes _ =>
    refine hs.of_anchors ht ⟨rfl, rfl⟩ (fun hn => ?_) rfl rfl
    rw [hscopes] at hn
    exact hn
  | close hscopes =>
    have hn := hs.nested
    rw [hscopes] at hn
    refine ⟨ht, ?_, hs.registered⟩
    show Nested _ (s.heap.unpin _).pins
    rw [pins_unpin hn]
    exact hn.2

theorem Run.sound {tuning : Tuning} (hr : Run tuning s) : s.Sound := by
  induction hr with
  | refl => exact start_sound tuning
  | tail _ hstep ih => exact hstep.sound ih

/-! ## 3. What is held -/

theorem Nested.mem_iff {scopes : List PinScope} {pins : List Handle} (hn : Nested scopes pins)
    (h : Handle) : h ∈ pins ↔ ∃ scope ∈ scopes, h ∈ scope.handles := by
  induction scopes generalizing pins with
  | nil =>
    rw [show pins = [] from hn]
    simp
  | cons scope rest ih =>
    obtain ⟨rfl, hrest⟩ := hn
    rw [List.mem_append, ih hrest]
    simp

/-- A collection starts from what is held. -/
theorem Sound.mem_anchors_iff (hs : s.Sound) (h : Handle) : h ∈ s.heap.anchors ↔ s.Holds h := by
  have hroots : h ∈ s.heap.roots ↔ s.taken.count h < s.added.count h := by
    have := hs.registered h
    rw [← List.count_pos_iff]
    omega
  show h ∈ s.heap.roots ++ s.heap.pins ↔ _
  rw [List.mem_append, hroots, hs.nested.mem_iff, or_comm]
  rfl

theorem Sound.reaches_anchors_iff (hs : s.Sound) (k : Handle) :
    s.heap.Reaches s.heap.anchors k ↔ ∃ h, s.Holds h ∧ s.heap.Reaches [h] k := by
  constructor
  · intro hr
    induction hr with
    | start ha hl => exact ⟨_, (hs.mem_anchors_iff _).mp ha, .start (List.mem_singleton_self _) hl⟩
    | child _ ho hk hl ih =>
      obtain ⟨h, hheld, hr⟩ := ih
      exact ⟨h, hheld, .child hr ho hk hl⟩
  · rintro ⟨h, hheld, hr⟩
    refine hr.mono fun k hk => ?_
    rw [List.mem_singleton.mp hk]
    exact (hs.mem_anchors_iff h).mpr hheld

theorem Sound.isLive_of_held (hs : s.Sound) (hstep : s.Step s') {h k : Handle} (hheld : s.Holds h)
    (hr : s.heap.Reaches [h] k) : s'.heap.isLive k = true := by
  have hanchored := (hs.reaches_anchors_iff k).mpr ⟨h, hheld, hr⟩
  rcases hstep.heapOp with hheap | ⟨op, hheap⟩
  · rw [hheap]
    exact hr.isLive
  · rw [hheap]
    exact op.isLive_of_reached hs.tidy hanchored

theorem Sound.isLive_of_run (hs : s.Sound) {h : Handle}
    (hrun : Relation.ReflTransGen (fun a b => a.Step b ∧ a.Holds h) s s')
    (hl : s.heap.isLive h = true) : s'.Sound ∧ s'.heap.isLive h = true := by
  induction hrun with
  | refl => exact ⟨hs, hl⟩
  | tail _ hstep ih =>
    obtain ⟨hsound, hlive⟩ := ih
    exact ⟨hstep.1.sound hsound, hsound.isLive_of_held hstep.1 hstep.2
      (.start (List.mem_singleton_self h) hlive)⟩

/-- At every point of every run, pins and roots protect as long as they are held. -/
theorem protects_of_run {tuning : Tuning} (hr : Run tuning s) : s.Protects where
  closes := by
    intro scope rest hscopes
    have hn := hr.sound.nested
    rw [hscopes] at hn
    exact pins_unpin hn
  registered := hr.sound.registered
  removed := count_removeRoot s.heap
  kept := fun hstep _ _ hheld hreached => hr.sound.isLive_of_held hstep hheld hreached
  stays := fun hrun hl => (hr.sound.isLive_of_run hrun hl).2
  collected := fun k => (Heap.isLive_collect hr.sound.tidy).trans (hr.sound.reaches_anchors_iff k)

/-- A string that nothing but its iteration holds. A step of the iteration collects before it
allocates, then another scope is opened inside, and a collection runs. And a string that is
registered twice before another one is: one registration is taken away, the other string's takes its
place, and a collection runs. -/
theorem protects_of_run_nested :
    (let text : Object := .string (.ofBytes [97, 98])
      let h := ((Heap.empty .stressed).alloc text).1
      let heap := (HeapOp.act (.newString [97, 98])).after (.empty .stressed)
      let s : Scoped := ⟨heap.pin [.object h],
        [⟨heap.pins, [.object h], some (.start (.object h))⟩], [], []⟩
      Run .stressed s ∧ ∃ s', Relation.ReflTransGen (fun a b => a.Step b ∧ a.Holds h) s s' ∧
        s'.scopes.length = 2 ∧ s'.heap.isLive h = true) ∧
    (let h : Handle := ⟨0, 0⟩
      let k : Handle := ⟨1, 0⟩
      let heap := (HeapOp.act (.newString [99])).after
        ((HeapOp.act (.newString [97, 98])).after (.empty .standard))
      let s : Scoped := ⟨((heap.addRoot h).addRoot h).addRoot k, [], [k, h, h], []⟩
      Run .standard s ∧ ∃ s', Relation.ReflTransGen (fun a b => a.Step b ∧ a.Holds h) s s' ∧
        s'.heap.roots = [h, k] ∧ s'.heap.collections = 1 ∧ s'.heap.isLive h = true) := by
  refine ⟨?_, ?_⟩
  · intro text h heap s
    have hr : Run .stressed s := Relation.ReflTransGen.refl (a := start .stressed)
      |>.tail (Step.op (.act (.newString [97, 98])) rfl)
      |>.tail (Step.iterate (.object h))
    have hl : s.heap.isLive h = true :=
      Heap.isLive_iff.mpr ⟨text, Heap.get?_alloc_new (Heap.empty_tidy _) text⟩
    have hheld : h ∈ [Value.object h].filterMap Value.handle? := List.mem_singleton_self h
    have hrun := Relation.ReflTransGen.refl (r := fun a b => Step a b ∧ Holds a h) (a := s)
      |>.tail ⟨Step.advance rfl rfl, .inl ⟨_, List.mem_cons_self, hheld⟩⟩
      |>.tail ⟨Step.pin [], .inl ⟨_, List.mem_cons_self, hheld⟩⟩
      |>.tail ⟨Step.op (.act .collect) rfl,
        .inl ⟨_, List.mem_cons_of_mem _ List.mem_cons_self, hheld⟩⟩
    exact ⟨hr, _, hrun, rfl, (protects_of_run hr).stays hrun hl⟩
  · intro h k heap s
    have hr : Run .standard s := Relation.ReflTransGen.refl (a := start .standard)
      |>.tail (Step.op (.act (.newString [97, 98])) rfl)
      |>.tail (Step.op (.act (.newString [99])) rfl)
      |>.tail (Step.addRoot h) |>.tail (Step.addRoot h) |>.tail (Step.addRoot k)
    have hrun := Relation.ReflTransGen.refl (r := fun a b => Step a b ∧ Holds a h) (a := s)
      |>.tail ⟨Step.removeRoot h, .inr (by decide)⟩
      |>.tail ⟨Step.op (.act .collect) rfl, .inr (by decide)⟩
    exact ⟨hr, _, hrun, by decide, rfl, (protects_of_run hr).stays hrun (by decide)⟩

end Scoped

end ScriptMachine
