import ScriptMachine.Proofs.Heap.Issued
import ScriptMachine.Proofs.Heap.Safety
import ScriptMachine.Proofs.Table.Twin

/-!
# Heaps that differ in names only

Two heaps on which the same things were done hold the same objects under different handles, since
their collections vacated different cells. A list of pairs says which handle of one is which of the
other. It only grows: an object that one heap has lost may be alive in the other, and a handle that
outlived its object is still compared with others. So the pairs must stay one-to-one beyond the
life of the objects, which is where `Heap.Issued` comes in. Of the objects themselves nothing is
asked unless both are alive.

Main definitions:
- `Value.Twin`, `Object.Twin`: values and objects that agree along a pairing.
- `Heap.Twins`: heaps that agree along it.

Results:
1. `Twins.replace`, `Twins.alloc`, `Twins.collect`, …: writes done to both heaps keep them twins.
   Collections may be done to either.
2. `Twins.equal`, `Twins.lookup`, `Twins.renderIn`, …: reads of both agree where neither meets a
   fault.
-/

namespace ScriptMachine

/-! ## 1. Values and objects -/

/-- Which handle of one heap is which of another. -/
abbrev Pairing := List (Handle × Handle)

/-- Handles that are paired. -/
def Paired (ρ : Pairing) (h k : Handle) : Prop :=
  (h, k) ∈ ρ

/-- Values that agree along a pairing. -/
inductive Value.Twin (ρ : Pairing) : Value → Value → Prop
  | null : Twin ρ .null .null
  | bool (b : Bool) : Twin ρ (.bool b) (.bool b)
  | number (x : Double) : Twin ρ (.number x) (.number x)
  | object {h k : Handle} : Paired ρ h k → Twin ρ (.object h) (.object k)

/-- Objects that agree along a pairing. The room in buffers does not matter. -/
inductive Object.Twin (ρ : Pairing) : Object → Object → Prop
  | string (s : ByteString) : Twin ρ (.string s) (.string s)
  | list {elements elements' : Buffer Value} :
      List.Forall₂ (Value.Twin ρ) elements.toList elements'.toList →
      Twin ρ (.list elements) (.list elements')
  | map {t u : Table Value Value} : Table.Twin (Value.Twin ρ) (Value.Twin ρ) t u →
      Twin ρ (.map t) (.map u)
  | range (start stop : Double) : Twin ρ (.range start stop) (.range start stop)
  | function {name : String} {owner owner' : Option Handle} {arity : Arity} {body : Body} :
      Option.Rel (Paired ρ) owner owner' →
      Twin ρ (.function ⟨name, owner, arity, body⟩) (.function ⟨name, owner', arity, body⟩)
  | script {name : String} {functions functions' : Buffer Handle}
      {globals globals' : Buffer Global} :
      List.Forall₂ (Paired ρ) functions.toList functions'.toList →
      List.Forall₂ (fun g g' => g.name = g'.name ∧ g.value.Twin ρ g'.value) globals.toList
        globals'.toList →
      Twin ρ (.script ⟨name, functions, globals⟩) (.script ⟨name, functions', globals'⟩)
  | fiber {stack stack' : Buffer Value} {function function' : Option Handle} :
      List.Forall₂ (Value.Twin ρ) stack.toList stack'.toList →
      Option.Rel (Paired ρ) function function' →
      Twin ρ (.fiber ⟨stack, function⟩) (.fiber ⟨stack', function'⟩)
  | foreign (f : Foreign) : Twin ρ (.foreign f) (.foreign f)

variable {ρ σ : Pairing}

theorem Value.Twin.mono (hρ : ρ ⊆ σ) {v w : Value} (h : v.Twin ρ w) : v.Twin σ w := by
  cases h with
  | null => exact .null
  | bool b => exact .bool b
  | number x => exact .number x
  | object hp => exact .object (hρ hp)

theorem optionRel_mono {α β : Type} {R S : α → β → Prop} (hRS : ∀ a b, R a b → S a b)
    {x : Option α} {y : Option β} (h : Option.Rel R x y) : Option.Rel S x y := by
  cases h with
  | none => exact .none
  | some hab => exact .some (hRS _ _ hab)

theorem Object.Twin.mono (hρ : ρ ⊆ σ) {o p : Object} (h : o.Twin ρ p) : o.Twin σ p := by
  have hvalue : ∀ v w : Value, v.Twin ρ w → v.Twin σ w := fun _ _ hv => hv.mono hρ
  have hpaired : ∀ h k, Paired ρ h k → Paired σ h k := fun _ _ hp => hρ hp
  cases h with
  | string s => exact .string s
  | list he => exact .list (he.imp hvalue)
  | map ht => exact .map (ht.imp hvalue hvalue)
  | range start stop => exact .range start stop
  | function ho => exact .function (optionRel_mono hpaired ho)
  | script hf hg =>
    exact .script (hf.imp hpaired) (hg.imp fun _ _ hab => ⟨hab.1, hvalue _ _ hab.2⟩)
  | fiber hs hf => exact .fiber (hs.imp hvalue) (optionRel_mono hpaired hf)
  | foreign f => exact .foreign f

theorem Object.Twin.kind_eq {o p : Object} (h : o.Twin ρ p) : o.kind = p.kind := by
  cases h <;> rfl

theorem Value.Twin.asNumber?_eq {v w : Value} (h : v.Twin ρ w) : v.asNumber? = w.asNumber? := by
  cases h <;> rfl

theorem Value.Twin.handle? {v w : Value} (h : v.Twin ρ w) :
    Option.Rel (Paired ρ) v.handle? w.handle? := by
  cases h with
  | object hp => exact .some hp
  | _ => exact .none

namespace Heap

/-! ## 2. Heaps -/

/-- Heaps that agree along a pairing. -/
structure Twins (ρ : Pairing) (heap heap' : Heap) : Prop where
  left : heap.Orderly
  right : heap'.Orderly
  issued : ∀ h k, Paired ρ h k → heap.Issued h ∧ heap'.Issued k
  oneToOne : ∀ h k i j, Paired ρ h k → Paired ρ i j → (h = i ↔ k = j)
  objects : ∀ h k o p, Paired ρ h k → heap.get? h = some o → heap'.get? k = some p → o.Twin ρ p

theorem empty_twins (tuning tuning' : Tuning) : Twins [] (empty tuning) (empty tuning') where
  left := empty_orderly tuning
  right := empty_orderly tuning'
  issued := fun h k hp => by cases hp
  oneToOne := fun h k i j hp => by cases hp
  objects := fun h k o p hp => by cases hp

variable {heap heap' after after' : Heap}

/-- Time may pass for either heap, as long as the objects that both keep agree. -/
theorem Twins.later (T : Twins ρ heap heap') (hl : heap.Later after ∧ after.Orderly)
    (hl' : heap'.Later after' ∧ after'.Orderly)
    (ho : ∀ h k o p, Paired ρ h k → after.get? h = some o → after'.get? k = some p → o.Twin ρ p) :
    Twins ρ after after' where
  left := hl.2
  right := hl'.2
  issued := fun h k hp => ⟨hl.1.issued (T.issued h k hp).1, hl'.1.issued (T.issued h k hp).2⟩
  oneToOne := T.oneToOne
  objects := ho

theorem get?_of_replace {h k : Handle} {o p : Object} (hp : (heap.replace h o).get? k = some p) :
    k = h ∧ p = o ∨ k ≠ h ∧ heap.get? k = some p := by
  by_cases hk : k = h
  · subst hk
    cases hd : heap.get? k with
    | none =>
      rw [replace_of_dead hd, hd] at hp
      cases hp
    | some o' =>
      rw [get?_replace hd, if_pos rfl] at hp
      cases hp
      exact .inl ⟨rfl, rfl⟩
  · cases hd : heap.get? h with
    | none =>
      rw [replace_of_dead hd] at hp
      exact .inr ⟨hk, hp⟩
    | some o' =>
      rw [get?_replace hd, if_neg hk] at hp
      exact .inr ⟨hk, hp⟩

theorem Twins.replace (T : Twins ρ heap heap') {h k : Handle} (hp : Paired ρ h k) {o p : Object}
    (hop : o.Twin ρ p) : Twins ρ (heap.replace h o) (heap'.replace k p) := by
  refine T.later (T.left.replace h o) (T.right.replace k p) fun i j q r hq hi hj => ?_
  -- One side looks at what it has written exactly when the other does.
  have hiff := T.oneToOne i j h k hq hp
  rcases get?_of_replace hi with ⟨heq, rfl⟩ | ⟨hne, hi⟩
  · rcases get?_of_replace hj with ⟨-, rfl⟩ | ⟨hne', -⟩
    · exact hop
    · exact absurd (hiff.mp heq) hne'
  · rcases get?_of_replace hj with ⟨heq', -⟩ | ⟨-, hj⟩
    · exact absurd (hiff.mpr heq') hne
    · exact T.objects i j q r hq hi hj

theorem Twins.remeasure (T : Twins ρ heap heap') (h k : Handle) :
    Twins ρ (heap.remeasure h) (heap'.remeasure k) := by
  refine T.later (T.left.remeasure h) (T.right.remeasure k) fun i j q r hq hi hj => ?_
  rw [get?_remeasure] at hi hj
  exact T.objects i j q r hq hi hj

/-- What is kept alive is each heap's own affair. -/
theorem Twins.anchor (T : Twins ρ heap heap') (roots pins roots' pins' : List Handle) :
    Twins ρ { heap with roots := roots, pins := pins }
      { heap' with roots := roots', pins := pins' } :=
  T.later ⟨.of_cells rfl, T.left.of_cells rfl rfl rfl⟩
    ⟨.of_cells rfl, T.right.of_cells rfl rfl rfl⟩ T.objects

theorem Twins.collect (T : Twins ρ heap heap') (hearly : heap.collect.2.Early)
    (hearly' : heap'.collect.2.Early) : Twins ρ heap.collect.2 heap'.collect.2 := by
  refine T.later (T.left.collect hearly) (T.right.collect hearly') fun h k o p hp ho ho' => ?_
  exact T.objects h k o p hp ((get?_collect T.left.tidy).mp ho).1
    ((get?_collect T.right.tidy).mp ho').1

/-- New objects that agree get paired. Neither handle was given out before, so the pairs stay
one-to-one, also against handles of objects that are gone. -/
theorem Twins.alloc (T : Twins ρ heap heap') {x y : Object} (hxy : x.Twin ρ y)
    (hearly : (heap.alloc x).2.Early) (hearly' : (heap'.alloc y).2.Early) :
    Twins (((heap.alloc x).1, (heap'.alloc y).1) :: ρ) (heap.alloc x).2 (heap'.alloc y).2 := by
  obtain ⟨hl, ho, hnew⟩ := T.left.alloc x hearly
  obtain ⟨hl', ho', hnew'⟩ := T.right.alloc y hearly'
  have hfresh : ∀ h k, Paired ρ h k → h ≠ (heap.alloc x).1 ∧ k ≠ (heap'.alloc y).1 := by
    intro h k hp
    obtain ⟨hi, hi'⟩ := T.issued h k hp
    exact ⟨fun heq => hnew (heq ▸ hi), fun heq => hnew' (heq ▸ hi')⟩
  refine ⟨ho, ho', fun h k hp => ?_, fun h k i j hp hq => ?_, fun h k o p hp hh hk => ?_⟩
  · rcases List.mem_cons.mp hp with heq | hp
    · cases heq
      exact ⟨issued_of_isLive (isLive_alloc heap T.left.tidy x),
        issued_of_isLive (isLive_alloc heap' T.right.tidy y)⟩
    · obtain ⟨hi, hi'⟩ := T.issued h k hp
      exact ⟨hl.issued hi, hl'.issued hi'⟩
  · rcases List.mem_cons.mp hp with heq | hp
    · cases heq
      rcases List.mem_cons.mp hq with heq | hq
      · cases heq
        exact ⟨fun _ => rfl, fun _ => rfl⟩
      · obtain ⟨hne, hne'⟩ := hfresh i j hq
        exact ⟨fun heq => absurd heq.symm hne, fun heq => absurd heq.symm hne'⟩
    · rcases List.mem_cons.mp hq with heq | hq
      · cases heq
        obtain ⟨hne, hne'⟩ := hfresh h k hp
        exact ⟨fun heq => absurd heq hne, fun heq => absurd heq hne'⟩
      · exact T.oneToOne h k i j hp hq
  · have hsub : ρ ⊆ ((heap.alloc x).1, (heap'.alloc y).1) :: ρ := List.subset_cons_self _ _
    rcases List.mem_cons.mp hp with heq | hp
    · -- The new handles named nothing before, so what they name are the new objects.
      cases heq
      rcases get?_of_alloc T.left.tidy hh with ⟨-, rfl⟩ | hold
      · rcases get?_of_alloc T.right.tidy hk with ⟨-, rfl⟩ | hold'
        · exact hxy.mono hsub
        · exact absurd (issued_of_isLive (isLive_iff.mpr ⟨_, hold'⟩)) hnew'
      · exact absurd (issued_of_isLive (isLive_iff.mpr ⟨_, hold⟩)) hnew
    · obtain ⟨hne, hne'⟩ := hfresh h k hp
      rcases get?_of_alloc T.left.tidy hh with ⟨heq, -⟩ | hold
      · exact absurd heq hne
      · rcases get?_of_alloc T.right.tidy hk with ⟨heq, -⟩ | hold'
        · exact absurd heq hne'
        · exact (T.objects h k o p hp hold hold').mono hsub

/-! ## 3. Reading -/

theorem Twins.get (T : Twins ρ heap heap') {h k : Handle} (hp : Paired ρ h k) :
    Agree (Object.Twin ρ) (heap.get h) (heap'.get k) := by
  intro o p ho ho'
  exact T.objects h k o p hp (get_eq_ok_iff.mp ho) (get_eq_ok_iff.mp ho')

theorem Twins.kindOf (T : Twins ρ heap heap') {v w : Value} (hv : v.Twin ρ w) :
    Agree Eq (heap.kindOf v) (heap'.kindOf w) := by
  cases hv with
  | object hp => exact (T.get hp).bind fun o p hop => .ok hop.kind_eq
  | _ => exact .ok rfl

theorem Twins.typeName (T : Twins ρ heap heap') {v w : Value} (hv : v.Twin ρ w) :
    Agree Eq (heap.typeName v) (heap'.typeName w) :=
  (T.kindOf hv).bind fun _ _ heq => .ok (congrArg Kind.name heq)

/-- A view that agrees on objects that do agrees on values that do. -/
theorem Twins.view (T : Twins ρ heap heap') {α : Type} {R : α → α → Prop}
    {select : Object → Option α}
    (hselect : ∀ o p, o.Twin ρ p → Option.Rel R (select o) (select p)) {v w : Value}
    (hv : v.Twin ρ w) : Agree (Option.Rel R) (heap.view select v) (heap'.view select w) := by
  cases hv with
  | object hp => exact (T.get hp).bind fun o p hop => .ok (hselect o p hop)
  | _ => exact .ok .none

theorem Twins.asString (T : Twins ρ heap heap') {v w : Value} (hv : v.Twin ρ w) :
    Agree (Option.Rel Eq) (heap.asString v) (heap'.asString w) := by
  refine T.view (fun o p hop => ?_) hv
  cases hop with
  | string s => exact .some rfl
  | _ => exact .none

theorem Twins.asMap (T : Twins ρ heap heap') {v w : Value} (hv : v.Twin ρ w) :
    Agree (Option.Rel (Table.Twin (Value.Twin ρ) (Value.Twin ρ))) (heap.asMap v)
      (heap'.asMap w) := by
  refine T.view (fun o p hop => ?_) hv
  cases hop with
  | map ht => exact .some ht
  | _ => exact .none

theorem Twins.asFunction (T : Twins ρ heap heap') {v w : Value} (hv : v.Twin ρ w) :
    Agree (Option.Rel fun f g => f.name = g.name) (heap.asFunction v) (heap'.asFunction w) := by
  refine T.view (fun o p hop => ?_) hv
  cases hop with
  | function _ => exact .some rfl
  | _ => exact .none

theorem Twins.scriptFunction (T : Twins ρ heap heap') {s s' : Script}
    (hs : List.Forall₂ (Paired ρ) s.functions.toList s'.functions.toList) (name : String) :
    Agree (Option.Rel (Paired ρ)) (heap.scriptFunction s name) (heap'.scriptFunction s' name) := by
  refine .findM? hs fun h k hp => (T.asFunction (.object hp)).bind fun f g hfg => ?_
  cases hfg with
  | none => exact .ok rfl
  | some hname => exact .ok (by simp [hname])

/-! ### Keys -/

theorem Twins.hashOf (T : Twins ρ heap heap') {v w : Value} (hv : v.Twin ρ w) :
    Agree Eq (heap.hashOf v) (heap'.hashOf w) := by
  cases hv with
  | null => exact .ok rfl
  | bool b => cases b <;> exact .ok rfl
  | number x => exact .ok rfl
  | object hp =>
    refine (T.asString (.object hp)).bind fun s t hst => ?_
    cases hst with
    | none => exact .ok rfl
    | some heq => exact .ok (by rw [heq])

/-- Identity of objects is preserved because the pairs are one-to-one. -/
theorem Twins.equal (T : Twins ρ heap heap') {a a' b b' : Value} (ha : a.Twin ρ a')
    (hb : b.Twin ρ b') : Agree Eq (heap.equal a b) (heap'.equal a' b') := by
  cases ha with
  | null => cases hb <;> exact .ok rfl
  | bool c => cases hb <;> exact .ok rfl
  | number x => cases hb <;> exact .ok rfl
  | @object h k hp =>
    cases hb with
    | @object i j hq =>
      have hiff := T.oneToOne h k i j hp hq
      unfold Heap.equal
      dsimp only
      by_cases heq : h = i
      · rw [if_pos heq, if_pos (hiff.mp heq)]
        exact .ok rfl
      · rw [if_neg heq, if_neg fun heq' => heq (hiff.mpr heq')]
        refine (T.asString (.object hp)).bind fun s s' hs => ?_
        refine (T.asString (.object hq)).bind fun t t' ht => ?_
        cases hs with
        | none => exact .ok rfl
        | some hs =>
          cases ht with
          | none => exact .ok rfl
          | some ht => exact .ok (by rw [hs, ht])
    | _ => exact .ok rfl

theorem Twins.findKey (T : Twins ρ heap heap') {t u : Table Value Value}
    (ht : t.Twin (Value.Twin ρ) (Value.Twin ρ) u) (hash : UInt32) {key key' : Value}
    (hk : key.Twin ρ key') :
    Agree Eq (heap.findKey t hash key) (heap'.findKey u hash key') :=
  ht.findM hash fun _ _ hc => T.equal hc hk

theorem valueAt?_twin {t u : Table Value Value} (ht : t.Twin (Value.Twin ρ) (Value.Twin ρ) u)
    (slot : Option Nat) :
    Option.Rel (Value.Twin ρ) (slot.bind t.valueAt?) (slot.bind u.valueAt?) := by
  cases slot with
  | none => exact .none
  | some index => exact ht.valueAt? index

theorem Twins.lookup (T : Twins ρ heap heap') {t u : Table Value Value}
    (ht : t.Twin (Value.Twin ρ) (Value.Twin ρ) u) {key key' : Value} (hk : key.Twin ρ key') :
    Agree (Option.Rel (Value.Twin ρ)) (heap.lookup t key) (heap'.lookup u key') := by
  refine (T.hashOf hk).bind fun hash hash' heq => ?_
  subst heq
  cases hash with
  | none => exact .ok .none
  | some hash =>
    refine (T.findKey ht hash hk).bind fun slot slot' heq => ?_
    subst heq
    exact .ok (valueAt?_twin ht slot)

theorem Twins.lookupBytes (T : Twins ρ heap heap') {t u : Table Value Value}
    (ht : t.Twin (Value.Twin ρ) (Value.Twin ρ) u) (bytes : List UInt8) :
    Agree (Option.Rel (Value.Twin ρ)) (heap.lookupBytes t bytes) (heap'.lookupBytes u bytes) := by
  refine (ht.findM (hashBytes bytes) fun c c' hc => ?_).bind fun slot slot' heq => ?_
  · refine (T.asString hc).bind fun s s' hs => ?_
    cases hs with
    | none => exact .ok rfl
    | some heq => exact .ok (by rw [heq])
  · subst heq
    exact .ok (valueAt?_twin ht slot)

/-! ### Texts -/

theorem Twins.mem_iff (T : Twins ρ heap heap') {hs ks : List Handle}
    (hmem : List.Forall₂ (Paired ρ) hs ks) {h k : Handle} (hp : Paired ρ h k) :
    h ∈ hs ↔ k ∈ ks := by
  have hunique : Relator.BiUnique (Paired ρ) :=
    ⟨fun h h' k hp hq => (T.oneToOne h k h' k hp hq).mpr rfl,
      fun h k k' hp hq => (T.oneToOne h k h k' hp hq).mp rfl⟩
  exact List.rel_mem hunique hp hmem

theorem objectText_twin {render render' : Value → Except Fault (List Char)} {inside quoted : Bool}
    (hr : inside = false → ∀ v w, v.Twin ρ w → Agree Eq (render v) (render' w)) {o p : Object}
    (hop : o.Twin ρ p) : Agree Eq (objectText render inside quoted o)
      (objectText render' inside quoted p) := by
  cases hop with
  | @list elements elements' he =>
    cases inside with
    | true => exact .ok rfl
    | false =>
      refine (Agree.mapM he (hr rfl)).bind fun texts texts' ht => ?_
      rw [List.forall₂_eq_eq_eq] at ht
      exact .ok (by rw [ht])
  | @map t u ht =>
    cases inside with
    | true => exact .ok rfl
    | false =>
      refine (Agree.mapM (S := Eq) ht.entries fun e e' hee => ?_).bind
        fun texts texts' hts => ?_
      · refine (hr rfl _ _ hee.1).bind fun left left' hleft => ?_
        refine (hr rfl _ _ hee.2).bind fun right right' hright => ?_
        exact .ok (by rw [hleft, hright])
      · rw [List.forall₂_eq_eq_eq] at hts
        exact .ok (by rw [hts])
  | _ => exact .ok rfl

/-- The texts of values that agree are the same. The induction is on the number of objects that
the rendering of the left one is not inside of; the right one goes along. -/
theorem Twins.renderIn (T : Twins ρ heap heap') {enclosing enclosing' : List Handle}
    (hin : List.Forall₂ (Paired ρ) enclosing enclosing') (quoted : Bool) {v w : Value}
    (hv : v.Twin ρ w) :
    Agree Eq (renderIn heap enclosing quoted v) (renderIn heap' enclosing' quoted w) := by
  induction hn : (heap.outside enclosing).length using Nat.strongRecOn
    generalizing enclosing enclosing' quoted v w with
  | ind n ih =>
    subst hn
    cases hv with
    | @object h k hp =>
      rw [renderIn_object, renderIn_object]
      have hget : Agree (fun o p => heap.get? h = some o ∧ o.Twin ρ p) (heap.get h) (heap'.get k) :=
        fun o p ho ho' => ⟨get_eq_ok_iff.mp ho, T.get hp o p ho ho'⟩
      refine hget.bind fun o p ⟨ho, hop⟩ => ?_
      -- Both are inside the same containers, and so elide at the same places.
      rw [decide_eq_decide.mpr (T.mem_iff hin hp)]
      refine objectText_twin (fun houtside v w hvw => ?_) hop
      have hnew : h ∉ enclosing := by
        rw [T.mem_iff hin hp]
        exact of_decide_eq_false houtside
      exact ih _ (length_outside_cons ho hnew) (.cons hp hin) true hvw rfl
    | _ =>
      unfold ScriptMachine.renderIn
      exact .ok rfl

theorem Twins.render (T : Twins ρ heap heap') {v w : Value} (hv : v.Twin ρ w) (quoted : Bool) :
    Agree Eq (heap.render v quoted) (heap'.render w quoted) := by
  rw [render_eq, render_eq]
  exact (T.renderIn .nil quoted hv).bind fun _ _ heq => .ok (congrArg String.ofList heq)

theorem Twins.missingKey (T : Twins ρ heap heap') {key key' : Value} (hk : key.Twin ρ key') :
    Agree Eq (heap.missingKey key) (heap'.missingKey key') := by
  refine (T.render hk true).bind fun text text' heq => ?_
  subst heq
  refine (T.hashOf hk).bind fun hash hash' heq => ?_
  subst heq
  cases hash with
  | none => exact .ok rfl
  | some hash => exact .ok rfl

end Heap

end ScriptMachine
