import ScriptMachine.Proofs.Heap.Twin

/-!
# Two runs of an operation

An operation is started on two heaps that are twins, with operands that are. `Sim` says that the
runs end alike: with results that agree along the pairing, extended by what was allocated, or with
the same error. Nothing is said of a run that meets a fault, nor once either heap has seen too many
collections to tell its handles apart. The rules take both runs apart in step, as the rules of
`Ends` do for one.

Main definitions:
- `Sim`: the runs end alike.
- `Finding.Twin`: findings that agree along a pairing.

Results:
1. `HeapAction.sim`: the runs of every action end alike.
-/

namespace ScriptMachine

open Heap (Twins)

variable {α α' β β' : Type} {ρ : Pairing} {heap heap' : Heap}

/-! ## 1. The rules -/

/-- What two endings have in common. -/
def Matched (ρ : Pairing) (R : Pairing → α → α' → Prop) :
    EStateM.Result (Failure EvalError) Heap α → EStateM.Result (Failure EvalError) Heap α' → Prop
  | .ok a after, .ok b after' =>
    after.Early → after'.Early → ∃ σ, ρ ⊆ σ ∧ Twins σ after after' ∧ R σ a b
  | .error (.error e) after, .error (.error e') after' => e = e' ∧ Twins ρ after after'
  | .error (.fault _) _, _ => True
  | _, .error (.fault _) _ => True
  | .ok _ _, .error (.error _) _ => False
  | .error (.error _) _, .ok _ _ => False

/-- The operations, started on two heaps, end alike. -/
def Sim (ρ : Pairing) (heap heap' : Heap) (m : HeapM α) (m' : HeapM α')
    (R : Pairing → α → α' → Prop) : Prop :=
  Matched ρ R (m heap) (m' heap')

theorem matched_fault {R : Pairing → α → α' → Prop} (f : Fault) (after : Heap)
    (r : EStateM.Result (Failure EvalError) Heap α') :
    Matched ρ R (.error (.fault f) after) r := by
  rcases r with _ | ⟨_ | _, _⟩ <;> exact trivial

theorem matched_fault' {R : Pairing → α → α' → Prop}
    (r : EStateM.Result (Failure EvalError) Heap α) (f : Fault) (after : Heap) :
    Matched ρ R r (.error (.fault f) after) := by
  rcases r with _ | ⟨_ | _, _⟩ <;> exact trivial

theorem Sim.get {f : Heap → HeapM β} {g : Heap → HeapM β'} {R : Pairing → β → β' → Prop}
    (h : Sim ρ heap heap' (f heap) (g heap') R) :
    Sim ρ heap heap' (get >>= f) (get >>= g) R := h

/-- Reads that agree. -/
theorem Sim.read {P : α → α' → Prop} {x : Except Fault α} {y : Except Fault α'}
    (hxy : Agree P x y) {f : α → HeapM β} {g : α' → HeapM β'} {R : Pairing → β → β' → Prop}
    (hf : ∀ a b, P a b → Sim ρ heap heap' (f a) (g b) R) :
    Sim ρ heap heap' (liftM x >>= f) (liftM y >>= g) R := by
  cases x with
  | error e => exact matched_fault e heap _
  | ok a =>
    cases y with
    | error e => exact matched_fault' _ e heap'
    | ok b => exact hf a b (hxy a b rfl rfl)

/-- A check of operands that are the same to it. -/
theorem Sim.check (T : Twins ρ heap heap') {x y : Except EvalError α} (hxy : x = y)
    {f : α → HeapM β} {g : α → HeapM β'} {R : Pairing → β → β' → Prop}
    (hf : ∀ a, Sim ρ heap heap' (f a) (g a) R) :
    Sim ρ heap heap' (liftM x >>= f) (liftM y >>= g) R := by
  subst hxy
  cases x with
  | error e => exact ⟨rfl, T⟩
  | ok a => exact hf a

theorem Sim.pure (T : Twins ρ heap heap') {a : α} {b : α'} {R : Pairing → α → α' → Prop}
    (h : R ρ a b) : Sim ρ heap heap' (pure a) (pure b) R :=
  fun _ _ => ⟨ρ, List.Subset.refl ρ, T, h⟩

theorem Sim.throw (T : Twins ρ heap heap') {e e' : EvalError} (he : e = e')
    {R : Pairing → α → α' → Prop} :
    Sim ρ heap heap' (throw (.error e)) (throw (.error e')) R :=
  ⟨he, T⟩

theorem Sim.set {after after' : Heap} (T : Twins ρ after after') :
    Sim ρ heap heap' (set after) (set after') fun _ _ _ => True :=
  fun _ _ => ⟨ρ, List.Subset.refl ρ, T, trivial⟩

/-- The one step that adds to the pairing. -/
theorem Sim.newObject (T : Twins ρ heap heap') {o p : Object} (hop : o.Twin ρ p) :
    Sim ρ heap heap' (newObject o) (newObject p) Value.Twin := by
  intro hearly hearly'
  exact ⟨_, List.subset_cons_self _ _, T.alloc hop hearly hearly', .object (List.mem_cons_self ..)⟩

theorem Sim.map {m : HeapM α} {m' : HeapM α'} {P : Pairing → α → α' → Prop}
    (h : Sim ρ heap heap' m m' P) {f : α → β} {g : α' → β'} {R : Pairing → β → β' → Prop}
    (hf : ∀ σ a b, ρ ⊆ σ → P σ a b → R σ (f a) (g b)) :
    Sim ρ heap heap' (do return f (← m)) (do return g (← m')) R := by
  show Matched ρ R (EStateM.bind m _ heap) (EStateM.bind m' _ heap')
  unfold Sim at h
  unfold EStateM.bind
  -- Only a result is touched; any other ending is passed on as it is.
  cases hm : m heap with
  | ok a after =>
    cases hm' : m' heap' with
    | ok b after' =>
      rw [hm, hm'] at h
      intro hearly hearly'
      obtain ⟨σ, hσ, T, hP⟩ := h hearly hearly'
      exact ⟨σ, hσ, T, hf σ a b hσ hP⟩
    | error e after' =>
      rw [hm, hm'] at h
      cases e with
      | error e => exact h
      | fault f => exact trivial
  | error e after =>
    cases hm' : m' heap' with
    | ok b after' =>
      rw [hm, hm'] at h
      cases e with
      | error e => exact h
      | fault f => exact trivial
    | error e' after' =>
      rw [hm, hm'] at h
      cases e with
      | error e =>
        cases e' with
        | error e' => exact h
        | fault f => exact trivial
      | fault f => exact matched_fault f after _

/-- A read inside a question that can also be refused. -/
theorem Sim.query {P : α → α' → Prop} {x : Except Fault α} {y : Except Fault α'}
    (hxy : Agree P x y) {f : α → Except (Failure EvalError) β}
    {g : α' → Except (Failure EvalError) β'} {R : Pairing → β → β' → Prop}
    (hf : ∀ a b, P a b → Sim ρ heap heap' (liftM (f a)) (liftM (g b)) R) :
    Sim ρ heap heap' (liftM (liftM x >>= f)) (liftM (liftM y >>= g)) R := by
  cases x with
  | error e => exact matched_fault e heap _
  | ok a =>
    cases y with
    | error e => exact matched_fault' _ e heap'
    | ok b => exact hf a b (hxy a b rfl rfl)

/-! ## 2. Findings -/

/-- Steps of an iteration that agree along a pairing. -/
inductive IterationStep.Twin (ρ : Pairing) : IterationStep → IterationStep → Prop
  | next {state state' v w : Value} : state.Twin ρ state' → v.Twin ρ w →
      Twin ρ (.next state v) (.next state' w)
  | done : Twin ρ .done .done

/-- Findings that agree along a pairing. -/
inductive Finding.Twin (ρ : Pairing) : Finding → Finding → Prop
  | nothing : Twin ρ .nothing .nothing
  | refused : Twin ρ .refused .refused
  | value {v w : Value} : v.Twin ρ w → Twin ρ (.value v) (.value w)
  | option {v w : Option Value} : Option.Rel (Value.Twin ρ) v w → Twin ρ (.option v) (.option w)
  | step {s s' : IterationStep} : s.Twin ρ s' → Twin ρ (.step s) (.step s')
  | flag (b : Bool) : Twin ρ (.flag b) (.flag b)
  | hash (h : Option UInt32) : Twin ρ (.hash h) (.hash h)
  | text (text : String) : Twin ρ (.text text) (.text text)

theorem Finding.Twin.values {x y : Finding} (h : x.Twin ρ y) :
    List.Forall₂ (Value.Twin ρ) x.values y.values := by
  cases h with
  | value hv => exact .cons hv .nil
  | option hv =>
    cases hv with
    | none => exact .nil
    | some hv => exact .cons hv .nil
  | step hs =>
    cases hs with
    | next hstate hv => exact .cons hstate (.cons hv .nil)
    | done => exact .nil
  | _ => exact .nil

/-! ## 3. Each operation -/

theorem dropLast_twin {P : α → α' → Prop} {l : List α} {m : List α'} (h : List.Forall₂ P l m) :
    List.Forall₂ P l.dropLast m.dropLast := by
  rw [List.dropLast_eq_take, List.dropLast_eq_take, h.length_eq]
  exact List.forall₂_take _ h

theorem getD_twin {x y : Option Value} (h : Option.Rel (Value.Twin ρ) x y) :
    (x.getD .null).Twin ρ (y.getD .null) := by
  cases h with
  | none => exact .null
  | some hv => exact hv

theorem back?_twin {b c : Buffer Value} (h : List.Forall₂ (Value.Twin ρ) b.toList c.toList) :
    (b.back?.getD .null).Twin ρ (c.back?.getD .null) := by
  have hlast : Option.Rel (Value.Twin ρ) b.back? c.back? := by
    unfold Buffer.back?
    rw [← Array.getLast?_toList, ← Array.getLast?_toList, List.getLast?_eq_getElem?,
      List.getLast?_eq_getElem?, Array.length_toList, Array.length_toList]
    have hsize : b.items.size = c.items.size := ArrayTwin.size_eq h
    rw [hsize]
    exact getElem?_twin h _
  exact getD_twin hlast

theorem size_twin {b c : Buffer Value} (h : List.Forall₂ (Value.Twin ρ) b.toList c.toList) :
    b.size = c.size :=
  ArrayTwin.size_eq h

/-- Variables of modules that agree. -/
abbrev GlobalsTwin (ρ : Pairing) : List Global → List Global → Prop :=
  List.Forall₂ fun g g' => g.name = g'.name ∧ g.value.Twin ρ g'.value

theorem global_twin {l m : List Global} (h : GlobalsTwin ρ l m) (name : String) :
    Option.Rel (Value.Twin ρ) ((l.find? (·.name == name)).map (·.value))
      ((m.find? (·.name == name)).map (·.value)) := by
  induction h with
  | nil => exact .none
  | @cons g g' _ _ hgg _ ih =>
    rw [List.find?_cons, List.find?_cons, ← hgg.1]
    cases g.name == name with
    | true => exact .some hgg.2
    | false => exact ih

theorem findIdx?_globals {l m : List Global} (h : GlobalsTwin ρ l m) (name : String) :
    l.findIdx? (·.name == name) = m.findIdx? (·.name == name) := by
  induction h with
  | nil => rfl
  | cons hgg _ ih => rw [List.findIdx?_cons, List.findIdx?_cons, hgg.1, ih]

theorem setGlobal_twin {name : String} {functions functions' : Buffer Handle}
    {globals globals' : Buffer Global}
    (hf : List.Forall₂ (Paired ρ) functions.toList functions'.toList)
    (hg : GlobalsTwin ρ globals.toList globals'.toList) (index : Nat) {v w : Value}
    (hv : v.Twin ρ w) :
    (Object.script (Script.setGlobal ⟨name, functions, globals⟩ index v)).Twin ρ
      (.script (Script.setGlobal ⟨name, functions', globals'⟩ index w)) := by
  unfold Script.setGlobal
  have hglobal := getElem?_twin hg index
  rw [Buffer.getElem?_toList, Buffer.getElem?_toList] at hglobal
  dsimp only
  revert hglobal
  generalize globals.get? index = a, globals'.get? index = b
  intro hglobal
  cases hglobal with
  | none => exact .script hf hg
  | some hgg =>
    refine .script hf ?_
    rw [Buffer.toList_set, Buffer.toList_set]
    exact set_twin hg index ⟨hgg.1, hv⟩

theorem requirePosition_twin {key key' : Value} (hk : key.Twin ρ key') {n n' : Nat} (hn : n = n')
    (container : String) : requirePosition key n container = requirePosition key' n' container := by
  unfold requirePosition requireInteger
  rw [hk.asNumber?_eq, hn]

theorem completedSteps_twin {state state' : Value} (hs : state.Twin ρ state') :
    completedSteps state = completedSteps state' := by
  cases hs with
  | object _ => rfl
  | _ => rfl

theorem rangeStep_twin (start stop : Double) (step : Nat) :
    (rangeStep start stop step).Twin ρ (rangeStep start stop step) := by
  rcases rangeStep_cases start stop step with h | ⟨x, h⟩
  · rw [h]
    exact .done
  · rw [h]
    exact .next (.number _) (.number x)

section Operations

variable (T : Twins ρ heap heap')
include T

theorem listPush_sim {v v' w w' : Value} (hv : v.Twin ρ v') (hw : w.Twin ρ w') :
    Sim ρ heap heap' (listPush v w) (listPush v' w') fun _ => Eq := by
  cases hv with
  | object hp =>
    refine .get (.read (T.get hp) fun o p hop => ?_)
    cases hop with
    | list he =>
      refine (Sim.set (T.replace hp (.list ?_))).map fun _ _ _ _ _ => rfl
      rw [Buffer.toList_push, Buffer.toList_push]
      exact List.rel_append he (.cons hw .nil)
    | _ => exact .pure T rfl
  | _ => exact .pure T rfl

theorem listPop_sim {v v' : Value} (hv : v.Twin ρ v') :
    Sim ρ heap heap' (listPop v) (listPop v') fun σ => Option.Rel (Value.Twin σ) := by
  cases hv with
  | object hp =>
    refine .get (.read (T.get hp) fun o p hop => ?_)
    cases hop with
    | list he =>
      have hlast := back?_twin he
      refine (Sim.set (T.replace hp (.list ?_))).map fun σ _ _ hσ _ => .some (hlast.mono hσ)
      rw [Buffer.toList_pop, Buffer.toList_pop]
      exact dropLast_twin he
    | _ => exact .pure T .none
  | _ => exact .pure T .none

theorem mapSet_sim {h k : Handle} (hp : Paired ρ h k) {key key' value value' : Value}
    (hk : key.Twin ρ key') (hv : value.Twin ρ value') :
    Sim ρ heap heap' (mapSet h key value) (mapSet k key' value') fun _ _ _ => True := by
  refine .get (.read (T.get hp) fun o p hop => ?_)
  cases hop with
  | map ht =>
    refine .read (T.hashOf hk) fun hash hash' heq => ?_
    subst heq
    cases hash with
    | none => exact .read (T.typeName hk) fun name name' heq => .throw T (by rw [heq])
    | some hash =>
      refine .read (T.findKey ht hash hk) fun slot slot' heq => ?_
      subst heq
      refine .set ?_
      rw [Heap.writeMap_eq, Heap.writeMap_eq]
      exact (T.replace hp (.map (ht.write slot hk hash hv))).remeasure h k
  | _ => exact .throw T rfl

theorem mapRemove_sim {h k : Handle} (hp : Paired ρ h k) {key key' : Value}
    (hk : key.Twin ρ key') :
    Sim ρ heap heap' (mapRemove h key) (mapRemove k key') fun σ => Option.Rel (Value.Twin σ) := by
  refine .get (.read (T.hashOf hk) fun hash hash' heq => ?_)
  subst heq
  cases hash with
  | none => exact .pure T .none
  | some hash =>
    refine .read (T.get hp) fun o p hop => ?_
    cases hop with
    | map ht =>
      refine .read (T.findKey ht hash hk) fun slot slot' heq => ?_
      subst heq
      cases slot with
      | none => exact .pure T .none
      | some index =>
        obtain ⟨hvalue, htable⟩ := ht.removeAt index
        exact (Sim.set (T.replace hp (.map htable))).map fun σ _ _ hσ _ =>
          optionRel_mono (fun _ _ hvw => hvw.mono hσ) hvalue
    | _ => exact .pure T .none

theorem newString_sim (bytes : List UInt8) :
    Sim ρ heap heap' (newString bytes) (newString bytes) Value.Twin :=
  .newObject T (.string _)

theorem unsupported_sim (op : Operator) {v v' w w' : Value} (hv : v.Twin ρ v')
    (hw : w.Twin ρ w') {R : Pairing → α → α → Prop} :
    Sim ρ heap heap' (unsupported op v w) (unsupported op v' w') R := by
  refine .get (.read (T.typeName hv) fun name name' heq => ?_)
  subst heq
  refine .read (T.typeName hw) fun name name' heq => ?_
  subst heq
  exact .throw T rfl

theorem concatenate_sim {v v' w w' : Value} (hv : v.Twin ρ v') (hw : w.Twin ρ w') :
    Sim ρ heap heap' (concatenate v w) (concatenate v' w') Value.Twin := by
  cases hv with
  | object hp =>
    cases hw with
    | object hq =>
      have hrefused := unsupported_sim (R := Value.Twin) T .add (.object hp) (.object hq)
      refine .get (.read (T.get hp) fun o o' ho => .read (T.get hq) fun p p' hp' => ?_)
      cases ho with
      | string s =>
        cases hp' with
        | string t => exact newString_sim T _
        | _ => exact hrefused
      | list _ =>
        cases hp' with
        | list _ => exact .throw T rfl
        | _ => exact hrefused
      | _ => exact hrefused
    | null => exact unsupported_sim T _ (.object hp) .null
    | bool b => exact unsupported_sim T _ (.object hp) (.bool b)
    | number x => exact unsupported_sim T _ (.object hp) (.number x)
  | null => exact unsupported_sim T _ .null hw
  | bool b => exact unsupported_sim T _ (.bool b) hw
  | number x => exact unsupported_sim T _ (.number x) hw

theorem evaluate_sim (op : Operator) {v v' w w' : Value} (hv : v.Twin ρ v') (hw : w.Twin ρ w') :
    Sim ρ heap heap' (evaluate op v w) (evaluate op v' w') Value.Twin := by
  have hrefused : ∀ op, Sim ρ heap heap' (unsupported op v w) (unsupported op v' w') Value.Twin :=
    fun op => unsupported_sim T op hv hw
  unfold evaluate
  rw [← hv.asNumber?_eq, ← hw.asNumber?_eq]
  split
  · refine .pure T ?_
    cases op <;> constructor
  · split
    · exact hrefused op
    · exact .throw T rfl
  · cases op with
    | add => exact concatenate_sim T hv hw
    | mod =>
      refine .get (.read (T.asString hv) fun s s' hs => ?_)
      cases hs with
      | none => exact hrefused .mod
      | some _ => exact .throw T rfl
    | _ => exact hrefused _

theorem getAttribute_sim {v v' : Value} (hv : v.Twin ρ v') (name : String) :
    Sim ρ heap heap' (liftM (heap.getAttribute v name)) (liftM (heap'.getAttribute v' name))
      Value.Twin := by
  cases hv with
  | object hp =>
    refine .query (T.get hp) fun o p hop => ?_
    cases hop with
    | string s =>
      dsimp only
      split
      · exact .pure T (.number _)
      · exact .throw T rfl
    | list he =>
      dsimp only
      rw [size_twin he]
      split
      · exact .pure T (.number _)
      · exact .throw T rfl
    | map ht =>
      refine .query (T.lookupBytes ht _) fun x y hxy => ?_
      cases hxy with
      | none => exact .throw T rfl
      | some hv => exact .pure T hv
    | @script _ _ _ globals globals' hf hg =>
      refine .query (T.scriptFunction hf name) fun x y hxy => ?_
      cases hxy with
      | some hp => exact .pure T (.object hp)
      | none =>
        have hglobal := global_twin hg name
        dsimp only [Script.global?]
        revert hglobal
        generalize (globals.toList.find? _).map _ = a, (globals'.toList.find? _).map _ = b
        intro hglobal
        cases hglobal with
        | none => exact .throw T rfl
        | some hv => exact .pure T hv
    | _ => exact .throw T rfl
  | _ => exact .query (T.typeName (by constructor)) fun n n' heq => .throw T (by rw [heq])

theorem setAttribute_sim {v v' w w' : Value} (hv : v.Twin ρ v') (hw : w.Twin ρ w')
    (name : String) :
    Sim ρ heap heap' (setAttribute v name w) (setAttribute v' name w') fun _ _ _ => True := by
  refine .get ?_
  cases hv with
  | object hp =>
    refine .read (T.get hp) fun o p hop => ?_
    cases hop with
    | string _ | list _ =>
      dsimp only
      split <;> exact .throw T rfl
    | script hf hg =>
      refine .read (T.scriptFunction hf name) fun x y hxy => ?_
      cases hxy with
      | some _ => exact .throw T rfl
      | none =>
        dsimp only [Script.globalIndex?]
        rw [findIdx?_globals hg]
        split
        · exact .set (T.replace hp (setGlobal_twin hf hg _ hw))
        · exact .throw T rfl
    | _ => exact .throw T rfl
  | _ => exact .read (T.typeName (by constructor)) fun n n' heq => .throw T (by rw [heq])

theorem getSubscript_sim {v v' key key' : Value} (hv : v.Twin ρ v') (hk : key.Twin ρ key') :
    Sim ρ heap heap' (getSubscript v key) (getSubscript v' key') Value.Twin := by
  refine .get ?_
  cases hv with
  | object hp =>
    refine .read (T.get hp) fun o p hop => ?_
    cases hop with
    | string s => exact .check T (requirePosition_twin hk rfl _) fun i => newString_sim T _
    | list he =>
      refine .check T (requirePosition_twin hk (size_twin he) _) fun i => .pure T ?_
      have helement := getElem?_twin he i
      rw [Buffer.getElem?_toList, Buffer.getElem?_toList] at helement
      exact getD_twin helement
    | map ht =>
      refine .read (T.lookup ht hk) fun x y hxy => ?_
      cases hxy with
      | some hv => exact .pure T hv
      | none => exact .read (T.missingKey hk) fun e e' heq => .throw T heq
    | _ => exact .throw T rfl
  | _ => exact .read (T.typeName (by constructor)) fun n n' heq => .throw T (by rw [heq])

theorem setSubscript_sim {v v' key key' w w' : Value} (hv : v.Twin ρ v') (hk : key.Twin ρ key')
    (hw : w.Twin ρ w') :
    Sim ρ heap heap' (setSubscript v key w) (setSubscript v' key' w') fun _ _ _ => True := by
  refine .get ?_
  cases hv with
  | object hp =>
    refine .read (T.get hp) fun o p hop => ?_
    cases hop with
    | string s => exact .throw T rfl
    | list he =>
      refine .check T (requirePosition_twin hk (size_twin he) _) fun i => ?_
      refine .set (T.replace hp (.list ?_))
      rw [Buffer.toList_set, Buffer.toList_set]
      exact set_twin he i hw
    | map ht => exact mapSet_sim T hp hk hw
    | _ => exact .throw T rfl
  | _ => exact .read (T.typeName (by constructor)) fun n n' heq => .throw T (by rw [heq])

theorem iterate_sim {v v' state state' : Value} (hv : v.Twin ρ v') (hs : state.Twin ρ state') :
    Sim ρ heap heap' (iterate v state) (iterate v' state') IterationStep.Twin := by
  cases hv with
  | object hp =>
    refine .check T (completedSteps_twin hs) fun step => .get (.read (T.get hp) fun o p hop => ?_)
    cases hop with
    | string s =>
      dsimp only
      split
      · exact (newString_sim T _).map fun σ _ _ _ hv => .next (.number _) hv
      · exact .pure T .done
    | list he =>
      have helement := getElem?_twin he step
      rw [Buffer.getElem?_toList, Buffer.getElem?_toList] at helement
      dsimp only
      revert helement
      generalize Buffer.get? _ step = a, Buffer.get? _ step = b
      intro helement
      cases helement with
      | none => exact .pure T .done
      | some hv => exact .pure T (.next (.number _) hv)
    | map ht =>
      have hnext := ht.nextOccupied? step
      dsimp only
      revert hnext
      generalize Table.nextOccupied? _ step = a, Table.nextOccupied? _ step = b
      intro hnext
      cases hnext with
      | none => exact .pure T .done
      | @some e e' hee =>
        obtain ⟨slot, key⟩ := e
        obtain ⟨slot', key'⟩ := e'
        obtain ⟨hslot, hk⟩ := hee
        dsimp only at hslot
        subst hslot
        exact .pure T (.next (.number _) hk)
    | range start stop => exact .pure T (rangeStep_twin start stop step)
    | _ => exact .throw T rfl
  | _ => exact .throw T rfl

end Operations

/-! ## 4. All of them -/

theorem withHandle_sim (T : Twins ρ heap heap') {v w : Value} (hv : v.Twin ρ w)
    {body body' : Handle → HeapM Finding}
    (h : ∀ i j, Paired ρ i j → Sim ρ heap heap' (body i) (body' j) Finding.Twin) :
    Sim ρ heap heap' (HeapAction.withHandle v body) (HeapAction.withHandle w body')
      Finding.Twin := by
  cases hv with
  | object hp => exact h _ _ hp
  | _ => exact .pure T .refused

theorem mapRead_sim (T : Twins ρ heap heap') {v w : Value} (hv : v.Twin ρ w)
    {read read' : Heap → Table Value Value → Except Fault (Option Value)}
    (h : ∀ t u, Table.Twin (Value.Twin ρ) (Value.Twin ρ) t u →
      Agree (Option.Rel (Value.Twin ρ)) (read heap t) (read' heap' u)) :
    Sim ρ heap heap'
      (do
        let heap ← get
        match ← heap.asMap v with
        | some table => return .option (← read heap table)
        | none => return .refused)
      (do
        let heap ← get
        match ← heap.asMap w with
        | some table => return .option (← read' heap table)
        | none => return .refused) Finding.Twin := by
  refine .get (.read (T.asMap hv) fun t? u? htu => ?_)
  cases htu with
  | none => exact .pure T .refused
  | some ht => exact .read (h _ _ ht) fun x y hxy => .pure T (.option hxy)

theorem anchor_sim (T : Twins ρ heap heap') (roots pins roots' pins' : List Handle) :
    Sim ρ heap heap'
      (do
        set ({ heap with roots := roots, pins := pins } : Heap)
        return .nothing)
      (do
        set ({ heap' with roots := roots', pins := pins' } : Heap)
        return .nothing) Finding.Twin :=
  (Sim.set (T.anchor roots pins roots' pins')).map fun _ _ _ _ _ => .nothing

theorem map_twin {κ : Type} {f g : κ → Value} (hfg : ∀ x, (f x).Twin ρ (g x)) (l : List κ) :
    List.Forall₂ (Value.Twin ρ) (l.map f) (l.map g) := by
  induction l with
  | nil => exact .nil
  | cons x l ih => exact .cons (hfg x) ih

theorem owner_twin {κ : Type} {f g : κ → Value} (hfg : ∀ x, (f x).Twin ρ (g x)) (x : Option κ) :
    Option.Rel (Paired ρ) ((x.map f).bind Value.handle?) ((x.map g).bind Value.handle?) := by
  cases x with
  | none => exact .none
  | some x => exact (hfg x).handle?

theorem newGlobals_twin {κ : Type} {f g : κ → Value} (hfg : ∀ x, (f x).Twin ρ (g x))
    (l : List (String × κ)) :
    GlobalsTwin ρ ((l.map fun (name, x) => (name, f x)).map fun (name, v) => ⟨name, v⟩)
      ((l.map fun (name, x) => (name, g x)).map fun (name, v) => ⟨name, v⟩) := by
  induction l with
  | nil => exact .nil
  | cons entry l ih => exact .cons ⟨rfl, hfg entry.2⟩ ih

/-- The runs of an action end alike, whatever stands for its operands, as long as that agrees. -/
theorem HeapAction.sim {κ : Type} (T : Twins ρ heap heap') (a : HeapAction κ) {f g : κ → Value}
    (hfg : ∀ x, (f x).Twin ρ (g x)) :
    Sim ρ heap heap' (a.map f).perform (a.map g).perform Finding.Twin := by
  have hnew : ∀ o p : Object, o.Twin ρ p → Sim ρ heap heap' (do return .value (← newObject o))
      (do return .value (← newObject p)) Finding.Twin :=
    fun o p hop => (Sim.newObject T hop).map fun _ _ _ _ hv => .value hv
  cases a with
  | newString bytes => exact hnew _ _ (.string _)
  | newList elements => exact hnew _ _ (.list (map_twin hfg elements))
  | newMap => exact hnew _ _ (.map Table.empty_twin)
  | newRange start stop => exact hnew _ _ (.range start stop)
  | newForeign kind tag => exact hnew _ _ (.foreign _)
  | newFunction name owner arity body => exact hnew _ _ (.function (owner_twin hfg owner))
  | newScript name functions globals =>
    refine hnew _ _ (.script ?_ ?_)
    · exact List.rel_filterMap (fun _ _ hv => hv.handle?) (map_twin hfg functions)
    · exact newGlobals_twin hfg globals
  | newFiber stack function =>
    exact hnew _ _ (.fiber (map_twin hfg stack) (owner_twin hfg function))
  | listPush list element =>
    refine (listPush_sim T (hfg list) (hfg element)).map fun _ b b' _ heq => ?_
    subst heq
    exact .flag b
  | listPop list => exact (listPop_sim T (hfg list)).map fun _ _ _ _ hv => .option hv
  | mapSet map key value =>
    exact withHandle_sim T (hfg map) fun i j hp =>
      (mapSet_sim T hp (hfg key) (hfg value)).map fun _ _ _ _ _ => .nothing
  | mapGet map key => exact mapRead_sim T (hfg map) fun t u ht => T.lookup ht (hfg key)
  | mapGetBytes map bytes => exact mapRead_sim T (hfg map) fun t u ht => T.lookupBytes ht bytes
  | mapRemove map key =>
    exact withHandle_sim T (hfg map) fun i j hp =>
      (mapRemove_sim T hp (hfg key)).map fun _ _ _ _ hv => .option hv
  | binary operator left right =>
    exact (evaluate_sim T operator (hfg left) (hfg right)).map fun _ _ _ _ hv => .value hv
  | getAttribute receiver name =>
    exact (Sim.get (getAttribute_sim T (hfg receiver) name)).map fun _ _ _ _ hv => .value hv
  | setAttribute receiver name value =>
    exact (setAttribute_sim T (hfg receiver) (hfg value) name).map fun _ _ _ _ _ => .nothing
  | getSubscript receiver key =>
    exact (getSubscript_sim T (hfg receiver) (hfg key)).map fun _ _ _ _ hv => .value hv
  | setSubscript receiver key value =>
    exact (setSubscript_sim T (hfg receiver) (hfg key) (hfg value)).map fun _ _ _ _ _ => .nothing
  | iterate container state =>
    exact (iterate_sim T (hfg container) (hfg state)).map fun _ _ _ _ hs => .step hs
  | render value quoted =>
    refine .get (.read (T.render (hfg value) quoted) fun text text' heq => ?_)
    subst heq
    exact .pure T (.text text)
  | typeName value =>
    refine .get (.read (T.typeName (hfg value)) fun text text' heq => ?_)
    subst heq
    exact .pure T (.text text)
  | hash value =>
    refine .get (.read (T.hashOf (hfg value)) fun hash hash' heq => ?_)
    subst heq
    exact .pure T (.hash hash)
  | equal left right =>
    refine .get (.read (T.equal (hfg left) (hfg right)) fun b b' heq => ?_)
    subst heq
    exact .pure T (.flag b)
  | addRoot value => exact withHandle_sim T (hfg value) fun i j _ => .get (anchor_sim T _ _ _ _)
  | removeRoot value => exact withHandle_sim T (hfg value) fun i j _ => .get (anchor_sim T _ _ _ _)
  | pin values => exact .get (anchor_sim T _ _ _ _)
  | release depth => exact .get (anchor_sim T _ _ _ _)
  | collect => exact fun hearly hearly' =>
      ⟨ρ, List.Subset.refl ρ, T.collect hearly hearly', .nothing⟩

end ScriptMachine
