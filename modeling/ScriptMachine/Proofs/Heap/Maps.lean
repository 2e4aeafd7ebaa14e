import ScriptMachine.Proofs.Heap.Closed
import ScriptMachine.Proofs.Heap.MapRun
import ScriptMachine.Proofs.Heap.Tenure

/-!
# Every map of a run

`MapRun` follows one map from its creation. Here nothing is known of a map but that a run led to
it: whatever was done before, to this map or to others, and whether it worked or not, its keys are
keys and no two of them are the same. What it takes is that a host hands in no table of its own
making: maps enter the heap without entries.

Main definitions:
- `Heap.MapsProper`: every map is a finite map.
- `HeapOp.MapsEmpty`: the condition on hosts.

Results:
1. `HeapAction.mapWritten`: an action that may write a map leaves it a finite map.
2. `HeapOp.get?_new_map`: a map that was not there before is empty.
3. `Reachable.mapsProper`: so are all maps that a run leads to, and
   `Table.Represents.keys_distinct`: the keys of such a map are different keys.
-/

namespace ScriptMachine

/-- Every map stands for some finite map. -/
def Heap.MapsProper (heap : Heap) : Prop :=
  ∀ m table, heap.get? m = some (.map table) → ∃ f, table.Represents heap.keyOf? Key.hash f

/-- A map that the operation allocates has no entries yet. -/
def HeapOp.MapsEmpty (op : HeapOp) : Prop :=
  ∀ table, op = .alloc (.map table) → table = .empty

/-! ## 1. Maps that are written -/

/-- The object of the handle is a finite map. -/
def Heap.ProperAt (heap : Heap) (m : Handle) : Prop :=
  ∃ table f, heap.get? m = some (.map table) ∧ table.Represents heap.keyOf? Key.hash f

section Written

variable {heap : Heap} {m : Handle}

theorem mapSet_written (hp : heap.ProperAt m) (key value : Value) :
    Ends (mapSet m key value) heap (.always fun after => after.ProperAt m) := by
  obtain ⟨table, f, hm, hr⟩ := hp
  have hsame : heap.ProperAt m := ⟨table, f, hm, hr⟩
  by_cases hk : ∃ k, heap.keyOf? key = some k
  · obtain ⟨k, hk⟩ := hk
    refine (Heap.mapSet_returns hm hr hk value).mono (fun _ after h => ?_)
      (fun _ _ h => h.elim) fun _ _ h => h.elim
    obtain ⟨table', hm', hr'⟩ := h
    exact ⟨table', _, hm', hr'⟩
  · -- What is no key is refused before anything is written.
    refine .get (.read_ok (Heap.get_eq_ok_iff.mpr hm) (.read (fun hash? hhash => ?_)
      fun _ _ => hsame))
    cases hash? with
    | none => exact .read (fun _ _ => .throw hsame) fun _ _ => hsame
    | some hash =>
      obtain ⟨k, hkey, -⟩ := Heap.hashOf_eq_some_iff.mp hhash
      exact absurd ⟨k, hkey⟩ hk

theorem mapRemove_written (hp : heap.ProperAt m) (key : Value) :
    Ends (mapRemove m key) heap (.always fun after => after.ProperAt m) := by
  obtain ⟨table, f, hm, hr⟩ := hp
  have hsame : heap.ProperAt m := ⟨table, f, hm, hr⟩
  by_cases hk : ∃ k, heap.keyOf? key = some k
  · obtain ⟨k, hk⟩ := hk
    refine (Heap.mapRemove_returns hm hr hk).mono (fun _ after h => ?_)
      (fun _ _ h => h.elim) fun _ _ h => h.elim
    obtain ⟨-, table', hm', hr'⟩ := h
    exact ⟨table', _, hm', hr'⟩
  · refine .get (.read (fun hash? hhash => ?_) fun _ _ => hsame)
    cases hash? with
    | none => exact .pure hsame
    | some hash =>
      obtain ⟨k, hkey, -⟩ := Heap.hashOf_eq_some_iff.mp hhash
      exact absurd ⟨k, hkey⟩ hk

theorem Ends.andThen_always {α β : Type} {x : HeapM α} {P : Heap → Prop}
    (h : Ends x heap (.always P)) (f : α → β) : Ends (do return f (← x)) heap (.always P) :=
  .bind (h.mono (fun _ _ ha => .pure ha) (fun _ _ ha => ha) fun _ _ ha => ha)

/-- Of the actions that may write an object, two write a map, one of them under two names. The
others find that it is no container of theirs. -/
theorem HeapAction.mapWritten {a : HeapAction Value} (hp : heap.ProperAt m)
    (ha : a.receiver? = some (.object m)) :
    Ends a.perform heap (.always fun after => after.ProperAt m) := by
  obtain ⟨table, f, hm, hr⟩ := hp
  have hsame : heap.ProperAt m := ⟨table, f, hm, hr⟩
  have hget : heap.get m = .ok (.map table) := Heap.get_eq_ok_iff.mpr hm
  cases a with
  | listPush list element =>
    cases ha
    refine Ends.andThen_always (.get (.read_ok hget ?_)) _
    exact .pure hsame
  | listPop list =>
    cases ha
    refine Ends.andThen_always (.get (.read_ok hget ?_)) _
    exact .pure hsame
  | mapSet map key value =>
    cases ha
    exact (mapSet_written hsame key value).andThen_always fun _ => Finding.nothing
  | mapRemove map key =>
    cases ha
    exact (mapRemove_written hsame key).andThen_always _
  | setAttribute receiver name value =>
    cases ha
    refine Ends.andThen_always ?_ fun _ => Finding.nothing
    exact .get (.read_ok hget (.throw hsame))
  | setSubscript receiver key value =>
    cases ha
    refine Ends.andThen_always ?_ fun _ => Finding.nothing
    exact .get (.read_ok hget (mapSet_written hsame key value))
  | _ => cases ha

end Written

/-! ## 2. Maps that are new -/

theorem Change.get?_new_map {given : List Handle} {target : Option Handle} {heap after : Heap}
    (hch : Change given target heap after) (ht : heap.Tidy) {h : Handle}
    {table : Table Value Value} (hnew : heap.get? h = Option.none)
    (hget : after.get? h = some (.map table)) : table = .empty := by
  -- Where an object is written, one was there.
  have hwrite : ∀ {k : Handle} {p p' : Object}, heap.get? k = some p →
      (heap.replace k p').get? h ≠ some (.map table) := by
    intro k p p' hp hc
    rw [Heap.get?_replace hp] at hc
    split at hc
    · next hk =>
      subst hk
      rw [hnew] at hp
      cases hp
    · rw [hnew] at hc
      cases hc
  cases hch with
  | none =>
    rw [hnew] at hget
    cases hget
  | alloc o _ hempty =>
    rcases Heap.get?_of_alloc ht hget with ⟨-, ho⟩ | hold
    · exact hempty table ho.symm
    · rw [hnew] at hold
      cases hold
  | write _ hp _ => exact absurd hget (hwrite hp)
  | writeMeasured _ hp _ =>
    rw [Heap.get?_remeasure] at hget
    exact absurd hget (hwrite hp)
  | anchor roots pins =>
    cases hnew.symm.trans hget
  | collect =>
    rw [((Heap.get?_collect ht).mp hget).1] at hnew
    cases hnew

/-- A map that was not there before an operation has no entries. -/
theorem HeapOp.get?_new_map {op : HeapOp} {heap : Heap} (ht : heap.Tidy) (hop : op.MapsEmpty)
    {h : Handle} {table : Table Value Value} (hnew : heap.get? h = none)
    (hget : (op.after heap).get? h = some (.map table)) : table = .empty := by
  rcases op.after_cases heap with ⟨a, rfl, hch⟩ | ⟨o, rfl, ha⟩ |
    ⟨k, o', rfl, ha | ⟨o, ho, -, ha⟩⟩ | ⟨k, rfl, ha⟩
  · exact hch.get?_new_map ht hnew hget
  · rw [ha] at hget
    rcases Heap.get?_of_alloc ht hget with ⟨-, ho⟩ | hold
    · exact hop table (by rw [ho])
    · rw [hnew] at hold
      cases hold
  · rw [ha, hnew] at hget
    cases hget
  · rw [ha, Heap.get?_replace ho] at hget
    split at hget
    · next hk =>
      subst hk
      rw [hnew] at ho
      cases ho
    · rw [hnew] at hget
      cases hget
  · rw [ha, Heap.get?_remeasure, hnew] at hget
    cases hget

/-! ## 3. All maps -/

/-- Hosts do not get hold of the inside of a map, so an operation that may write one is an
action. -/
theorem HeapOp.properAt_target {op : HeapOp} {heap : Heap} {m : Handle} (hp : heap.ProperAt m)
    (htarget : op.target? = some m) : (op.after heap).ProperAt m := by
  cases op with
  | act a =>
    obtain ⟨v, hv, hm⟩ := Option.bind_eq_some_iff.mp htarget
    rw [Value.handle?_eq_some_iff.mp hm] at hv
    exact (HeapAction.mapWritten hp hv).heapAfter
  | overwrite h o' =>
    cases htarget
    obtain ⟨table, f, hm, hr⟩ := hp
    have hkeep : (HeapOp.overwrite m o').after heap = heap := by
      have hends : Ends (HeapOp.overwrite m o').perform heap (.always (· = heap)) := by
        refine .get (.read_ok (Heap.get_eq_ok_iff.mpr hm) ?_)
        split
        · next hk =>
          obtain ⟨hopen, hkind⟩ := hk
          rw [hkind] at hopen
          cases hopen
        · exact .pure rfl
      exact hends.heapAfter
    rw [hkeep]
    exact ⟨table, f, hm, hr⟩
  | alloc o => cases htarget
  | remeasure h => cases htarget

theorem HeapOp.after_mapsProper {op : HeapOp} {heap : Heap} (ht : heap.Tidy)
    (hp : heap.MapsProper) (hop : op.MapsEmpty) : (op.after heap).MapsProper := by
  intro m table' hm'
  have hlive : (op.after heap).isLive m = true := Heap.isLive_iff.mpr ⟨_, hm'⟩
  cases hold : heap.get? m with
  | none =>
    rw [op.get?_new_map ht hop hold hm']
    exact ⟨_, Table.empty_represents⟩
  | some o =>
    by_cases htarget : op.target? = some m
    · -- The object keeps its kind, so it was a map before.
      obtain ⟨q, hq, hcase⟩ := op.inPlace ht hold hlive
      have hkind : q.kind = o.kind := hcase.elim (congrArg _) fun hw => hw.2.kind
      rw [hm'] at hq
      cases hq
      cases o with
      | map table =>
        obtain ⟨f, hr⟩ := hp m table hold
        obtain ⟨table'', f', hm'', hr'⟩ := op.properAt_target ⟨table, f, hold, hr⟩ htarget
        rw [hm'] at hm''
        cases hm''
        exact ⟨f', hr'⟩
      | _ => cases hkind
    · -- Nothing has written the object, so it was this map, and its keys live on with it.
      have hsame := op.get?_of_isLive ht hold (.inl htarget) hlive
      rw [hm'] at hsame
      cases hsame
      obtain ⟨f, hr⟩ := hp m table' hold
      exact ⟨f, HeapOp.represents ht hold hr hlive⟩

theorem Reachable.mapsProper {tuning : Tuning} {heap : Heap}
    (hr : Reachable (fun _ op => op.MapsEmpty) tuning heap) : heap.MapsProper := by
  have hboth : heap.Tidy ∧ heap.MapsProper := by
    refine hr.invariant (P := fun heap => heap.Tidy ∧ heap.MapsProper)
      ⟨Heap.empty_tidy tuning, fun m table hm => ?_⟩
      fun _ op ⟨ht, hp⟩ hop => ⟨op.after_tidy ht, op.after_mapsProper ht hp hop⟩
    rw [Heap.empty_get?] at hm
    cases hm
  exact hboth.2

/-- No two keys of a map are the same key. -/
theorem Table.Represents.keys_distinct {heap : Heap} {table : Table Value Value}
    {f : Key → Option (Value × Value)} (hr : table.Represents heap.keyOf? Key.hash f) :
    (table.entries.map (·.1)).Pairwise fun a b => heap.equal a b = .ok false := by
  have hnodup := List.pairwise_map.mp hr.nodup
  rw [Table.entries_eq_map, List.map_map, List.pairwise_map]
  refine hnodup.imp_of_mem fun {a b} ha hb hne => ?_
  obtain ⟨j, hj, -⟩ := hr.bound _ _ _ ha
  obtain ⟨k, hk, -⟩ := hr.bound _ _ _ hb
  have hjk : j ≠ k := by
    rintro rfl
    exact hne (hj.trans hk.symm)
  exact (Heap.equal_of_keyOf? hj hk).trans (by rw [decide_eq_false hjk])

end ScriptMachine
