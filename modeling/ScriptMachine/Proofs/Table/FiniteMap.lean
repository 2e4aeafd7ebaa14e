import Mathlib.Data.List.Nodup
import ScriptMachine.Proofs.Table.Probing

/-!
# Tables as finite maps

A table does not know when two keys are the same. Whoever uses it brings a reading of keys: what a
stored key stands for, and the hash that goes with what it stands for. Under such a reading a
well-formed table is a finite map, and its operations are those of finite maps. What is bound is
the stored key together with the value, because a key that is written again keeps its first form.

Main definitions:
- `Represents`: the table stands for a map from what keys stand for to stored keys and values.

Results:
1. `Represents.find?_eq`: a search finds exactly what is bound.
2. `Represents.setValueAt`, `Represents.insertNew`, `Represents.removeAt`: updates.
3. `Represents.exists_keys`: the entries are the bindings, each of them once.
-/

namespace ScriptMachine.Table

variable {κ ν K : Type}

/-- Under the reading `keyOf` and `hashOf` of keys, the table stands for the map `f`. -/
structure Represents (keyOf : κ → Option K) (hashOf : K → UInt32) (t : Table κ ν)
    (f : K → Option (κ × ν)) : Prop where
  wellFormed : t.WellFormed
  /-- Every entry is a binding, stored under the right hash. -/
  bound : ∀ key value hash, (key, value, hash) ∈ t.records →
    ∃ k, keyOf key = some k ∧ hash = hashOf k ∧ f k = some (key, value)
  /-- No two entries stand for one binding. -/
  nodup : (t.records.map fun r => keyOf r.1).Nodup
  /-- Every binding is an entry. -/
  stored : ∀ k key value, f k = some (key, value) →
    keyOf key = some k ∧ (key, value, hashOf k) ∈ t.records

variable {keyOf : κ → Option K} {hashOf : K → UInt32} {t : Table κ ν} {f : K → Option (κ × ν)}

theorem empty_represents : (empty : Table κ ν).Represents keyOf hashOf fun _ => none where
  wellFormed := empty_wellFormed
  bound := by
    intro key value hash hm
    simp [records, slotRecords, empty] at hm
  nodup := by simp [records, slotRecords, empty]
  stored := by simp

/-- Another reading of keys that agrees on those in the table will do as well. -/
theorem Represents.congr {keyOf' : κ → Option K} (hr : t.Represents keyOf hashOf f)
    (hk : ∀ r ∈ t.records, keyOf' r.1 = keyOf r.1) : t.Represents keyOf' hashOf f where
  wellFormed := hr.wellFormed
  bound := by
    intro key value hash hm
    obtain ⟨k, hkey, hrest⟩ := hr.bound key value hash hm
    exact ⟨k, (hk _ hm).trans hkey, hrest⟩
  nodup := by
    have hmap : t.records.map (fun r => keyOf' r.1) = t.records.map fun r => keyOf r.1 :=
      List.map_congr_left hk
    rw [hmap]
    exact hr.nodup
  stored := by
    intro k key value hf
    obtain ⟨hkey, hm⟩ := hr.stored k key value hf
    exact ⟨(hk _ hm).trans hkey, hm⟩

/-! ## 1. Searching -/

/-- Two entries that stand for the same are one. -/
theorem Represents.eq_of_keyOf (hr : t.Represents keyOf hashOf f) {key : κ} {value : ν}
    {hash : UInt32} {k : K} (hm : (key, value, hash) ∈ t.records) (hk : keyOf key = some k) :
    hash = hashOf k ∧ f k = some (key, value) := by
  obtain ⟨j, hj, hrest⟩ := hr.bound key value hash hm
  rw [hk] at hj
  cases hj
  exact hrest

section Operations

variable [DecidableEq K]

/-- A search for `k` fails if nothing is bound to it, and else finds the slot of the binding. -/
theorem Represents.find?_eq (hr : t.Represents keyOf hashOf f) (k : K) :
    (f k = none ∧ t.find? (hashOf k) (fun c => decide (keyOf c = some k)) = none) ∨
    ∃ i key value, f k = some (key, value) ∧
      t.find? (hashOf k) (fun c => decide (keyOf c = some k)) = some i ∧
      t.slots[i]? = some (.occupied key value (hashOf k)) := by
  cases hfind : t.find? (hashOf k) (fun c => decide (keyOf c = some k)) with
  | none =>
    refine .inl ⟨?_, rfl⟩
    cases hf : f k with
    | none => rfl
    | some b =>
      obtain ⟨key, value⟩ := b
      obtain ⟨hkey, hm⟩ := hr.stored k key value hf
      obtain ⟨i, hi⟩ := mem_slotRecords.mp hm
      have hne := find?_eq_none hr.wellFormed.paths hfind hi
      simp [hkey] at hne
  | some i =>
    obtain ⟨key, value, hi, htest⟩ := find?_eq_some hfind
    have hkey : keyOf key = some k := of_decide_eq_true htest
    have hf := (hr.eq_of_keyOf (mem_slotRecords.mpr ⟨i, hi⟩) hkey).2
    exact .inr ⟨i, key, value, hf, rfl, hi⟩

/-- The value of a search is the value bound. -/
theorem Represents.valueAt?_find? (hr : t.Represents keyOf hashOf f) (k : K) :
    (t.find? (hashOf k) fun c => decide (keyOf c = some k)).bind t.valueAt? =
      (f k).map (·.2) := by
  rcases hr.find?_eq k with ⟨hf, hn⟩ | ⟨i, key, value, hf, hs, hi⟩
  · rw [hf, hn]
    rfl
  · rw [hf, hs]
    exact valueAt?_eq_some_iff.mpr ⟨key, _, hi⟩

/-! ## 2. Updates -/

/-- The map with `k` bound to `b`, or not at all. -/
def rebind (f : K → Option (κ × ν)) (k : K) (b : Option (κ × ν)) : K → Option (κ × ν) :=
  fun j => if j = k then b else f j

theorem Represents.insertNew (hr : t.Represents keyOf hashOf f) {key : κ} {k : K}
    (hk : keyOf key = some k) (hf : f k = none) (value : ν) :
    (t.insertNew key (hashOf k) value).Represents keyOf hashOf
      (rebind f k (some (key, value))) := by
  have hperm := insertNew_records hr.wellFormed key (hashOf k) value
  -- Nothing in the table stands for `k` yet.
  have hfresh : ∀ r ∈ t.records, keyOf r.1 ≠ some k := by
    intro r hm hrk
    have hbound := (hr.eq_of_keyOf hm hrk).2
    rw [hf] at hbound
    cases hbound
  refine ⟨insertNew_wellFormed hr.wellFormed _ _ _, fun c v hash hm => ?_, ?_, fun j c v hj => ?_⟩
  · rcases List.mem_cons.mp (hperm.mem_iff.mp hm) with heq | hold
    · cases heq
      exact ⟨k, hk, rfl, by simp [rebind]⟩
    · obtain ⟨j, hj, hhash, hbound⟩ := hr.bound c v hash hold
      have hne : j ≠ k := by
        rintro rfl
        exact hfresh _ hold hj
      exact ⟨j, hj, hhash, by simp [rebind, hne, hbound]⟩
  · refine (hperm.map _).nodup_iff.mpr ?_
    rw [List.map_cons, List.nodup_cons]
    refine ⟨fun hm => ?_, hr.nodup⟩
    obtain ⟨r, hr', heq⟩ := List.mem_map.mp hm
    exact hfresh r hr' (heq.trans hk)
  · unfold rebind at hj
    split at hj
    · next hjk =>
      cases hj
      subst hjk
      exact ⟨hk, hperm.mem_iff.mpr List.mem_cons_self⟩
    · obtain ⟨hkey, hm⟩ := hr.stored j c v hj
      exact ⟨hkey, hperm.mem_iff.mpr (List.mem_cons_of_mem _ hm)⟩

/-- An entry gives way to one with another value, or to none, and the others stay. -/
theorem Represents.replace (hr : t.Represents keyOf hashOf f) {key : κ} {value : ν} {k : K}
    (hf : f k = some (key, value)) {rest : List (κ × ν × UInt32)}
    (hperm : ((key, value, hashOf k) :: rest).Perm t.records) {t' : Table κ ν}
    (hw : t'.WellFormed) (new : Option ν)
    (hnew : t'.records.Perm ((new.map fun v => (key, v, hashOf k)).toList ++ rest)) :
    t'.Represents keyOf hashOf (rebind f k (new.map fun v => (key, v))) := by
  have hkey : keyOf key = some k := (hr.stored k key value hf).1
  have hnodup : (((key, value, hashOf k) :: rest).map fun r => keyOf r.1).Nodup :=
    (hperm.map _).nodup_iff.mpr hr.nodup
  rw [List.map_cons, List.nodup_cons] at hnodup
  have hne : ∀ r ∈ rest, keyOf r.1 ≠ some k := by
    intro r hm heq
    exact hnodup.1 (List.mem_map.mpr ⟨r, hm, heq.trans hkey.symm⟩)
  have hmem : ∀ r, r ∈ t'.records ↔ (∃ v, new = some v ∧ r = (key, v, hashOf k)) ∨ r ∈ rest := by
    intro r
    rw [hnew.mem_iff, List.mem_append]
    cases new <;> simp
  refine ⟨hw, fun c v hash hm => ?_, ?_, fun j c v hj => ?_⟩
  · rcases (hmem _).mp hm with ⟨w, rfl, heq⟩ | hold
    · cases heq
      exact ⟨k, hkey, rfl, by simp [rebind]⟩
    · obtain ⟨j, hj, hhash, hbound⟩ :=
        hr.bound c v hash (hperm.mem_iff.mp (List.mem_cons_of_mem _ hold))
      have hjk : j ≠ k := by
        rintro rfl
        exact hne _ hold hj
      exact ⟨j, hj, hhash, by simp [rebind, hjk, hbound]⟩
  · refine (hnew.map _).nodup_iff.mpr ?_
    cases new with
    | none => exact hnodup.2
    | some v => exact List.nodup_cons.mpr hnodup
  · unfold rebind at hj
    split at hj
    · next hjk =>
      subst hjk
      cases new with
      | none => cases hj
      | some w =>
        obtain ⟨rfl, rfl⟩ : key = c ∧ w = v := by simpa using hj
        exact ⟨hkey, (hmem _).mpr (.inl ⟨w, rfl, rfl⟩)⟩
    · next hjk =>
      obtain ⟨hc, hm⟩ := hr.stored j c v hj
      refine ⟨hc, (hmem _).mpr (.inr ?_)⟩
      rcases List.mem_cons.mp (hperm.mem_iff.mpr hm) with heq | hold
      · have hfst : c = key := congrArg Prod.fst heq
        rw [hfst, hkey] at hc
        exact absurd (Option.some.inj hc).symm hjk
      · exact hold

theorem Represents.setValueAt (hr : t.Represents keyOf hashOf f) {i : Nat} {key : κ} {old : ν}
    {k : K} (hf : f k = some (key, old)) (hi : t.slots[i]? = some (.occupied key old (hashOf k)))
    (value : ν) :
    (t.setValueAt i value).Represents keyOf hashOf (rebind f k (some (key, value))) := by
  obtain ⟨a, b, hab⟩ := List.append_of_mem (mem_slotRecords.mpr ⟨i, hi⟩)
  have hperm : ((key, old, hashOf k) :: (a ++ b)).Perm t.records := by
    rw [records, hab]
    exact List.perm_middle.symm
  have hswap : ((key, old, hashOf k) :: (t.setValueAt i value).records).Perm
      ((key, old, hashOf k) :: (key, value, hashOf k) :: (a ++ b)) :=
    ((setValueAt_records hi value).trans (hperm.symm.cons _)).trans (List.Perm.swap _ _ _)
  exact hr.replace hf hperm (setValueAt_wellFormed hr.wellFormed i value) (some value)
    hswap.cons_inv

theorem Represents.removeAt (hr : t.Represents keyOf hashOf f) {i : Nat} {key : κ} {value : ν}
    {k : K} (hf : f k = some (key, value))
    (hi : t.slots[i]? = some (.occupied key value (hashOf k))) :
    (t.removeAt i).2.Represents keyOf hashOf (rebind f k none) :=
  hr.replace hf (removeAt_records hi) (removeAt_wellFormed hr.wellFormed i) none (.refl _)

end Operations

/-! ## 3. All entries -/

theorem map_some_filterMap {α β : Type} {g : α → Option β} {l : List α}
    (h : ∀ a ∈ l, ∃ b, g a = some b) : (l.filterMap g).map some = l.map g := by
  induction l with
  | nil => rfl
  | cons a l ih =>
    obtain ⟨b, hb⟩ := h a List.mem_cons_self
    rw [List.filterMap_cons, hb, List.map_cons, List.map_cons, hb,
      ih fun x hx => h x (List.mem_cons_of_mem _ hx)]

/-- The entries stand for what is bound, each once, and there are as many as the table counts. -/
theorem Represents.exists_keys (hr : t.Represents keyOf hashOf f) :
    ∃ keys : List K, (t.entries.map fun e => keyOf e.1) = keys.map some ∧ keys.Nodup ∧
      (∀ k, k ∈ keys ↔ (f k).isSome = true) ∧ t.count = keys.length := by
  have hsome : ∀ r ∈ t.records, ∃ k, keyOf r.1 = some k := by
    intro r hm
    obtain ⟨k, hk, -⟩ := hr.bound r.1 r.2.1 r.2.2 hm
    exact ⟨k, hk⟩
  have hmap := map_some_filterMap hsome
  refine ⟨t.records.filterMap fun r => keyOf r.1, ?_, ?_, fun k => ?_, ?_⟩
  · rw [hmap, entries_eq_map, List.map_map]
    rfl
  · have hnodup := hr.nodup
    rw [← hmap] at hnodup
    exact List.Nodup.of_map _ hnodup
  · rw [List.mem_filterMap]
    constructor
    · rintro ⟨r, hm, hk⟩
      rw [(hr.eq_of_keyOf hm hk).2]
      rfl
    · intro hs
      obtain ⟨⟨key, value⟩, hf⟩ := Option.isSome_iff_exists.mp hs
      obtain ⟨hkey, hm⟩ := hr.stored k key value hf
      exact ⟨_, hm, hkey⟩
  · have hlen := congrArg List.length hmap
    rw [List.length_map, List.length_map] at hlen
    rw [hr.wellFormed.count_eq_length, hlen]

end ScriptMachine.Table
