import Mathlib.Algebra.Group.Nat.Defs
import Mathlib.Data.List.Infix
import Mathlib.Data.List.Induction
import Mathlib.Data.Nat.Log
import ScriptMachine.Proofs.Table.Writes

/-!
# The capacity of a table under churn

A tombstone counts toward the load that sets off a rebuild and not toward the size of the circle
that the rebuild makes. So a table whose entries come and go is rebuilt again and again, and it is
never larger than the most entries it had at one time call for, however many writes went by.

Main definition:
- `capacityFor`: the capacity that a number of entries calls for.

Results:
1. `powerAtLeast_eq`: the rounding is to the least power of two.
2. `Write.capacity_apply`: a write keeps the capacity, or makes it what the entries it leaves call
   for.
3. `capacity_ofWrites_le`: no capacity on the way is more than the peak of the entries calls for.
-/

namespace ScriptMachine.Table

variable {κ ν : Type}

/-! ## 1. The size of a rebuild -/

/-- The exponent is the least whose power of two is at least `n`. -/
theorem powerAtLeast_eq (n : Nat) : powerAtLeast n = 2 ^ Nat.clog 2 n := by
  unfold powerAtLeast
  split
  · next hn => rw [Nat.clog_of_right_le_one hn, Nat.pow_zero]
  · next hn =>
    obtain ⟨m, rfl⟩ : ∃ m, n = m + 1 := ⟨n - 1, by omega⟩
    have hm : m ≠ 0 := by omega
    rw [Nat.one_shiftLeft, Nat.add_sub_cancel]
    refine congrArg (2 ^ ·) (Nat.le_antisymm ?_ (Nat.clog_le_of_le_pow Nat.lt_log2_self))
    -- A power of two that is at least `m + 1` is more than `m`, and so than the one below `m`.
    have hpow : 2 ^ m.log2 < 2 ^ Nat.clog 2 (m + 1) := calc
      2 ^ m.log2 ≤ m := Nat.log2_self_le hm
      _ < m + 1 := Nat.lt_succ_self m
      _ ≤ 2 ^ Nat.clog 2 (m + 1) := Nat.le_pow_clog Nat.one_lt_two _
    exact (Nat.pow_lt_pow_iff_right Nat.one_lt_two).mp hpow

/-- The capacity that `entries` entries call for: the least power of two that keeps them below the
limit of the load, and not less than the least capacity there is. -/
def capacityFor (entries : Nat) : Nat :=
  max 8 (2 ^ Nat.clog 2 (entries * 100 / 75 + 1))

theorem capacityFor_mono {m n : Nat} (h : m ≤ n) : capacityFor m ≤ capacityFor n := by
  have hshare : m * 100 / 75 + 1 ≤ n * 100 / 75 + 1 :=
    Nat.add_le_add_right (Nat.div_le_div_right (Nat.mul_le_mul_right 100 h)) 1
  have hpow : 2 ^ Nat.clog 2 (m * 100 / 75 + 1) ≤ 2 ^ Nat.clog 2 (n * 100 / 75 + 1) :=
    Nat.pow_le_pow_right Nat.two_pos (Nat.clog_mono_right 2 hshare)
  exact Nat.max_le.mpr ⟨Nat.le_max_left _ _, hpow.trans (Nat.le_max_right _ _)⟩

theorem roomyCapacity_eq (count : Nat) : roomyCapacity count = capacityFor (count + 1) := by
  rw [roomyCapacity, powerAtLeast_eq, max_comm]
  rfl

/-! ## 2. One write -/

theorem reserveOne_count (t : Table κ ν) : t.reserveOne.count = t.count := by
  unfold reserveOne
  split <;> rfl

theorem reserveOne_capacity {t : Table κ ν} (hw : t.WellFormed) :
    t.reserveOne.capacity = t.capacity ∨ t.reserveOne.capacity = capacityFor (t.count + 1) := by
  unfold reserveOne
  split
  · exact .inl rfl
  · exact .inr ((rehash_spec hw).2.2.trans (roomyCapacity_eq t.count))

theorem insertNew_capacity {t : Table κ ν} (hw : t.WellFormed) (key : κ) (hash : UInt32)
    (value : ν) : (t.insertNew key hash value).capacity = t.reserveOne.capacity := by
  obtain ⟨i, slot, -, -, -, heq⟩ := insertNew_cases hw key hash value
  rw [heq, capacity, capacity, Array.size_setIfInBounds]

theorem insertNew_count {t : Table κ ν} (hw : t.WellFormed) (key : κ) (hash : UInt32) (value : ν) :
    (t.insertNew key hash value).count = t.count + 1 := by
  obtain ⟨i, slot, -, -, -, heq⟩ := insertNew_cases hw key hash value
  rw [heq, reserveOne_count]

theorem setValueAt_capacity (t : Table κ ν) (i : Nat) (value : ν) :
    (t.setValueAt i value).capacity = t.capacity := by
  unfold setValueAt
  split
  · exact Array.size_setIfInBounds
  · rfl

theorem removeAt_capacity (t : Table κ ν) (i : Nat) :
    (t.removeAt i).2.capacity = t.capacity := by
  unfold removeAt
  split
  · rfl
  · exact Array.size_setIfInBounds

/-- What a write can do to the capacity. Only an insertion rebuilds, and the entry it adds is one
of those that the rebuild makes room for. -/
theorem Write.capacity_apply {t : Table κ ν} (hw : t.WellFormed) (w : Write κ ν) :
    (w.apply t).capacity = t.capacity ∨ (w.apply t).capacity = capacityFor (w.apply t).count := by
  cases w with
  | insertNew key hash value =>
    show (t.insertNew key hash value).capacity = _ ∨
      (t.insertNew key hash value).capacity = capacityFor (t.insertNew key hash value).count
    rw [insertNew_capacity hw, insertNew_count hw]
    exact reserveOne_capacity hw
  | setValueAt index value => exact .inl (setValueAt_capacity t index value)
  | removeAt index => exact .inl (removeAt_capacity t index)

/-! ## 3. Any writes -/

theorem WellFormed.count_eq_entries {t : Table κ ν} (hw : t.WellFormed) :
    t.count = t.entries.length := by
  rw [hw.count_eq_length, entries_eq_map, List.length_map]

theorem ofWrites_concat (writes : List (Write κ ν)) (w : Write κ ν) :
    ofWrites (writes ++ [w]) = w.apply (ofWrites writes) := by
  simp [ofWrites]

/-- The induction is on the writes from their end: the last one keeps a capacity that was within
the bound, or makes it what the entries of this moment call for. -/
theorem capacity_ofWrites_le_capacityFor {peak : Nat} {writes : List (Write κ ν)}
    (hp : ∀ earlier, earlier <+: writes → (ofWrites earlier).entries.length ≤ peak) :
    (ofWrites writes).capacity ≤ capacityFor peak := by
  induction writes using List.reverseRecOn with
  | nil => exact Nat.zero_le _
  | append_singleton writes w ih =>
    have hbefore : (ofWrites writes).capacity ≤ capacityFor peak :=
      ih fun earlier he => hp earlier (he.trans (List.prefix_append writes [w]))
    have hentries := hp (writes ++ [w]) List.prefix_rfl
    rw [← (ofWrites_wellFormed (writes ++ [w])).count_eq_entries] at hentries
    rw [ofWrites_concat] at hentries ⊢
    rcases w.capacity_apply (ofWrites_wellFormed writes) with hkept | hrebuilt
    · rw [hkept]
      exact hbefore
    · rw [hrebuilt]
      exact capacityFor_mono hentries

/-- A table that never has more than `peak` entries at a time never has more slots than `peak`
entries call for: three quarters of them would hold `peak`, up to the next power of two. -/
theorem capacity_ofWrites_le {peak : Nat} {writes : List (Write κ ν)}
    (hp : ∀ earlier, earlier <+: writes → (ofWrites earlier).entries.length ≤ peak) :
    ∀ earlier, earlier <+: writes →
      (ofWrites earlier).capacity ≤ max 8 (2 ^ Nat.clog 2 (peak * 100 / 75 + 1)) :=
  fun _ he => capacity_ofWrites_le_capacityFor fun first hf => hp first (hf.trans he)

/-- Six entries, then three times the entry at slot 0 goes and comes. -/
def churn : List (Write Nat Nat) :=
  (List.range 6).map (fun i => .insertNew i i.toUInt32 0) ++
    (List.replicate 3 [.removeAt 0, .setValueAt 1 7, .insertNew 0 0 0]).flatten

/-- Six entries call for sixteen slots, and the churn of one of them does lead to sixteen: the
first six writes make do with eight. -/
theorem capacity_churn_le :
    (∀ earlier, earlier <+: churn → (ofWrites earlier).entries.length ≤ 6) ∧
      (∀ earlier, earlier <+: churn →
        (ofWrites earlier).capacity ≤ max 8 (2 ^ Nat.clog 2 (6 * 100 / 75 + 1))) ∧
      (ofWrites (churn.take 6)).capacity = 8 ∧
      (ofWrites churn).capacity = max 8 (2 ^ Nat.clog 2 (6 * 100 / 75 + 1)) := by
  have hp : ∀ earlier, earlier <+: churn → (ofWrites earlier).entries.length ≤ 6 := by
    have hall : ∀ earlier ∈ churn.inits, (ofWrites earlier).entries.length ≤ 6 := by
      decide +kernel
    exact fun earlier he => hall earlier ((List.mem_inits earlier churn).mpr he)
  refine ⟨hp, capacity_ofWrites_le hp, by decide +kernel, ?_⟩
  rw [← powerAtLeast_eq]
  decide +kernel

end ScriptMachine.Table
