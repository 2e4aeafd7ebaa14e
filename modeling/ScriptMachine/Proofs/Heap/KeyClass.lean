import Mathlib
import ScriptMachine.Proofs.Heap.Change
import ScriptMachine.Proofs.Number.Bits

/-!
# What a value is as a key

Values are the same key more often than they are the same: the two zeros are one key, so are all
NaNs, and so are strings with the same bytes. `Key` has one element for each key, and a value has
one of them if it can be a key at all. Hashes and comparisons then follow from it.

Main definitions:
- `Key`, `Key.hash`.
- `Heap.keyOf?`: the key that a value is.

Results:
1. `Key.ofNumber_eq_iff`: which numbers are the same key.
2. `Heap.hashOf_eq_some_iff`, `Heap.equal_of_keyOf?`: a value hashes and compares as its key.
3. `Heap.keyOf?_mono`: a value stays the key it is as long as its string stays.
-/

namespace ScriptMachine

/-- The keys of maps. Numbers that are no zero and no NaN are keys of their own. -/
inductive Key where
  | null
  | bool (b : Bool)
  | zero
  | nan
  | number (x : Double)
  | string (bytes : List UInt8)
deriving DecidableEq

namespace Key

/-- The key that a number is. -/
def ofNumber (x : Double) : Key :=
  if x == 0 then zero
  else if x.isNaN then nan
  else number x

/-- The hash of a key. -/
def hash : Key → UInt32
  | null => hashWord 1
  | bool b => hashWord (if b then 3 else 2)
  | zero => hashWord 0
  | nan => hashWord Double.nan.bits
  | number x => hashWord x.bits
  | string bytes => hashBytes bytes

theorem ofNumber_cases (x : Double) :
    ofNumber x = zero ∨ ofNumber x = nan ∨ ofNumber x = number x := by
  unfold ofNumber
  split
  · exact .inl rfl
  · split
    · exact .inr (.inl rfl)
    · exact .inr (.inr rfl)

/-- A number is not the key of a value of another kind. -/
theorem ofNumber_ne (x : Double) :
    ofNumber x ≠ null ∧ (∀ b, ofNumber x ≠ bool b) ∧ ∀ bytes, ofNumber x ≠ string bytes := by
  rcases ofNumber_cases x with h | h | h <;> simp [h]

theorem ofNumber_eq_iff (x y : Double) : ofNumber x = ofNumber y ↔ sameNumber x y = true := by
  unfold sameNumber ofNumber
  rw [Bool.or_eq_true, Bool.and_eq_true, Double.beq_iff x y]
  by_cases hx : (x == 0) = true
  · have hxn := Double.isNaN_of_beq_zero hx
    by_cases hy : (y == 0) = true
    · simp [hx, hy]
    · have hne : x ≠ y := by
        rintro rfl
        exact hy hx
      rw [hxn]
      cases y.isNaN <;> simp [hx, hy, hne]
  · by_cases hy : (y == 0) = true
    · have hyn := Double.isNaN_of_beq_zero hy
      have hne : x ≠ y := by
        rintro rfl
        exact hx hy
      rw [hyn]
      cases x.isNaN <;> simp [hx, hy, hne]
    · -- Neither is zero: what is left to tell apart is whether each is a NaN.
      cases hxn : x.isNaN <;> cases hyn : y.isNaN
      · simp [hx, hy]
      · have hne : x ≠ y := by
          rintro rfl
          rw [hxn] at hyn
          cases hyn
        simp [hx, hy, hne]
      · simp [hx, hy]
      · simp [hx, hy]

theorem hash_ofNumber (x : Double) : (ofNumber x).hash = hashWord (canonicalBits x) := by
  unfold ofNumber canonicalBits
  split
  · rfl
  · split <;> rfl

end Key

namespace Heap

/-- The key that a value is, if it can be one: a primitive, or a string that is there. -/
def keyOf? (heap : Heap) : Value → Option Key
  | .null => some .null
  | .bool b => some (.bool b)
  | .number x => some (.ofNumber x)
  | .object h =>
    match heap.get? h with
    | some (.string s) => some (.string s.bytes)
    | _ => none

theorem keyOf?_object {heap : Heap} {h : Handle} {k : Key} :
    heap.keyOf? (.object h) = some k ↔
      ∃ s, heap.get? h = some (.string s) ∧ k = .string s.bytes := by
  unfold keyOf?
  dsimp only
  cases heap.get? h with
  | none => simp
  | some o => cases o <;> simp [eq_comm]

theorem asString_of_get? {heap : Heap} {h : Handle} {s : ByteString}
    (hs : heap.get? h = some (.string s)) : heap.asString (.object h) = .ok (some s) := by
  rw [asString, view_object, get_eq_ok_iff.mpr hs]
  rfl

/-- A value hashes as the key it is. -/
theorem hashOf_of_keyOf? {heap : Heap} {v : Value} {k : Key} (hk : heap.keyOf? v = some k) :
    heap.hashOf v = .ok (some k.hash) := by
  cases v with
  | null =>
    cases hk
    rfl
  | bool b =>
    cases hk
    cases b <;> rfl
  | number x =>
    cases hk
    rw [Key.hash_ofNumber]
    rfl
  | object h =>
    obtain ⟨s, hs, rfl⟩ := keyOf?_object.mp hk
    show (do return (← heap.asString (.object h)).map (·.hash) : Except Fault (Option UInt32)) = _
    rw [asString_of_get? hs, Key.hash, ← s.hash_eq]
    rfl

/-- The values that have a hash are those that are keys. -/
theorem hashOf_eq_some_iff {heap : Heap} {v : Value} {hash : UInt32} :
    heap.hashOf v = .ok (some hash) ↔ ∃ k, heap.keyOf? v = some k ∧ hash = k.hash := by
  constructor
  · intro hh
    obtain ⟨k, hk⟩ : ∃ k, heap.keyOf? v = some k := by
      have hkey := isKey_of_hashOf hh
      cases v with
      | object h =>
        obtain ⟨s, hs⟩ := hkey
        exact ⟨_, keyOf?_object.mpr ⟨s, hs, rfl⟩⟩
      | _ => exact ⟨_, rfl⟩
    rw [hashOf_of_keyOf? hk] at hh
    cases hh
    exact ⟨k, hk, rfl⟩
  · rintro ⟨k, hk, rfl⟩
    exact hashOf_of_keyOf? hk

/-- Strings compare by their bytes. -/
theorem equal_of_strings {heap : Heap} {g h : Handle} {s t : ByteString}
    (hs : heap.get? g = some (.string s)) (ht : heap.get? h = some (.string t)) :
    heap.equal (.object g) (.object h) = .ok (decide (s.bytes = t.bytes)) := by
  unfold equal
  dsimp only
  split
  · next hgh =>
    subst hgh
    rw [hs] at ht
    cases ht
    simp
  · rw [asString_of_get? hs, asString_of_get? ht]
    have hiff := ByteString.sameContent_iff (s := s) (t := t)
    show Except.ok (s.sameContent t) = _
    by_cases hb : s.bytes = t.bytes
    · rw [hiff.mpr hb, decide_eq_true hb]
    · rw [decide_eq_false hb, Bool.eq_false_iff.mpr fun hc => hb (hiff.mp hc)]

/-- Values compare as the keys they are. -/
theorem equal_of_keyOf? {heap : Heap} {v w : Value} {j k : Key} (hj : heap.keyOf? v = some j)
    (hk : heap.keyOf? w = some k) : heap.equal v w = .ok (decide (j = k)) := by
  -- Values of different kinds are never equal, and neither are their keys.
  have hdiffer : j ≠ k → heap.equal v w = .ok false → heap.equal v w = .ok (decide (j = k)) :=
    fun hne he => he.trans (by rw [decide_eq_false hne])
  cases v with
  | null =>
    cases hj
    cases w with
    | null =>
      cases hk
      rfl
    | bool b =>
      cases hk
      rfl
    | number x =>
      cases hk
      exact hdiffer (Key.ofNumber_ne x).1.symm rfl
    | object h =>
      obtain ⟨s, -, rfl⟩ := keyOf?_object.mp hk
      rfl
  | bool a =>
    cases hj
    cases w with
    | null =>
      cases hk
      rfl
    | bool b =>
      cases hk
      cases a <;> cases b <;> rfl
    | number x =>
      cases hk
      exact hdiffer ((Key.ofNumber_ne x).2.1 a).symm rfl
    | object h =>
      obtain ⟨s, -, rfl⟩ := keyOf?_object.mp hk
      rfl
  | number x =>
    cases hj
    cases w with
    | number y =>
      cases hk
      show Except.ok (sameNumber x y) = _
      by_cases hs : sameNumber x y = true
      · rw [hs, decide_eq_true ((Key.ofNumber_eq_iff x y).mpr hs)]
      · rw [decide_eq_false fun hc => hs ((Key.ofNumber_eq_iff x y).mp hc)]
        rw [Bool.eq_false_iff.mpr hs]
    | object h =>
      obtain ⟨s, -, rfl⟩ := keyOf?_object.mp hk
      exact hdiffer ((Key.ofNumber_ne x).2.2 s.bytes) rfl
    | null =>
      cases hk
      exact hdiffer (Key.ofNumber_ne x).1 rfl
    | bool b =>
      cases hk
      exact hdiffer ((Key.ofNumber_ne x).2.1 b) rfl
  | object g =>
    obtain ⟨s, hs, rfl⟩ := keyOf?_object.mp hj
    cases w with
    | object h =>
      obtain ⟨t, ht, rfl⟩ := keyOf?_object.mp hk
      rw [equal_of_strings hs ht]
      simp
    | number x =>
      cases hk
      exact hdiffer ((Key.ofNumber_ne x).2.2 s.bytes).symm rfl
    | _ =>
      cases hk
      rfl

/-- A value stays the key it is as long as its string stays. -/
theorem keyOf?_mono {heap other : Heap} {v : Value} {k : Key} (hk : heap.keyOf? v = some k)
    (hs : ∀ h s, v = .object h → heap.get? h = some (.string s) →
      other.get? h = some (.string s)) : other.keyOf? v = some k := by
  cases v with
  | object h =>
    obtain ⟨s, hget, rfl⟩ := keyOf?_object.mp hk
    exact keyOf?_object.mpr ⟨s, hs h s rfl hget, rfl⟩
  | _ => exact hk

end Heap

end ScriptMachine
