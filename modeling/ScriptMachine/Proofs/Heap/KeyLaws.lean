import Mathlib
import ScriptMachine.Proofs.Heap.KeyClass
import ScriptMachine.Proofs.Heap.Safety
import ScriptMachine.Proofs.Number.Bits

/-!
# The laws of keys

Tables rely on it that comparisons and hashes of keys belong together. They are two functions,
and each folds the zeros and the NaNs in its own way: a comparison asks IEEE-754, which says that
no NaN is itself and that the zeros are equal though their bits are not; a hash goes by bits, of
which the NaNs have many. Here both are read off one thing, what a value is compared as. For numbers
this is followed down to the bits, for each of the 2^64 patterns that a number can have.

Main definitions:
- `canonicalPattern`: the canonical bits of a number, in terms of its bits.
- `Identity`, `Heap.identityOf`: what a value is compared as.
- `Heap.KeyLaws`.

Results:
1. `canonicalBits_eq`, `canonicalBits_inj`: canonical bits, and which numbers share them.
2. `Heap.equal_of_has`: to compare two values that are there is to compare their identities.
3. `Heap.keyLaws`: the laws hold in every heap, for all values that are there.
-/

namespace ScriptMachine

/-! ## 1. Canonical bits -/

/-- One pattern for both zeros and one for the NaNs, which are above the infinities. Every other
pattern stands for itself. -/
def canonicalPattern (pattern : UInt64) : UInt64 :=
  if magnitudeBits pattern = 0 then 0
  else if 0x7FF0000000000000 < magnitudeBits pattern then 0x7FF8000000000000
  else pattern

/-- Canonical bits are made of the bits alone. -/
theorem canonicalBits_eq (x : Double) : canonicalBits x = canonicalPattern x.bits := by
  unfold canonicalBits canonicalPattern
  rw [if_congr (Double.beq_zero_iff x) rfl (if_congr (Double.isNaN_iff x) rfl rfl)]
  rfl

/-- A canonical pattern is one of a zero, or one of a NaN, if the pattern is. -/
theorem magnitudeBits_canonicalPattern (p : UInt64) :
    (magnitudeBits (canonicalPattern p) = 0 ↔ magnitudeBits p = 0) ∧
      (0x7FF0000000000000 < magnitudeBits (canonicalPattern p) ↔
        0x7FF0000000000000 < magnitudeBits p) := by
  unfold canonicalPattern
  split
  · next hzero =>
    rw [hzero]
    decide
  · next hnonzero =>
    split
    · next hnan =>
      exact ⟨iff_of_false (by decide) hnonzero, iff_of_true (by decide) hnan⟩
    · exact ⟨Iff.rfl, Iff.rfl⟩

/-- Patterns share their canonical one if both are of zeros, both are of NaNs, or they are the
same. -/
theorem canonicalPattern_inj (p q : UInt64) : canonicalPattern p = canonicalPattern q ↔
    (magnitudeBits p = 0 ∧ magnitudeBits q = 0) ∨
      (0x7FF0000000000000 < magnitudeBits p ∧ 0x7FF0000000000000 < magnitudeBits q) ∨ p = q := by
  obtain ⟨hzero, hnan⟩ := magnitudeBits_canonicalPattern p
  obtain ⟨hzero', hnan'⟩ := magnitudeBits_canonicalPattern q
  constructor
  · intro heq
    rw [heq, hzero'] at hzero
    rw [heq, hnan'] at hnan
    by_cases hp : magnitudeBits p = 0
    · exact .inl ⟨hp, hzero.mpr hp⟩
    · by_cases hlarge : 0x7FF0000000000000 < magnitudeBits p
      · exact .inr (.inl ⟨hlarge, hnan.mpr hlarge⟩)
      · unfold canonicalPattern at heq
        rw [if_neg hp, if_neg hlarge, if_neg (mt hzero.mp hp), if_neg (mt hnan.mp hlarge)] at heq
        exact .inr (.inr heq)
  · have hnonzero {r : UInt64} (hr : 0x7FF0000000000000 < magnitudeBits r) :
        magnitudeBits r ≠ 0 := by
      intro h
      rw [h] at hr
      exact absurd hr (by decide)
    unfold canonicalPattern
    rintro (⟨hp, hq⟩ | ⟨hp, hq⟩ | rfl)
    · rw [if_pos hp, if_pos hq]
    · rw [if_neg (hnonzero hp), if_pos hp, if_neg (hnonzero hq), if_pos hq]
    · rfl

/-- Two numbers are the same key if both are zeros, both are NaNs, or their bits are the same. -/
theorem sameNumber_iff (x y : Double) : sameNumber x y = true ↔
    (magnitudeBits x.bits = 0 ∧ magnitudeBits y.bits = 0) ∨
      (0x7FF0000000000000 < magnitudeBits x.bits ∧ 0x7FF0000000000000 < magnitudeBits y.bits) ∨
      x.bits = y.bits := by
  unfold sameNumber
  rw [Bool.or_eq_true, Bool.and_eq_true, Double.beq_iff, Double.beq_zero_iff, Double.beq_zero_iff,
    Double.isNaN_iff, Double.isNaN_iff, ← @Double.ext_iff x y]
  constructor
  · rintro ((hzero | ⟨rfl, -⟩) | hnan)
    · exact .inl hzero
    · exact .inr (.inr rfl)
    · exact .inr (.inl hnan)
  · rintro (hzero | hnan | rfl)
    · exact .inl (.inl hzero)
    · exact .inr hnan
    · cases hx : x.isNaN with
      | true => exact .inr ⟨(Double.isNaN_iff x).mp hx, (Double.isNaN_iff x).mp hx⟩
      | false => exact .inl (.inr ⟨rfl, rfl⟩)

theorem canonicalBits_inj (x y : Double) :
    canonicalBits x = canonicalBits y ↔ sameNumber x y = true := by
  rw [canonicalBits_eq, canonicalBits_eq, canonicalPattern_inj, sameNumber_iff]

/-! ## 2. Identities -/

/-- What a value is compared as: a key, or else an object that is only itself. -/
inductive Identity where
  | key (k : Key)
  | self (v : Value)
deriving DecidableEq

/-- The kind of the values that are a key. -/
def Key.kind : Key → Kind
  | null => .null
  | bool _ => .bool
  | zero | nan | number _ => .number
  | string _ => .string

theorem Key.kind_ofNumber (x : Double) : (ofNumber x).kind = .number := by
  rcases ofNumber_cases x with h | h | h <;> rw [h] <;> rfl

theorem Key.isHashable_kind (k : Key) : k.kind.isHashable = true := by
  cases k <;> rfl

namespace Heap

variable {heap : Heap} {v w : Value}

/-- What a value is compared as. -/
def identityOf (heap : Heap) (v : Value) : Identity :=
  match heap.keyOf? v with
  | some k => .key k
  | none => .self v

theorem kindOf_of_keyOf? {k : Key} (hk : heap.keyOf? v = some k) : heap.kindOf v = .ok k.kind := by
  cases v with
  | null =>
    cases hk
    rfl
  | bool b =>
    cases hk
    rfl
  | number x =>
    cases hk
    rw [Key.kind_ofNumber]
    rfl
  | object h =>
    obtain ⟨s, hs, rfl⟩ := keyOf?_object.mp hk
    show (do return (← heap.get h).kind : Except Fault Kind) = _
    rw [get_eq_ok_iff.mpr hs]
    rfl

/-- What is there and no key is an object other than a string. -/
theorem object_of_keyOf?_eq_none (hv : heap.Has v) (hn : heap.keyOf? v = none) :
    ∃ h o, v = .object h ∧ heap.get? h = some o ∧ ∀ s, o ≠ .string s := by
  cases v with
  | object h =>
    obtain ⟨o, -, ho⟩ := get_ok hv
    refine ⟨h, o, rfl, ho, ?_⟩
    rintro s rfl
    rw [keyOf?_object.mpr ⟨s, ho, rfl⟩] at hn
    cases hn
  | _ => cases hn

theorem asString_of_keyOf?_eq_none (hv : heap.Has v) (hn : heap.keyOf? v = none) :
    heap.asString v = .ok none := by
  obtain ⟨h, o, rfl, ho, hne⟩ := object_of_keyOf?_eq_none hv hn
  rw [asString, view_object, get_eq_ok_iff.mpr ho]
  cases o with
  | string s => exact absurd rfl (hne s)
  | _ => rfl

/-- If one of two values is no key, they compare by identity. -/
theorem equal_of_keyOf?_eq_none (hv : heap.Has v) (hw : heap.Has w)
    (hn : heap.keyOf? v = none ∨ heap.keyOf? w = none) :
    heap.equal v w = .ok (decide (v = w)) := by
  by_cases hvw : v = w
  · subst hvw
    obtain ⟨h, o, rfl, -, -⟩ := object_of_keyOf?_eq_none hv (hn.elim id id)
    unfold equal
    simp
  · rw [decide_eq_false hvw]
    cases v with
    | object g =>
      cases w with
      | object h =>
        have hgh : g ≠ h := fun hgh => hvw (congrArg Value.object hgh)
        obtain ⟨s, hs⟩ := asString_ok hv
        obtain ⟨t, ht⟩ := asString_ok hw
        unfold equal
        dsimp only
        rw [if_neg hgh, hs, ht]
        rcases hn with hn | hn
        · rw [asString_of_keyOf?_eq_none hv hn] at hs
          cases hs
          rfl
        · rw [asString_of_keyOf?_eq_none hw hn] at ht
          cases ht
          cases s <;> rfl
      | _ => rfl
    | _ =>
      cases w with
      | object h => rfl
      | _ => rcases hn with hn | hn <;> cases hn

/-- Values that are there compare as their identities do. -/
theorem equal_of_has (hv : heap.Has v) (hw : heap.Has w) :
    heap.equal v w = .ok (decide (heap.identityOf v = heap.identityOf w)) := by
  unfold identityOf
  cases hj : heap.keyOf? v with
  | some j =>
    cases hk : heap.keyOf? w with
    | some k =>
      rw [equal_of_keyOf? hj hk]
      simp
    | none =>
      have hvw : v ≠ w := by
        rintro rfl
        rw [hk] at hj
        cases hj
      rw [equal_of_keyOf?_eq_none hv hw (.inr hk)]
      simp [hvw]
  | none =>
    rw [equal_of_keyOf?_eq_none hv hw (.inl hj)]
    cases hk : heap.keyOf? w with
    | some k =>
      have hvw : v ≠ w := by
        rintro rfl
        rw [hk] at hj
        cases hj
      simp [hvw]
    | none => simp

theorem equal_eq_true_iff (hv : heap.Has v) (hw : heap.Has w) :
    heap.equal v w = .ok true ↔ heap.identityOf v = heap.identityOf w := by
  rw [equal_of_has hv hw]
  simp

/-- What a value is compared as determines its kind and its hash. -/
theorem kindOf_hashOf_of_identityOf (hvw : heap.identityOf v = heap.identityOf w) :
    heap.kindOf v = heap.kindOf w ∧ heap.hashOf v = heap.hashOf w := by
  unfold identityOf at hvw
  cases hj : heap.keyOf? v with
  | some j =>
    cases hk : heap.keyOf? w with
    | some k =>
      rw [hj, hk] at hvw
      cases hvw
      rw [kindOf_of_keyOf? hj, kindOf_of_keyOf? hk, hashOf_of_keyOf? hj, hashOf_of_keyOf? hk]
      exact ⟨rfl, rfl⟩
    | none =>
      rw [hj, hk] at hvw
      cases hvw
  | none =>
    cases hk : heap.keyOf? w with
    | some k =>
      rw [hj, hk] at hvw
      cases hvw
    | none =>
      rw [hj, hk] at hvw
      cases hvw
      exact ⟨rfl, rfl⟩

/-- A value has a hash if it is of a kind that hashes. -/
theorem isSome_hashOf (hv : heap.Has v) : ∃ kind hash, heap.kindOf v = .ok kind ∧
    heap.hashOf v = .ok hash ∧ hash.isSome = kind.isHashable := by
  cases hk : heap.keyOf? v with
  | some k =>
    refine ⟨k.kind, some k.hash, kindOf_of_keyOf? hk, hashOf_of_keyOf? hk, ?_⟩
    rw [k.isHashable_kind]
    rfl
  | none =>
    have hstring := asString_of_keyOf?_eq_none hv hk
    obtain ⟨h, o, rfl, ho, hne⟩ := object_of_keyOf?_eq_none hv hk
    refine ⟨o.kind, none, ?_, ?_, ?_⟩
    · show (do return (← heap.get h).kind : Except Fault Kind) = _
      rw [get_eq_ok_iff.mpr ho]
      rfl
    · show (do return (← heap.asString (.object h)).map (·.hash) :
        Except Fault (Option UInt32)) = _
      rw [hstring]
      rfl
    · cases o with
      | string s => exact absurd rfl (hne s)
      | _ => rfl

/-! ## 3. The laws -/

/-- What tables rely on, and what each kind of key is compared by. A comparison of values that are
there always has a result, so each law gives the result itself. -/
structure KeyLaws (heap : Heap) : Prop where
  refl : ∀ a, heap.Has a → heap.equal a a = .ok true
  symm : ∀ a b, heap.Has a → heap.Has b →
    ∃ same, heap.equal a b = .ok same ∧ heap.equal b a = .ok same
  trans : ∀ a b c, heap.Has a → heap.Has b → heap.Has c →
    heap.equal a b = .ok true → heap.equal b c = .ok true → heap.equal a c = .ok true
  /-- Equal values hash alike. -/
  hash : ∀ a b, heap.Has a → heap.Has b → heap.equal a b = .ok true →
    ∃ hash, heap.hashOf a = .ok hash ∧ heap.hashOf b = .ok hash
  /-- Numbers compare by the bits that they hash by. -/
  number : ∀ x y, heap.equal (.number x) (.number y) =
    .ok (decide (canonicalBits x = canonicalBits y))
  /-- This is so for each of the 2^64 patterns, those of the zeros and of the NaNs included. -/
  pattern : ∀ p q, heap.equal (.number ⟨p⟩) (.number ⟨q⟩) =
      .ok (decide (canonicalPattern p = canonicalPattern q)) ∧
    heap.hashOf (.number ⟨p⟩) = .ok (some (hashWord (canonicalPattern p)))
  string : ∀ g h s t, heap.get? g = some (.string s) → heap.get? h = some (.string t) →
    heap.equal (.object g) (.object h) = .ok (decide (s.bytes = t.bytes))
  /-- Values of different kinds are different keys. -/
  kind : ∀ a b j k, heap.Has a → heap.Has b → heap.kindOf a = .ok j → heap.kindOf b = .ok k →
    j ≠ k → heap.equal a b = .ok false
  hashable : ∀ a, heap.Has a → ∃ kind hash, heap.kindOf a = .ok kind ∧
    heap.hashOf a = .ok hash ∧ hash.isSome = kind.isHashable

theorem equal_numbers (heap : Heap) (x y : Double) : heap.equal (.number x) (.number y) =
    .ok (decide (canonicalBits x = canonicalBits y)) := by
  refine congrArg Except.ok (Bool.eq_iff_iff.mpr ?_)
  rw [decide_eq_true_iff, canonicalBits_inj]

/-- The laws of keys hold in every heap, however it came about. -/
theorem keyLaws (heap : Heap) : heap.KeyLaws where
  refl a ha := (equal_eq_true_iff ha ha).mpr rfl
  symm a b ha hb := by
    refine ⟨_, equal_of_has ha hb, ?_⟩
    rw [equal_of_has hb ha, decide_eq_decide.mpr eq_comm]
  trans a b c ha hb hc hab hbc := by
    rw [equal_eq_true_iff ha hb] at hab
    rw [equal_eq_true_iff hb hc] at hbc
    exact (equal_eq_true_iff ha hc).mpr (hab.trans hbc)
  hash a b ha hb hab := by
    obtain ⟨hash, hhash⟩ := hashOf_ok ha
    obtain ⟨-, heq⟩ := kindOf_hashOf_of_identityOf ((equal_eq_true_iff ha hb).mp hab)
    exact ⟨hash, hhash, heq ▸ hhash⟩
  number := equal_numbers heap
  pattern p q := by
    rw [equal_numbers, hashOf, canonicalBits_eq, canonicalBits_eq]
    exact ⟨rfl, rfl⟩
  string _ _ _ _ := equal_of_strings
  kind a b j k ha hb hj hk hne := by
    rw [equal_of_has ha hb, decide_eq_false]
    intro hab
    have heq := (kindOf_hashOf_of_identityOf hab).1
    rw [hj, hk] at heq
    cases heq
    exact hne rfl
  hashable _ := isSome_hashOf

end Heap

end ScriptMachine
