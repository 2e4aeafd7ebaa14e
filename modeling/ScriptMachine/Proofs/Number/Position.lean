import ScriptMachine.Operand
import ScriptMachine.Proofs.Number.Exact

/-!
# The positions that values name

A subscript names a position if it is an integer and in range. It is an integer or not by the exact
number that it is, down to the last digit. The integer then has to fit into 64 bits, and one that
does not becomes the first or the last integer that does. No container is so long that the last one
would be in range, so what is out of range stays out of range.

Main definitions:
- `Value.IsInteger`, `Value.IsNoInteger`: the integer that a value is, and the values that are none.
- `Value.Locates`: what becomes of a value as a position among so many elements.

Results:
1. `Value.integer_eq_some_iff`, `Value.integer_eq_none_iff`: the integer that is read from a value.
2. `requireIndex_clampInt64`: cutting integers down to 64 bits brings none of them into range.
3. `Value.locates_exactly`: values that name a position, values that are no integers, and the rest.
-/

namespace ScriptMachine

namespace Value

/-! ## 1. Integers among values -/

/-- `v.IsInteger n`: as an operand, `v` is the integer `n`. A double is the integer that its exact
value is, so both zeros are 0. -/
inductive IsInteger : Value → Int → Prop
  | number {x : Double} {n : Int} : x.isFinite = true → ratOf x = n → IsInteger (.number x) n
  | truth : IsInteger (.bool true) 1
  | falsity : IsInteger (.bool false) 0

/-- As an operand, the value is no integer. -/
inductive IsNoInteger : Value → Prop
  | null : IsNoInteger .null
  | object (h : Handle) : IsNoInteger (.object h)
  | nan {x : Double} : x.isNaN = true → IsNoInteger (.number x)
  | infinite {x : Double} : x.isInf = true → IsNoInteger (.number x)
  | fraction {x : Double} :
    x.isFinite = true → Int.fract (ratOf x) ≠ 0 → IsNoInteger (.number x)

theorem isInteger_number {x : Double} {n : Int} :
    (number x).IsInteger n ↔ integerOf? x = some n := by
  rw [integerOf?_eq_some_iff]
  constructor
  · rintro ⟨hfinite, hvalue⟩
    exact ⟨hfinite, hvalue⟩
  · rintro ⟨hfinite, hvalue⟩
    exact .number hfinite hvalue

theorem isNoInteger_number {x : Double} :
    (number x).IsNoInteger ↔ integerOf? x = none := by
  rw [Option.eq_none_iff_forall_ne_some]
  simp only [ne_eq, integerOf?_eq_some_iff]
  constructor
  · rintro (_ | _ | hnan | hinf | ⟨-, hfract⟩) n ⟨hfinite, hvalue⟩
    · rw [isNaN_of_isFinite hfinite] at hnan
      cases hnan
    · rw [isInf_of_isFinite hfinite] at hinf
      cases hinf
    · rw [hvalue, Int.fract_intCast] at hfract
      exact hfract rfl
  · intro hnone
    cases hnan : x.isNaN with
    | true => exact .nan hnan
    | false =>
      cases hinf : x.isInf with
      | true => exact .infinite hinf
      | false =>
        have hfinite := isFinite_of_isInf_of_isNaN hinf hnan
        refine .fraction hfinite fun hfract => ?_
        obtain ⟨n, hn⟩ := Int.fract_eq_zero_iff.mp hfract
        exact hnone n ⟨hfinite, hn.symm⟩

theorem integer_bool (b : Bool) :
    (bool b).asNumber?.bind integerOf? = some (if b then 1 else 0) := by
  cases b <;> decide +kernel

/-- The integer that is read from a value is the one that it is. -/
theorem integer_eq_some_iff {v : Value} {n : Int} :
    v.asNumber?.bind integerOf? = some n ↔ v.IsInteger n := by
  cases v with
  | null => exact ⟨nofun, nofun⟩
  | object h => exact ⟨nofun, nofun⟩
  | number x => exact isInteger_number.symm
  | bool b =>
    rw [integer_bool]
    constructor
    · rintro ⟨⟩
      cases b with
      | true => exact .truth
      | false => exact .falsity
    · rintro (_ | _) <;> rfl

/-- No integer is read from a value that is none. -/
theorem integer_eq_none_iff {v : Value} : v.asNumber?.bind integerOf? = none ↔ v.IsNoInteger := by
  cases v with
  | null => exact ⟨fun _ => .null, fun _ => rfl⟩
  | object h => exact ⟨fun _ => .object h, fun _ => rfl⟩
  | number x => exact isNoInteger_number.symm
  | bool b =>
    rw [integer_bool]
    exact ⟨nofun, nofun⟩

theorem IsInteger.unique {v : Value} {n k : Int} (hn : v.IsInteger n) (hk : v.IsInteger k) :
    n = k :=
  Option.some.inj ((integer_eq_some_iff.mpr hn).symm.trans (integer_eq_some_iff.mpr hk))

theorem IsInteger.not_isNoInteger {v : Value} {n : Int} (hn : v.IsInteger n) : ¬ v.IsNoInteger :=
  fun h => by cases (integer_eq_some_iff.mpr hn).symm.trans (integer_eq_none_iff.mpr h)

/-- A value is an integer, or it is none. -/
theorem exists_isInteger {v : Value} (h : ¬ v.IsNoInteger) : ∃ n, v.IsInteger n := by
  cases hread : v.asNumber?.bind integerOf? with
  | none => exact absurd (integer_eq_none_iff.mp hread) h
  | some n => exact ⟨n, integer_eq_some_iff.mp hread⟩

end Value

/-! ## 2. The two checks -/

theorem requireInteger_of_isInteger {v : Value} {n : Int} (hv : v.IsInteger n) (what : String) :
    requireInteger v what = .ok (clampInt64 n) := by
  rw [requireInteger, Value.integer_eq_some_iff.mpr hv]

theorem requireInteger_of_isNoInteger {v : Value} (hv : v.IsNoInteger) (what : String) :
    requireInteger v what = .error (.notInteger what) := by
  rw [requireInteger, Value.integer_eq_none_iff.mpr hv]

theorem requireIndex_eq_ok_iff {n : Int} {length i : Nat} {container : String} :
    requireIndex n length container = .ok i ↔ n = i ∧ i < length := by
  unfold requireIndex
  split
  · next hrange =>
    rw [Except.ok.injEq]
    omega
  · next hrange =>
    refine ⟨nofun, fun ⟨hn, hi⟩ => absurd ?_ hrange⟩
    omega

theorem requireIndex_eq_error_iff {n : Int} {length : Nat} {container : String} {e : EvalError} :
    requireIndex n length container = .error e ↔
      e = .indexOutOfRange container ∧ ∀ i : Nat, n = i → length ≤ i := by
  unfold requireIndex
  split
  · next hrange =>
    refine ⟨nofun, fun ⟨_, hout⟩ => ?_⟩
    have hle := hout n.toNat (Int.toNat_of_nonneg hrange.1).symm
    omega
  · next hrange =>
    rw [Except.error.injEq, eq_comm]
    refine (and_iff_left fun i hi => ?_).symm
    omega

/-- An integer that has to be cut down to 64 bits is out of range before and after, because the last
integer of 64 bits is. -/
theorem requireIndex_clampInt64 {length : Nat} (hlength : length ≤ 2 ^ 63 - 1) (n : Int)
    (container : String) :
    requireIndex (clampInt64 n) length container = requireIndex n length container := by
  have hrange : 0 ≤ clampInt64 n ∧ clampInt64 n < length ↔ 0 ≤ n ∧ n < length := by
    unfold clampInt64
    omega
  unfold requireIndex
  by_cases hn : 0 ≤ n ∧ n < length
  · have hsame : clampInt64 n = n := by
      unfold clampInt64
      omega
    rw [if_pos (hrange.mpr hn), if_pos hn, hsame]
  · rw [if_neg (mt hrange.mp hn), if_neg hn]

/-! ## 3. Positions -/

/-- `key.Locates what container length outcome`: the outcome is the right one for a position among
`length` elements. -/
structure Value.Locates (key : Value) (what container : String) (length : Nat)
    (outcome : Except EvalError Nat) : Prop where
  position : ∀ i : Nat, outcome = .ok i ↔ key.IsInteger i ∧ i < length
  noInteger : outcome = .error (.notInteger what) ↔ key.IsNoInteger
  /-- In all other cases. -/
  outOfRange : outcome = .error (.indexOutOfRange container) ↔
    ¬ key.IsNoInteger ∧ ¬ ∃ i : Nat, key.IsInteger i ∧ i < length

/-- A value passes both checks exactly if it is an integer in range, whatever its bits are. It fails
the first one exactly if it is no integer, and otherwise it fails the second. -/
theorem Value.locates_exactly (key : Value) (what container : String) {length : Nat}
    (hlength : length ≤ 2 ^ 63 - 1) : key.Locates what container length (do
      requireIndex (← requireInteger key what) length container) := by
  by_cases hkey : key.IsNoInteger
  · rw [requireInteger_of_isNoInteger hkey]
    refine ⟨fun i => ⟨nofun, fun h => absurd hkey h.1.not_isNoInteger⟩,
      ⟨fun _ => hkey, fun _ => rfl⟩, nofun, fun h => absurd hkey h.1⟩
  · obtain ⟨n, hn⟩ := exists_isInteger hkey
    have hinteger : ∀ i : Nat, n = i ↔ key.IsInteger i :=
      fun i => ⟨fun h => h ▸ hn, fun hi => hn.unique hi⟩
    have houtcome : (do requireIndex (← requireInteger key what) length container) =
        requireIndex n length container := by
      rw [requireInteger_of_isInteger hn]
      exact requireIndex_clampInt64 hlength n container
    rw [houtcome]
    refine ⟨fun i => ?_, ?_, ?_⟩
    · rw [requireIndex_eq_ok_iff, hinteger]
    · rw [requireIndex_eq_error_iff]
      exact ⟨nofun, fun h => absurd h hkey⟩
    · rw [requireIndex_eq_error_iff]
      simp only [hinteger, true_and, hkey, not_false_eq_true, not_exists, not_and, not_lt]

/-- The least double that is too large for 64 bits is cut down to the last integer there is, and
this is not in range of the longest container. -/
theorem Value.locates_exactly_of_saturated :
    let key : Value := .number 9223372036854775808
    2 ^ 63 - 1 ≤ 2 ^ 63 - 1 ∧ key.IsInteger (2 ^ 63) ∧
      requireInteger key "List index" = .ok (2 ^ 63 - 1) ∧
      requirePosition key (2 ^ 63 - 1) "List" = .error (.indexOutOfRange "List") := by
  intro key
  have hkey : key.IsInteger (2 ^ 63) := isInteger_number.mpr (by decide +kernel)
  refine ⟨le_rfl, hkey, requireInteger_of_isInteger hkey _, ?_⟩
  refine (locates_exactly key "List index" "List" le_rfl).outOfRange.mpr
    ⟨hkey.not_isNoInteger, ?_⟩
  rintro ⟨i, hi, hlt⟩
  have hsame := hkey.unique hi
  omega

end ScriptMachine
