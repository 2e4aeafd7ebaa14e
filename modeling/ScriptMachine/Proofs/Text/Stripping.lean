import Mathlib.Data.List.DropRight
import ScriptMachine.Proofs.Places
import ScriptMachine.Text.Ascii

/-!
# What stripping leaves

A byte string is stripped by taking off blanks from both ends. Said without a way to do it: what was
taken off is blank, and what is left neither begins nor ends with a blank. There is only one such
rest, even for a string that is all blank, so whatever changes bytes and leaves blanks alone can be
done before or after.

Main definitions:
- `blanks`, `IsStripped`: the blank bytes, and what a string may be stripped to.

Results:
1. `IsStripped.eq_strip`, `isStripped_strip`: a string is stripped to one rest, and the two searches
   of `strip` stop at its ends.
2. `strip_strip`, `strip_lower`, `strip_upper`: stripping again, and stripping letters in one case.
-/

namespace ScriptMachine.Ascii

/-! ## 1. Blanks -/

/-- Tab, line feed, vertical tab, form feed, carriage return and space. -/
def blanks : List UInt8 :=
  [9, 10, 11, 12, 13, 32]

theorem mem_blanks_iff {b : UInt8} :
    b ∈ blanks ↔ b.toNat = 32 ∨ 9 ≤ b.toNat ∧ b.toNat ≤ 13 := by
  simp only [blanks, List.mem_cons, List.not_mem_nil, or_false, ← UInt8.toNat_inj,
    UInt8.reduceToNat]
  omega

theorem isBlank_iff {b : UInt8} : isBlank b = true ↔ b ∈ blanks := by
  simp [isBlank, mem_blanks_iff, UInt8.le_iff_toNat_le, ← UInt8.toNat_inj]

/-- Letters are not blank, in either case. -/
theorem lowerByte_mem_blanks {b : UInt8} : lowerByte b ∈ blanks ↔ b ∈ blanks := by
  simp only [mem_blanks_iff, lowerByte, UInt8.le_iff_toNat_le, UInt8.reduceToNat]
  split
  · simp only [UInt8.toNat_add, UInt8.reduceToNat]
    omega
  · rfl

theorem upperByte_mem_blanks {b : UInt8} : upperByte b ∈ blanks ↔ b ∈ blanks := by
  simp only [mem_blanks_iff, upperByte, UInt8.le_iff_toNat_le, UInt8.reduceToNat]
  split
  · simp only [UInt8.toNat_sub, UInt8.reduceToNat]
    omega
  · rfl

/-! ## 2. The rest -/

/-- `IsStripped s r`: without blanks around, `s` is `r`. -/
structure IsStripped (s r : List UInt8) : Prop where
  around : ∃ front back, s = front ++ r ++ back ∧ (∀ b ∈ front, b ∈ blanks) ∧
    ∀ b ∈ back, b ∈ blanks
  first : ∀ b, r.head? = some b → b ∉ blanks
  last : ∀ b, r.getLast? = some b → b ∉ blanks

theorem head?_dropWhile {l : List UInt8} {b : UInt8}
    (h : (l.dropWhile isBlank).head? = some b) : b ∉ blanks := by
  have hnot := List.head?_dropWhile_not isBlank l
  rw [h] at hnot
  rw [← isBlank_iff]
  simpa using hnot

/-- Every string can be stripped: blanks are dropped as long as there are any, from the front and
then from the end. -/
theorem isStripped_dropWhile (s : List UInt8) :
    IsStripped s ((s.dropWhile isBlank).rdropWhile isBlank) := by
  have hfront : s.takeWhile isBlank ++ s.dropWhile isBlank = s := List.takeWhile_append_dropWhile
  have hback : (s.dropWhile isBlank).rdropWhile isBlank ++
      (s.dropWhile isBlank).rtakeWhile isBlank = s.dropWhile isBlank :=
    List.rdropWhile_append_rtakeWhile
  refine ⟨⟨s.takeWhile isBlank, (s.dropWhile isBlank).rtakeWhile isBlank, ?_,
    fun b hb => isBlank_iff.mp (List.mem_takeWhile_imp hb),
    fun b hb => isBlank_iff.mp (List.mem_rtakeWhile_imp hb)⟩, ?_, ?_⟩
  · rw [List.append_assoc, hback, hfront]
  · intro b hb
    refine head?_dropWhile (l := s) ?_
    rw [← hback]
    exact List.mem_head?_append_of_mem_head? hb
  · intro b hb
    refine head?_dropWhile (l := (s.dropWhile isBlank).reverse) ?_
    rw [← hb, List.rdropWhile, List.getLast?_reverse]

/-! ## 3. Two searches -/

theorem not_isBlank {b : UInt8} (hb : b ∉ blanks) : (!isBlank b) = true := by
  rw [Bool.not_eq_true', Bool.eq_false_iff]
  exact mt isBlank_iff.mp hb

theorem not_isBlank_of_blanks {l : List UInt8} (hl : ∀ b ∈ l, b ∈ blanks) :
    ∀ b ∈ l, (!isBlank b) = false :=
  fun b hb => by rw [isBlank_iff.mpr (hl b hb), Bool.not_true]

/-- There is one rest only, and it lies between where the two searches stop: if it is empty, all
bytes are blank and no search meets anything, and else its ends are the first byte and the last byte
that are not blank. -/
theorem IsStripped.eq_strip {s r : List UInt8} (h : IsStripped s r) :
    start s ≤ stop s ∧ stop s ≤ s.length ∧ r = strip s := by
  obtain ⟨front, back, hs, hfront, hback⟩ := h.around
  rcases eq_or_ne r [] with rfl | hr
  · have hall : ∀ b ∈ s, b ∈ blanks := by
      intro b hb
      rw [hs, List.append_nil, List.mem_append] at hb
      exact hb.elim (hfront b) (hback b)
    have hstart : start s = s.length := by
      rw [start, List.findIdx?_eq_none_iff.mpr (not_isBlank_of_blanks hall)]
      rfl
    have hstop : stop s = s.length := by
      rw [stop, findLastIdx?_eq_none (not_isBlank_of_blanks hall)]
      exact hstart
    rw [strip, hstart, hstop]
    exact ⟨le_rfl, le_rfl, by simp⟩
  · have hstart : start s = front.length := by
      have hhead := List.head?_eq_some_head hr
      obtain ⟨rest, hrest⟩ := List.head?_eq_some_iff.mp hhead
      have hcut : s = front ++ r.head hr :: (rest ++ back) := by
        rw [hs, List.append_assoc, ← List.cons_append, ← hrest]
      rw [start, hcut, findIdx?_append_cons (p := fun b => !isBlank b)
        (not_isBlank (h.first _ hhead)) (not_isBlank_of_blanks hfront)]
      rfl
    have hstop : stop s = (front ++ r).length := by
      have hlast := List.getLast?_eq_some_getLast hr
      obtain ⟨rest, hrest⟩ := List.getLast?_eq_some_iff.mp hlast
      have hcut : s = (front ++ rest) ++ r.getLast hr :: back := by
        calc s = front ++ (rest ++ [r.getLast hr]) ++ back := by rw [hs, ← hrest]
          _ = (front ++ rest) ++ r.getLast hr :: back := by simp
      rw [stop, hcut, findLastIdx?_append_cons (p := fun b => !isBlank b)
        (not_isBlank (h.last _ hlast)) (not_isBlank_of_blanks hback)]
      have hlength := congrArg List.length hrest
      rw [List.length_append, List.length_singleton] at hlength
      rw [List.length_append, List.length_append, hlength, ← Nat.add_assoc]
    rw [strip, hstart, hstop, hs, List.take_left, List.drop_left]
    exact ⟨by simp, by simp, rfl⟩

theorem isStripped_strip (s : List UInt8) : IsStripped s (strip s) := by
  have h := isStripped_dropWhile s
  rwa [h.eq_strip.2.2] at h

/-- The two searches meet in order and within the string, and `strip` gives what lies between. -/
theorem strip_eq_slice (s : List UInt8) :
    start s ≤ stop s ∧ stop s ≤ s.length ∧ strip s = (s.take (stop s)).drop (start s) :=
  (isStripped_strip s).eq_strip

/-! ## 4. Stripping again, and letters -/

/-- Stripping again takes nothing off. -/
theorem strip_strip (s : List UInt8) : strip (strip s) = strip s := by
  have h := isStripped_strip s
  have hself : IsStripped (strip s) (strip s) := ⟨⟨[], [], by simp, nofun, nofun⟩, h.first, h.last⟩
  exact hself.eq_strip.2.2.symm

/-- Bytes may be changed before or after, if blanks stay blank and the others stay what they are. -/
theorem strip_map {f : UInt8 → UInt8} (hf : ∀ {b}, f b ∈ blanks ↔ b ∈ blanks) (s : List UInt8) :
    strip (s.map f) = (strip s).map f := by
  have h := isStripped_strip s
  obtain ⟨front, back, hs, hfront, hback⟩ := h.around
  have hmapped : IsStripped (s.map f) ((strip s).map f) := by
    refine ⟨⟨front.map f, back.map f, ?_, ?_, ?_⟩, ?_, ?_⟩
    · rw [← List.map_append, ← List.map_append, ← hs]
    · exact List.forall_mem_map.mpr fun b hb => hf.mpr (hfront b hb)
    · exact List.forall_mem_map.mpr fun b hb => hf.mpr (hback b hb)
    · intro b hb
      rw [List.head?_map] at hb
      obtain ⟨c, hc, rfl⟩ := Option.map_eq_some_iff.mp hb
      exact mt hf.mp (h.first c hc)
    · intro b hb
      rw [List.getLast?_map] at hb
      obtain ⟨c, hc, rfl⟩ := Option.map_eq_some_iff.mp hb
      exact mt hf.mp (h.last c hc)
  exact hmapped.eq_strip.2.2.symm

theorem strip_lower (s : List UInt8) : strip (lower s) = lower (strip s) :=
  strip_map lowerByte_mem_blanks s

theorem strip_upper (s : List UInt8) : strip (upper s) = upper (strip s) :=
  strip_map upperByte_mem_blanks s

end ScriptMachine.Ascii
