import ScriptMachine.Text.Quoted
import ScriptMachine.Text.Utf8

/-!
# Texts that can be read back

Two ways of writing a text lose nothing. The bytes of a text are read as that text, one character
after the other. A text in quotes ends at its own closing quote: whatever it contains, and whatever
comes after it, a reader finds the text and the place where it ended.

Main definitions:
- `Utf8.begun`, `Utf8.tail`: the sequence that a first byte begins, and a byte after the first.
- `Quoted.read?`: reads a text in quotes, and gives what comes after it.

Results:
1. `Utf8.decodeLossy_encode`: reading the bytes of a text gives the text.
2. `Quoted.read?_encode`: reading a text in quotes gives the text and what comes after it.
-/

namespace ScriptMachine

/-! ## 1. Bytes -/

namespace Utf8

/-- The sequence that a byte begins, if it begins one. -/
def begun (b : UInt8) : Pending :=
  if b.toNat < 0xE0 then ⟨b.toNat - 0xC0, 1, 0x80, 0xBF⟩
  else if b.toNat < 0xF0 then
    ⟨b.toNat - 0xE0, 2, if b.toNat = 0xE0 then 0xA0 else 0x80,
      if b.toNat = 0xED then 0x9F else 0xBF⟩
  else
    ⟨b.toNat - 0xF0, 3, if b.toNat = 0xF0 then 0x90 else 0x80,
      if b.toNat = 0xF4 then 0x8F else 0xBF⟩

theorem first_begun {b : UInt8} (hlow : 0xC2 ≤ b.toNat) (hhigh : b.toNat ≤ 0xF4) :
    first b = ⟨[], some (begun b)⟩ := by
  have heq : ∀ c : UInt8, b = c ↔ b.toNat = c.toNat := fun c => UInt8.toNat_inj.symm
  simp only [first, begun, UInt8.lt_iff_toNat_lt, heq, UInt8.reduceToNat]
  grind

theorem scanFrom_begun {b : UInt8} (hlow : 0xC2 ≤ b.toNat) (hhigh : b.toNat ≤ 0xF4)
    (rest : List UInt8) : scanFrom none (b :: rest) = scanFrom (some (begun b)) rest := by
  simp [scanFrom, step, first_begun hlow hhigh]

theorem toNat_byte {n : Nat} (h : n < 0x100) : (UInt8.ofNat n).toNat = n :=
  UInt8.toNat_ofNat_of_lt' h

/-- The byte after the first that carries the lowest six bits of a number. -/
def tail (n : Nat) : UInt8 :=
  UInt8.ofNat (n % 0x40 + 0x80)

theorem toNat_tail (n : Nat) : (tail n).toNat = n % 0x40 + 0x80 :=
  toNat_byte (by omega)

/-- What a byte in the range asked for does. -/
theorem step_tail {p : Pending} {n : Nat} (hlow : p.low.toNat ≤ n % 0x40 + 0x80)
    (hhigh : n % 0x40 + 0x80 ≤ p.high.toNat) :
    step (some p) (tail n) =
      if p.owed ≤ 1 then ⟨[some (Char.ofNat (p.code * 64 + n % 0x40))], none⟩
      else ⟨[], some ⟨p.code * 64 + n % 0x40, p.owed - 1, 0x80, 0xBF⟩⟩ := by
  have hin : p.low ≤ tail n ∧ tail n ≤ p.high := by
    rw [UInt8.le_iff_toNat_le, UInt8.le_iff_toNat_le, toNat_tail]
    exact ⟨hlow, hhigh⟩
  rw [step, if_pos hin, toNat_tail, Nat.add_sub_cancel]

theorem scanFrom_owed {code owed n : Nat} {low high : UInt8}
    (hlow : low.toNat ≤ n % 0x40 + 0x80) (hhigh : n % 0x40 + 0x80 ≤ high.toNat)
    (rest : List UInt8) :
    scanFrom (some ⟨code, owed + 2, low, high⟩) (tail n :: rest) =
      scanFrom (some ⟨code * 64 + n % 0x40, owed + 1, 0x80, 0xBF⟩) rest := by
  rw [scanFrom, step_tail hlow hhigh]
  rfl

theorem scanFrom_last (code n : Nat) (rest : List UInt8) :
    scanFrom (some ⟨code, 1, 0x80, 0xBF⟩) (tail n :: rest) =
      some (Char.ofNat (code * 64 + n % 0x40)) :: scanFrom none rest := by
  rw [scanFrom, step_tail (by simp) (by simp; omega)]
  rfl

/-! ### Characters of each length -/

theorem scanFrom_one {v : Nat} (hv : v ≤ 0x7F) (rest : List UInt8) :
    scanFrom none (UInt8.ofNat v :: rest) = some (Char.ofNat v) :: scanFrom none rest := by
  have hb : (UInt8.ofNat v).toNat = v := toNat_byte (by omega)
  have hlow : UInt8.ofNat v < 0x80 := by
    rw [UInt8.lt_iff_toNat_lt, hb]
    exact Nat.lt_succ_of_le hv
  simp only [List.cons_append, List.nil_append, scanFrom, step, first, if_pos hlow, hb]

theorem scanFrom_two {v : Nat} (hlow : 0x7F < v) (hhigh : v ≤ 0x7FF) (rest : List UInt8) :
    scanFrom none (UInt8.ofNat (v / 64 % 0x20 + 0xC0) :: tail v :: rest) =
      some (Char.ofNat v) :: scanFrom none rest := by
  have hb : (UInt8.ofNat (v / 64 % 0x20 + 0xC0)).toNat = v / 64 + 0xC0 := by
    rw [toNat_byte (by omega)]
    omega
  rw [scanFrom_begun (by omega) (by omega), begun, if_pos (by omega), hb, scanFrom_last,
    Nat.add_sub_cancel, Nat.div_add_mod']

/-- The range of the second byte leaves out the surrogates, and so does `v`. -/
theorem scanFrom_three {v : Nat} (hlow : 0x7FF < v) (hhigh : v ≤ 0xFFFF)
    (hv : v < 0xD800 ∨ 0xDFFF < v) (rest : List UInt8) :
    scanFrom none (UInt8.ofNat (v / 4096 % 0x10 + 0xE0) :: tail (v / 64) :: tail v :: rest) =
      some (Char.ofNat v) :: scanFrom none rest := by
  have hb : (UInt8.ofNat (v / 4096 % 0x10 + 0xE0)).toNat = v / 4096 + 0xE0 := by
    rw [toNat_byte (by omega)]
    omega
  have hcode : (v / 4096 + 0xE0 - 0xE0) * 64 + v / 64 % 0x40 = v / 64 := by omega
  rw [scanFrom_begun (by omega) (by omega), begun, if_neg (by omega), if_pos (by omega), hb,
    scanFrom_owed, scanFrom_last, hcode, Nat.div_add_mod']
  all_goals
    split <;> simp <;> omega

theorem scanFrom_four {v : Nat} (hlow : 0xFFFF < v) (hhigh : v < 0x110000) (rest : List UInt8) :
    scanFrom none (UInt8.ofNat (v / 262144 % 0x08 + 0xF0) :: tail (v / 4096) :: tail (v / 64) ::
      tail v :: rest) = some (Char.ofNat v) :: scanFrom none rest := by
  have hb : (UInt8.ofNat (v / 262144 % 0x08 + 0xF0)).toNat = v / 262144 + 0xF0 := by
    rw [toNat_byte (by omega)]
    omega
  have hcode : ((v / 262144 + 0xF0 - 0xF0) * 64 + v / 4096 % 0x40) * 64 + v / 64 % 0x40 =
      v / 64 := by omega
  rw [scanFrom_begun (by omega) (by omega), begun, if_neg (by omega), if_neg (by omega), hb,
    scanFrom_owed, scanFrom_owed (by simp) (by simp; omega), scanFrom_last, hcode,
    Nat.div_add_mod']
  all_goals
    split <;> simp <;> omega

/-! ### Texts -/

/-- A character is read from its bytes, whatever comes after them. -/
theorem scanFrom_utf8EncodeChar (c : Char) (rest : List UInt8) :
    scanFrom none (String.utf8EncodeChar c ++ rest) = some c :: scanFrom none rest := by
  have hvalid : c.val.toNat < 0xD800 ∨ 0xDFFF < c.val.toNat ∧ c.val.toNat < 0x110000 := c.valid
  have hc : Char.ofNat c.val.toNat = c := Char.ofNat_toNat c
  rw [← congrArg some hc]
  unfold String.utf8EncodeChar
  dsimp only
  split
  · exact scanFrom_one (by assumption) rest
  split
  · exact scanFrom_two (by omega) (by assumption) rest
  split
  · exact scanFrom_three (by omega) (by assumption) (by omega) rest
  · exact scanFrom_four (by omega) (by omega) rest

theorem encode_eq (text : String) : encode text = text.toList.flatMap String.utf8EncodeChar := by
  unfold encode
  rw [String.toUTF8, ← String.utf8Encode_toList, List.utf8Encode, List.toList_data_toByteArray]

/-- The bytes of a text are read as its characters. -/
theorem scan_encode (text : String) : scan (encode text) = text.toList.map some := by
  rw [encode_eq, scan]
  induction text.toList with
  | nil => rfl
  | cons c chars ih => rw [List.flatMap_cons, scanFrom_utf8EncodeChar, ih, List.map_cons]

theorem decodeLossy_encode (text : String) : decodeLossy (encode text) = text.toList := by
  rw [decodeLossy, scan_encode, List.map_map]
  exact List.map_id _

end Utf8

/-! ## 2. Quotes -/

namespace Quoted

/-- The character that is written as a backslash and `c`. -/
def unescape? (c : Char) : Option Char :=
  match c with
  | '"' => some '"'
  | '\\' => some '\\'
  | 'n' => some '\n'
  | 't' => some '\t'
  | 'r' => some '\r'
  | _ => none

/-- Reads up to the closing quote. -/
def readBody? : List Char → Option (List Char × List Char)
  | [] => none
  | '"' :: rest => some ([], rest)
  | '\\' :: c :: rest => do
    let first ← unescape? c
    let (text, rest) ← readBody? rest
    return (first :: text, rest)
  | c :: rest => do
    let (text, rest) ← readBody? rest
    return (c :: text, rest)

/-- Reads a text in quotes, and gives it with what comes after it. -/
def read? : List Char → Option (List Char × List Char)
  | '"' :: rest => readBody? rest
  | _ => none

theorem readBody?_escape (c : Char) (rest : List Char) :
    readBody? (escape c ++ rest) =
      (readBody? rest).map fun (text, after) => (c :: text, after) := by
  unfold escape
  split <;> cases h : readBody? rest <;> simp_all [readBody?, unescape?]

/-- A text in quotes tells what the text is and where it ends. -/
theorem read?_encode (text rest : List Char) : read? (encode text ++ rest) = some (text, rest) := by
  show readBody? ((text.flatMap escape ++ ['"']) ++ rest) = _
  induction text with
  | nil => rfl
  | cons c text ih =>
    rw [List.flatMap_cons, List.append_assoc, List.append_assoc, readBody?_escape,
      ← List.append_assoc, ih]
    rfl

example : read? "\"a\\\"b\\n\": null".toList = some ("a\"b\n".toList, ": null".toList) := by decide

end Quoted

end ScriptMachine
