import ScriptMachine.Places

/-!
# Case and blanks of byte strings

Only the ASCII letters have a case and only six bytes are blank; every other byte, part of a
longer character or not, is left alone.

Main definitions:
- `Ascii.lower`, `Ascii.upper`: letters in one case.
- `Ascii.start`, `Ascii.stop`: where two searches, one from either end, meet bytes that are not
  blank.
- `Ascii.strip`: what lies between.
-/

namespace ScriptMachine.Ascii

/-- Space, or one of tab, line feed, vertical tab, form feed and carriage return. -/
def isBlank (b : UInt8) : Bool :=
  b == 32 || (9 ≤ b && b ≤ 13)

/-- A capital letter made small. -/
def lowerByte (b : UInt8) : UInt8 :=
  if 65 ≤ b ∧ b ≤ 90 then b + 32 else b

/-- A small letter made capital. -/
def upperByte (b : UInt8) : UInt8 :=
  if 97 ≤ b ∧ b ≤ 122 then b - 32 else b

/-- The bytes with small letters only. -/
def lower (bytes : List UInt8) : List UInt8 :=
  bytes.map lowerByte

/-- The bytes with capital letters only. -/
def upper (bytes : List UInt8) : List UInt8 :=
  bytes.map upperByte

/-- Where a search from the front meets a byte that is not blank; the end if it meets none. -/
def start (bytes : List UInt8) : Nat :=
  (bytes.findIdx? fun b => !isBlank b).getD bytes.length

/-- The place after the byte where a search from the end meets one that is not blank; the other
search's place if it meets none. -/
def stop (bytes : List UInt8) : Nat :=
  match findLastIdx? (fun b => !isBlank b) bytes with
  | some place => place + 1
  | none => start bytes

/-- The bytes without blanks at the beginning and at the end. -/
def strip (bytes : List UInt8) : List UInt8 :=
  (bytes.take (stop bytes)).drop (start bytes)

example : strip [32, 9, 65, 32, 66, 11] = [65, 32, 66] := by decide
example : strip [32, 13] = [] := by decide

end ScriptMachine.Ascii
