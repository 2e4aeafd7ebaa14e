/-!
# Reading UTF-8

Strings are byte strings and need not be valid text. A machine reads them one byte at a time; a
byte that cannot continue the sequence begun ends it as malformed and is then read afresh, so each
malformed stretch is as long as a well-formed sequence could have begun, and no longer.

Main definitions:
- `Utf8.scan`: one item per character or malformed stretch.
- `Utf8.decodeLossy`: malformed stretches read as U+FFFD.
- `Utf8.decode?`: the characters of valid text only.
- `Utf8.encode`: the bytes of characters.
-/

namespace ScriptMachine.Utf8

/-- A sequence that has begun: the bits gathered, how many bytes are owed, and the range of the
next one. Only the byte after the first has a range of its own, which shuts out overlong forms,
surrogates and code points past the last. -/
structure Pending where
  code : Nat
  owed : Nat
  low : UInt8
  high : UInt8
deriving DecidableEq, Repr

/-- What reading one byte brings: finished items, and the sequence left open. `none` among the
items is a malformed stretch. -/
structure Step where
  items : List (Option Char)
  pending : Option Pending
deriving DecidableEq, Repr

/-- Reads the first byte of a sequence. -/
def first (b : UInt8) : Step :=
  let begun (bits owed : Nat) (low high : UInt8) : Step :=
    ⟨[], some ⟨bits, owed, low, high⟩⟩
  if b < 0x80 then ⟨[some (Char.ofNat b.toNat)], none⟩
  else if b < 0xC2 then ⟨[none], none⟩
  else if b < 0xE0 then begun (b.toNat - 0xC0) 1 0x80 0xBF
  else if b = 0xE0 then begun 0 2 0xA0 0xBF
  else if b = 0xED then begun 0xD 2 0x80 0x9F
  else if b < 0xF0 then begun (b.toNat - 0xE0) 2 0x80 0xBF
  else if b = 0xF0 then begun 0 3 0x90 0xBF
  else if b < 0xF4 then begun (b.toNat - 0xF0) 3 0x80 0xBF
  else if b = 0xF4 then begun 4 3 0x80 0x8F
  else ⟨[none], none⟩

/-- Reads one byte. -/
def step (pending : Option Pending) (b : UInt8) : Step :=
  match pending with
  | none => first b
  | some p =>
    if p.low ≤ b ∧ b ≤ p.high then
      let code := p.code * 64 + (b.toNat - 0x80)
      if p.owed ≤ 1 then ⟨[some (Char.ofNat code)], none⟩
      else ⟨[], some ⟨code, p.owed - 1, 0x80, 0xBF⟩⟩
    else
      let fresh := first b
      ⟨none :: fresh.items, fresh.pending⟩

/-- Reads bytes after an open sequence. One left open at the end is malformed. -/
def scanFrom : Option Pending → List UInt8 → List (Option Char)
  | none, [] => []
  | some _, [] => [none]
  | pending, b :: rest => (step pending b).items ++ scanFrom (step pending b).pending rest

/-- The characters and malformed stretches of a byte string, in order. -/
def scan (bytes : List UInt8) : List (Option Char) :=
  scanFrom none bytes

/-- The character that stands for a malformed stretch. -/
def replacement : Char := '\uFFFD'

/-- Reads any byte string as text. -/
def decodeLossy (bytes : List UInt8) : List Char :=
  (scan bytes).map (·.getD replacement)

/-- The text of a byte string that is valid UTF-8. -/
def decode? (bytes : List UInt8) : Option (List Char) :=
  (scan bytes).mapM id

/-- The bytes of a text. -/
def encode (text : String) : List UInt8 :=
  text.toUTF8.data.toList

example : scan [0x61, 0xE2, 0x82, 0xAC] = [some 'a', some '€'] := by decide
-- Three bytes of a four-byte sequence are one stretch; a surrogate is three.
example : scan [0xF0, 0x9F, 0x98, 0x61] = [none, some 'a'] := by decide
example : scan [0xED, 0xA0, 0x80] = [none, none, none] := by decide
example : scan [0xE2, 0x82] = [none] := by decide

end ScriptMachine.Utf8
