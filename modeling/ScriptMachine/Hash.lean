/-!
# Content hashes

Two hashes feed the tables: one of byte strings, one of the 64-bit patterns of the other keys.
Both are fixed functions of the content, so a key hashes alike in every run.

Main definitions:
- `hashBytes`: FNV-1a over 32 bits.
- `hashWord`: an integer mix, cut to 30 bits.
-/

namespace ScriptMachine

/-- FNV-1a: each byte is mixed in by exclusive or, then the state is multiplied by the prime. -/
def hashBytes (bytes : List UInt8) : UInt32 :=
  bytes.foldl (fun state byte => (state ^^^ byte.toUInt32) * 16777619) 2166136261

example : hashBytes [] = 2166136261 := by decide
example : hashBytes [0x61] = 0xE40C292C := by decide

/-- Mixes a 64-bit pattern by shifts, additions and one multiplication, and keeps 30 bits. -/
def hashWord (bits : UInt64) : UInt32 :=
  let a := ~~~bits + bits <<< 18
  let b := (a ^^^ a >>> 31) * 21
  let c := b ^^^ b >>> 11
  let d := c + c <<< 6
  ((d ^^^ d >>> 22) &&& 0x3FFFFFFF).toUInt32

end ScriptMachine
