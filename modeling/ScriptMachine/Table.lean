/-!
# Hash tables by linear probing

A table is a circle of slots. An entry stands at the first usable slot at or after its home slot,
the one its hash names. Removing an entry leaves a tombstone, so that entries which were pushed
past it are still found; a rebuild drops the tombstones.

The table knows hashes and nothing of equality: the caller of `findM` brings the test of keys,
which may itself fail.

Main definitions:
- `Table`, `Table.Slot`: slots with the counts of entries and tombstones.
- `Table.findM`, `Table.find?`: the slot of a key.
- `Table.insertNew`, `Table.setValueAt`, `Table.removeAt`: the three writes.
- `Table.entries`: the content in slot order, and `Table.nextOccupied?`, a step along it.
-/

namespace ScriptMachine

/-- One place of a table. -/
inductive Table.Slot (κ ν : Type) where
  | empty
  | tombstone
  | occupied (key : κ) (value : ν) (hash : UInt32)
deriving DecidableEq, Inhabited

/-- A circle of slots. The counts are kept so that the load is known without a walk. -/
structure Table (κ ν : Type) where
  slots : Array (Table.Slot κ ν)
  count : Nat
  tombstones : Nat
deriving DecidableEq

namespace Table

variable {κ ν : Type}

/-- A slot's key and value, if it has them. -/
def Slot.entry? : Slot κ ν → Option (κ × ν)
  | .occupied key value _ => some (key, value)
  | .empty | .tombstone => none

/-- Whether a probe ends here without having found its key. -/
def Slot.isEmpty : Slot κ ν → Bool
  | .empty => true
  | .tombstone | .occupied .. => false

/-- Whether an entry is here. -/
def Slot.isOccupied : Slot κ ν → Bool
  | .occupied .. => true
  | .empty | .tombstone => false

/-! ## Reading -/

/-- A table without slots. -/
def empty : Table κ ν :=
  ⟨#[], 0, 0⟩

instance : Inhabited (Table κ ν) := ⟨empty⟩

/-- The number of slots, occupied or not. -/
def capacity (t : Table κ ν) : Nat :=
  t.slots.size

/-- Whether there is no entry. -/
def isEmpty (t : Table κ ν) : Bool :=
  t.count == 0

/-- The slot where a probe for `hash` begins. -/
def home (capacity : Nat) (hash : UInt32) : Nat :=
  hash.toNat % capacity

/-- The slot after `index` on the circle. -/
def next (capacity index : Nat) : Nat :=
  (index + 1) % capacity

/-- Walks at most `steps` slots from `index` in search of a key with this hash that passes the
test. -/
def probeM {m : Type → Type} [Monad m] (t : Table κ ν) (hash : UInt32) (test : κ → m Bool) :
    Nat → Nat → m (Option Nat)
  | 0, _ => pure none
  | steps + 1, index =>
    match t.slots[index]? with
    | none | some .empty => pure none
    | some .tombstone => probeM t hash test steps (next t.capacity index)
    | some (.occupied key _ stored) =>
      if stored = hash then do
        if ← test key then
          pure (some index)
        else
          probeM t hash test steps (next t.capacity index)
      else
        probeM t hash test steps (next t.capacity index)

/-- The slot of the first key on the probe path that has this hash and passes the test. Only keys
with the hash are tested. -/
def findM {m : Type → Type} [Monad m] (t : Table κ ν) (hash : UInt32) (test : κ → m Bool) :
    m (Option Nat) :=
  probeM t hash test t.capacity (home t.capacity hash)

/-- The search with a test that cannot fail. -/
def find? (t : Table κ ν) (hash : UInt32) (test : κ → Bool) : Option Nat :=
  findM (m := Id) t hash test

/-- The value at a slot, if an entry is there. -/
def valueAt? (t : Table κ ν) (index : Nat) : Option ν :=
  match t.slots[index]? with
  | some (.occupied _ value _) => some value
  | _ => none

/-- The keys and values in slot order. -/
def entries (t : Table κ ν) : List (κ × ν) :=
  t.slots.toList.filterMap Slot.entry?

/-- The first occupied slot of a list of slots that starts at slot `index`, with its key. -/
def firstOccupied? (index : Nat) : List (Slot κ ν) → Option (Nat × κ)
  | [] => none
  | .occupied key _ _ :: _ => some (index, key)
  | .empty :: rest | .tombstone :: rest => firstOccupied? (index + 1) rest

/-- The first occupied slot at or after `start`, with its key. -/
def nextOccupied? (t : Table κ ν) (start : Nat) : Option (Nat × κ) :=
  firstOccupied? start (t.slots.toList.drop start)

/-! ## Writing -/

/-- The least capacity of a table that has slots. -/
def minCapacity : Nat := 8

/-- The share of slots, in percent, that may be occupied or tombstones. -/
def maxLoad : Nat := 75

/-- Walks at most `steps` slots from `index` to the first without an entry. -/
def vacancyFrom (slots : Array (Slot κ ν)) : Nat → Nat → Option Nat
  | 0, _ => none
  | steps + 1, index =>
    match slots[index]? with
    | none => none
    | some .empty | some .tombstone => some index
    | some (.occupied ..) => vacancyFrom slots steps (next slots.size index)

/-- The slot that a new entry with this hash takes. -/
def vacancy? (slots : Array (Slot κ ν)) (hash : UInt32) : Option Nat :=
  vacancyFrom slots slots.size (home slots.size hash)

/-- Puts an occupied slot where its hash wants it. -/
def place (slots : Array (Slot κ ν)) (slot : Slot κ ν) : Array (Slot κ ν) :=
  match slot with
  | .occupied _ _ hash =>
    match vacancy? slots hash with
    | some index => slots.setIfInBounds index slot
    | none => slots
  | .empty | .tombstone => slots

/-- Moves the entries, in slot order, to a fresh circle of the given capacity. -/
def rehash (t : Table κ ν) (capacity : Nat) : Table κ ν :=
  ⟨t.slots.foldl place (Array.replicate capacity .empty), t.count, 0⟩

/-- The least power of two that is at least `n`. -/
def powerAtLeast (n : Nat) : Nat :=
  if n ≤ 1 then 1 else 1 <<< ((n - 1).log2 + 1)

example : (List.range 10).map powerAtLeast = [1, 1, 2, 4, 4, 8, 8, 8, 8, 16] := by decide +kernel

/-- The capacity of a rebuild that makes room for one more entry: a power of two that keeps the
load below the limit. Tombstones do not count, so a rebuild may shrink the table. -/
def roomyCapacity (count : Nat) : Nat :=
  max (powerAtLeast ((count + 1) * 100 / maxLoad + 1)) minCapacity

/-- Makes room for one more entry. Tombstones take up room until a rebuild. -/
def reserveOne (t : Table κ ν) : Table κ ν :=
  if (t.count + t.tombstones + 1) * 100 ≤ t.capacity * maxLoad then t
  else t.rehash (roomyCapacity t.count)

/-- Adds an entry without looking whether the key is there already. -/
def insertNew (t : Table κ ν) (key : κ) (hash : UInt32) (value : ν) : Table κ ν :=
  let t := t.reserveOne
  match vacancy? t.slots hash with
  | none => t
  | some index =>
    let reused := match t.slots[index]? with
      | some .tombstone => 1
      | _ => 0
    ⟨t.slots.setIfInBounds index (.occupied key value hash), t.count + 1, t.tombstones - reused⟩

/-- Overwrites the value at a slot, if an entry is there. -/
def setValueAt (t : Table κ ν) (index : Nat) (value : ν) : Table κ ν :=
  match t.slots[index]? with
  | some (.occupied key _ hash) =>
    { t with slots := t.slots.setIfInBounds index (.occupied key value hash) }
  | _ => t

/-- Removes the entry at a slot and gives its value, if an entry is there. -/
def removeAt (t : Table κ ν) (index : Nat) : Option ν × Table κ ν :=
  match t.valueAt? index with
  | none => (none, t)
  | some value =>
    (some value, ⟨t.slots.setIfInBounds index .tombstone, t.count - 1, t.tombstones + 1⟩)

example : ((empty : Table Nat Nat).insertNew 7 3 70).slots[3]? = some (.occupied 7 70 3) := by
  decide +kernel

end Table

end ScriptMachine
