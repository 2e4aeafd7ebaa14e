/-!
# Growable sequences

A buffer owns room for more elements than it holds. How much room matters, because the heap counts
it: a buffer that is full doubles, a buffer made for known elements has no slack, and no operation
gives room back.

Main definitions:
- `Buffer`: elements with a capacity that holds them.
- `Buffer.grow`: the capacity after asking for room.
- `Buffer.push`, `Buffer.append`, `Buffer.pop`, `Buffer.truncate`, `Buffer.set`.
-/

namespace ScriptMachine

/-- A sequence of elements and the number of places set aside for them. -/
structure Buffer (α : Type) where
  items : Array α
  capacity : Nat
  fits : items.size ≤ capacity
deriving DecidableEq

namespace Buffer

variable {α : Type}

/-- A buffer with nothing set aside. -/
def empty : Buffer α :=
  ⟨#[], 0, Nat.le_refl 0⟩

/-- An empty buffer with room for `n` elements. -/
def withCapacity (n : Nat) : Buffer α :=
  ⟨#[], n, Nat.zero_le n⟩

/-- Exactly these elements, and no room for more. -/
def ofList (xs : List α) : Buffer α :=
  ⟨xs.toArray, xs.length, by simp⟩

instance : Inhabited (Buffer α) := ⟨empty⟩

/-- The elements in order. -/
def toList (b : Buffer α) : List α :=
  b.items.toList

/-- How many elements there are. -/
def size (b : Buffer α) : Nat :=
  b.items.size

/-- The capacity that makes room for `needed` elements: the present one if it does, else at least
twice as much, and never less than four places. -/
def grow (capacity needed : Nat) : Nat :=
  if needed ≤ capacity then capacity else max (max (2 * capacity) needed) 4

theorem le_grow (capacity needed : Nat) : needed ≤ grow capacity needed := by
  unfold grow
  split <;> omega

example : grow 4 5 = 8 := by decide
example : grow 0 1 = 4 := by decide
example : grow 4 9 = 9 := by decide

/-- Adds an element at the end. -/
def push (b : Buffer α) (x : α) : Buffer α :=
  ⟨b.items.push x, grow b.capacity (b.items.size + 1), by
    rw [Array.size_push]
    exact le_grow _ _⟩

/-- Adds elements at the end, asking for all their room at once. -/
def append (b : Buffer α) (xs : List α) : Buffer α :=
  ⟨b.items ++ xs.toArray, grow b.capacity (b.items.size + xs.length), by
    rw [Array.size_append, List.size_toArray]
    exact le_grow _ _⟩

/-- Removes the last element, if there is one. -/
def pop (b : Buffer α) : Buffer α :=
  ⟨b.items.pop, b.capacity, by
    have fits := b.fits
    simp only [Array.size_pop]
    omega⟩

/-- Keeps the first `n` elements. -/
def truncate (b : Buffer α) (n : Nat) : Buffer α :=
  ⟨b.items.extract 0 n, b.capacity, by
    have fits := b.fits
    simp only [Array.size_extract]
    omega⟩

/-- Overwrites the element at `i`, if there is one. -/
def set (b : Buffer α) (i : Nat) (x : α) : Buffer α :=
  ⟨b.items.setIfInBounds i x, b.capacity, by
    rw [Array.size_setIfInBounds]
    exact b.fits⟩

/-- The element at `i`, if there is one. -/
def get? (b : Buffer α) (i : Nat) : Option α :=
  b.items[i]?

/-- The last element, if there is one. -/
def back? (b : Buffer α) : Option α :=
  b.items.back?

/-! ## The view as a list -/

@[simp] theorem toList_empty : (empty : Buffer α).toList = [] := rfl

@[simp] theorem toList_ofList (xs : List α) : (ofList xs).toList = xs := rfl

@[simp] theorem toList_push (b : Buffer α) (x : α) : (b.push x).toList = b.toList ++ [x] := by
  simp [push, toList]

@[simp] theorem toList_append (b : Buffer α) (xs : List α) :
    (b.append xs).toList = b.toList ++ xs := by
  simp [append, toList]

@[simp] theorem toList_truncate (b : Buffer α) (n : Nat) :
    (b.truncate n).toList = b.toList.take n := by
  simp [truncate, toList]

@[simp] theorem toList_pop (b : Buffer α) : b.pop.toList = b.toList.dropLast := by
  simp [pop, toList]

@[simp] theorem toList_set (b : Buffer α) (i : Nat) (x : α) :
    (b.set i x).toList = b.toList.set i x := by
  simp [set, toList]

@[simp] theorem getElem?_toList (b : Buffer α) (i : Nat) : b.toList[i]? = b.get? i := by
  simp [get?, toList]

end Buffer

end ScriptMachine
