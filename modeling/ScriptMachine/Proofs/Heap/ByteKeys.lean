import ScriptMachine.Proofs.Heap.Maps
import ScriptMachine.Proofs.Heap.Safety

/-!
# String keys by their bytes

A map is asked for a string key in two ways: by a string of the heap, which brings its hash along
and is compared as a value, or by bytes alone, which are hashed on the spot and compared with the
bytes of the keys. Both searches walk the same path and put every key on it to the test. The two
tests come out the same on every key there can be: a primitive, another kind of object with the
same hash, the string itself, an equal one, and a handle that leads nowhere.

Results:
1. `Heap.equal_string`, `Heap.hashOf_string`: the tests are one test, and the hashes one hash.
2. `Heap.lookup_string`: so the look-ups agree, in every heap and every table.
3. `Heap.lookupBytes_agrees`: an attribute of a map reads what the subscript with a string of its
   name reads.
-/

namespace ScriptMachine

theorem Reachable.foldl_act {tuning : Tuning} {heap : Heap}
    (hr : Reachable (fun _ op => op.MapsEmpty) tuning heap) (actions : List (HeapAction Value)) :
    Reachable (fun _ op => op.MapsEmpty) tuning
      (actions.foldl (fun heap action => (HeapOp.act action).after heap) heap) := by
  induction actions generalizing heap with
  | nil => exact hr
  | cons action actions ih => exact ih (hr.step fun _ halloc => by cases halloc)

namespace Heap

variable {heap : Heap} {m s : Handle} {table : Table Value Value} {string : ByteString}

/-! ## 1. The test and the hash -/

theorem hashOf_string (hs : heap.get? s = some (.string string)) :
    heap.hashOf (.object s) = .ok (some (hashBytes string.bytes)) :=
  hashOf_of_keyOf? (keyOf?_object.mpr ⟨string, hs, rfl⟩)

/-- To compare a key with a string is to compare its bytes with those of the string. -/
theorem equal_string (hs : heap.get? s = some (.string string)) (candidate : Value) :
    heap.equal candidate (.object s) =
      (do return (← heap.asString candidate).any (·.bytes == string.bytes)) := by
  cases candidate with
  | object h =>
    by_cases hh : h = s
    · -- The string itself is not read to be found equal, and reading it says the same.
      subst hh
      rw [asString_of_get? hs]
      simp [equal, bind, Except.bind, pure, Except.pure]
    · unfold equal
      dsimp only
      rw [if_neg hh, asString_of_get? hs]
      cases heap.asString (.object h) with
      | error fault => rfl
      | ok found =>
        cases found with
        | none => rfl
        | some other =>
          have hsame : other.sameContent string = (other.bytes == string.bytes) := by
            rw [Bool.eq_iff_iff, ByteString.sameContent_iff, beq_iff_eq]
          exact congrArg Except.ok hsame
  | _ => rfl

/-! ## 2. Look-ups -/

/-- The value of a string key is the value of its bytes. -/
theorem lookup_string (hs : heap.get? s = some (.string string)) (table : Table Value Value) :
    heap.lookup table (.object s) = heap.lookupBytes table string.bytes := by
  unfold lookup lookupBytes findKey
  rw [hashOf_string hs, funext (equal_string hs)]
  rfl

/-! ## 3. Attributes and subscripts -/

theorem getAttribute_map_eq_ok_iff (hm : heap.get? m = some (.map table)) (name : String)
    (v : Value) :
    heap.getAttribute (.object m) name = .ok v ↔
      heap.lookupBytes table (Utf8.encode name) = .ok (some v) := by
  unfold getAttribute
  dsimp only
  rw [liftM_bind_of_ok (get_eq_ok_iff.mpr hm)]
  dsimp only
  cases heap.lookupBytes table (Utf8.encode name) with
  | error fault => exact iff_of_false nofun nofun
  | ok found =>
    rw [liftM_bind_of_ok rfl]
    cases found with
    | none => exact iff_of_false nofun nofun
    | some value => simp [pure, Except.pure]

/-- A subscript of a map is read without a change to the heap. -/
theorem getSubscript_map_eq_ok_iff (hm : heap.get? m = some (.map table)) (key v : Value)
    (after : Heap) :
    getSubscript (.object m) key heap = .ok v after ↔
      heap.lookup table key = .ok (some v) ∧ after = heap := by
  have hread : Ends (getSubscript (.object m) key) heap
      ⟨fun value after => heap.lookup table key = .ok (some value) ∧ after = heap,
        fun _ _ => heap.lookup table key = .ok none,
        fun _ _ => ∀ value, heap.lookup table key ≠ .ok (some value)⟩ := by
    refine .get (.read_ok (get_eq_ok_iff.mpr hm) (.read (fun found hfound => ?_) fun f hf => ?_))
    · cases found with
      | some value => exact .pure ⟨hfound, rfl⟩
      | none =>
        refine .read (fun e _ => .throw hfound) fun f hf value => ?_
        rw [hfound]
        exact nofun
    · rw [hf]
      exact nofun
  unfold Ends at hread
  cases hend : getSubscript (.object m) key heap with
  | ok value last =>
    rw [hend] at hread
    obtain ⟨hfound, rfl⟩ := hread
    rw [hfound]
    constructor
    · rintro ⟨⟩
      exact ⟨rfl, rfl⟩
    · rintro ⟨⟨⟩, rfl⟩
      rfl
  | error e last =>
    rw [hend] at hread
    cases e with
    | error e => exact iff_of_false nofun fun h => by cases hread.symm.trans h.1
    | fault f => exact iff_of_false nofun fun h => hread v h.1

/-- For a map and a string, both of them anywhere in any heap: the look-up by the bytes of the
string is the look-up by the string. An attribute of the map reads what the subscript with a
string of its name reads, and where hosts hand in no tables of their own making, both look-ups
come to an answer. -/
theorem lookupBytes_agrees (hm : heap.get? m = some (.map table))
    (hs : heap.get? s = some (.string string)) :
    heap.lookupBytes table string.bytes = heap.lookup table (.object s) ∧
      (∀ name, string.bytes = Utf8.encode name → ∀ v after,
        getSubscript (.object m) (.object s) heap = .ok v after ↔
          heap.getAttribute (.object m) name = .ok v ∧ after = heap) ∧
      ∀ tuning, Reachable (fun _ op => op.MapsEmpty) tuning heap →
        ∃ found, heap.lookup table (.object s) = .ok found := by
  refine ⟨(lookup_string hs table).symm, fun name hname v after => ?_, fun tuning hr => ?_⟩
  · rw [getSubscript_map_eq_ok_iff hm, lookup_string hs, hname, getAttribute_map_eq_ok_iff hm]
  · obtain ⟨f, hf⟩ := hr.mapsProper m table hm
    exact ⟨_, lookup_eq hf (keyOf?_object.mpr ⟨string, hs, rfl⟩)⟩

/-- A map with two keys of one hash, `false` and a string, and a second string equal to the first
that is no key. -/
def sharedHash : Heap :=
  let map := Value.object ⟨0, 0⟩
  let key := Value.object ⟨1, 0⟩
  let actions : List (HeapAction Value) :=
    [.newMap, .newString (Utf8.encode "kkqjjgk"), .mapSet map (.bool false) .null,
      .mapSet map key (.bool true), .newString (Utf8.encode "kkqjjgk")]
  actions.foldl (fun heap action => (HeapOp.act action).after heap) (.empty .standard)

theorem lookupBytes_agrees_of_shared_hash :
    let map := Value.object ⟨0, 0⟩
    let equal := Value.object ⟨2, 0⟩
    let bytes := Utf8.encode "kkqjjgk"
    let hash := hashBytes bytes
    let table : Table Value Value :=
      ⟨#[.empty, .empty, .empty, .empty, .occupied (.bool false) .null hash,
        .occupied (.object ⟨1, 0⟩) (.bool true) hash, .empty, .empty], 2, 0⟩
    sharedHash.get? ⟨0, 0⟩ = some (.map table) ∧
      sharedHash.get? ⟨2, 0⟩ = some (.string (.ofBytes bytes)) ∧
      sharedHash.lookupBytes table bytes = sharedHash.lookup table equal ∧
      sharedHash.getAttribute map "kkqjjgk" = .ok (.bool true) ∧
      getSubscript map equal sharedHash = .ok (.bool true) sharedHash ∧
      ∃ found, sharedHash.lookup table equal = .ok found := by
  intro map equal bytes hash table
  have hr : Reachable (fun _ op => op.MapsEmpty) .standard sharedHash := .foldl_act .start _
  have hm : sharedHash.get? ⟨0, 0⟩ = some (.map table) := by decide +kernel
  have hs : sharedHash.get? ⟨2, 0⟩ = some (.string (.ofBytes bytes)) := by decide +kernel
  have hread : sharedHash.getAttribute map "kkqjjgk" = .ok (.bool true) := by decide +kernel
  obtain ⟨hagree, hsubscript, hanswer⟩ := lookupBytes_agrees hm hs
  exact ⟨hm, hs, hagree, hread, (hsubscript "kkqjjgk" rfl _ _).mpr ⟨hread, rfl⟩, hanswer _ hr⟩

end Heap

end ScriptMachine
