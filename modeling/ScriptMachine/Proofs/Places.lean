import ScriptMachine.Places

/-!
# Searches and what they take out

A search finds an element that passes its test, and on the side it came from there is no other. So a
list in which something passes can be cut at what the search finds, and what is taken out there
leaves the rest, in another order.

Results:
1. `findIdx?_append_cons`, `findLastIdx?_append_cons`: what both searches find.
2. `swapRemove_perm`: all but the one that is taken out stay.
-/

namespace ScriptMachine

variable {α : Type} {p : α → Bool}

theorem findIdx?_append_cons {front back : List α} {x : α} (hx : p x = true)
    (hfront : ∀ y ∈ front, p y = false) :
    (front ++ x :: back).findIdx? p = some front.length := by
  have hhere : (x :: back).findIdx? p = some 0 := by
    rw [List.findIdx?_cons, if_pos hx]
  rw [List.findIdx?_append, List.findIdx?_eq_none_iff.mpr hfront, hhere]
  simp

theorem findLastIdx?_append_cons {front back : List α} {x : α} (hx : p x = true)
    (hback : ∀ y ∈ back, p y = false) :
    findLastIdx? p (front ++ x :: back) = some front.length := by
  have hpassed : (front ++ x :: back).reverse.findIdx? p = some back.reverse.length := by
    rw [List.reverse_append, List.reverse_cons, List.append_assoc]
    exact findIdx?_append_cons hx fun y hy => hback y (List.mem_reverse.mp hy)
  rw [findLastIdx?, hpassed, Option.map_some, List.length_append, List.length_cons,
    List.length_reverse]
  congr 1
  omega

theorem findLastIdx?_eq_none {l : List α} (h : ∀ x ∈ l, p x = false) :
    findLastIdx? p l = none := by
  rw [findLastIdx?, List.findIdx?_eq_none_iff.mpr fun x hx => h x (List.mem_reverse.mp hx)]
  rfl

/-- A list that holds `x` can be cut at the last `x`. -/
theorem exists_last_of_mem {l : List α} {x : α} (hx : x ∈ l) :
    ∃ front back, l = front ++ x :: back ∧ x ∉ back := by
  obtain ⟨back, front, hcut, hnot⟩ := List.eq_append_cons_of_mem (List.mem_reverse.mpr hx)
  refine ⟨front.reverse, back.reverse, ?_, mt List.mem_reverse.mp hnot⟩
  rw [← l.reverse_reverse, hcut]
  simp

/-- What is taken out is one element, at its place. -/
theorem swapRemove_perm (front back : List α) (x : α) :
    (swapRemove (front ++ x :: back) front.length).Perm (front ++ back) := by
  rcases List.eq_nil_or_concat back with rfl | ⟨rest, last, rfl⟩
  · simp [swapRemove]
  · -- The last element comes to stand before the others that were behind `x`.
    have hcut : front ++ x :: rest.concat last = (front ++ x :: rest) ++ [last] := by simp
    have hmoved : swapRemove (front ++ x :: rest.concat last) front.length =
        front ++ last :: rest := by
      have hset : ((front ++ x :: rest) ++ [last]).set front.length last =
          (front ++ last :: rest) ++ [last] := by simp
      rw [swapRemove, hcut, List.getLast?_concat]
      dsimp only
      rw [hset, List.dropLast_concat]
    rw [hmoved, List.concat_eq_append]
    exact (List.perm_append_singleton last rest).symm.append_left front

end ScriptMachine
