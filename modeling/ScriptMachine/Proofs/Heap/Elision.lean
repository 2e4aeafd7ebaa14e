import Mathlib.Logic.Relation
import ScriptMachine.Proofs.Heap.Safety

/-!
# What is elided in a text

A text has a place for every value that its writing comes to, and a place is inside the containers
that the writing entered on its way there. A container is elided at the places that are inside
itself and nowhere else. So a container that occurs many times without being inside itself is
written in full at each of its places, and each time with the text that it has on its own: an
enclosing container that this text would have to elide would be inside it, and it inside that.

Main definitions:
- `Heap.Shows`, `Heap.Nested`: what stands in a container, directly and at any depth.
- `Heap.Occurs`: the places of a text.
- `Heap.WrittenAs`: all that is promised about the text of a value.

Results:
1. `Heap.Occurs.nested`: whatever encloses a place is a container that the value there is inside
   of.
2. `renderIn_congr`: the text inside some containers depends on those only that are inside the
   value.
3. `Heap.NoDangling.writtenAs`: the text of a value, where no handle is dangling.
-/

namespace ScriptMachine

/-! ## 1. Places -/

namespace Heap

/-- `heap.Shows h v`: the value `v` stands in the list or the map behind `h`. -/
inductive Shows (heap : Heap) (h : Handle) : Value → Prop
  | element {elements : Buffer Value} {v : Value} :
      heap.get? h = some (.list elements) → v ∈ elements.toList → Shows heap h v
  | key {table : Table Value Value} {key value : Value} :
      heap.get? h = some (.map table) → (key, value) ∈ table.entries → Shows heap h key
  | value {table : Table Value Value} {key value : Value} :
      heap.get? h = some (.map table) → (key, value) ∈ table.entries → Shows heap h value

/-- `heap.Nested h k`: the object behind `k` is in the container behind `h`, at some depth. -/
def Nested (heap : Heap) : Handle → Handle → Prop :=
  Relation.TransGen fun h k => heap.Shows h (.object k)

/-- `heap.Occurs v enclosing w`: the text of `v` has a place for `w` inside the containers
`enclosing`, the innermost first. There are no places in a container that is elided. -/
inductive Occurs (heap : Heap) (v : Value) : List Handle → Value → Prop
  | whole : Occurs heap v [] v
  | inside {enclosing : List Handle} {h : Handle} {w : Value} :
      Occurs heap v enclosing (.object h) → h ∉ enclosing → heap.Shows h w →
      Occurs heap v (h :: enclosing) w

variable {heap : Heap} {v : Value} {enclosing : List Handle}

/-- A value is inside every container that encloses its place. -/
theorem Occurs.nested {h k : Handle} (ho : heap.Occurs v enclosing (.object k))
    (hh : h ∈ enclosing) : heap.Nested h k := by
  generalize hw : Value.object k = w at ho
  induction ho generalizing k with
  | whole => cases hh
  | @inside enclosing h' w hout hnew hshows ih =>
    subst hw
    rcases List.mem_cons.mp hh with rfl | hh
    · exact .single hshows
    · exact .tail (ih hh rfl) hshows

/-- A container that is not inside itself is not elided anywhere. -/
theorem Occurs.not_mem {h : Handle} (ho : heap.Occurs v enclosing (.object h))
    (hself : ¬ heap.Nested h h) : h ∉ enclosing :=
  fun hh => hself (ho.nested hh)

end Heap

/-! ## 2. Which enclosing containers matter -/

theorem mapM_congr_of_mem {α β ε : Type} {l : List α} {f g : α → Except ε β}
    (hfg : ∀ a ∈ l, f a = g a) : l.mapM f = l.mapM g := by
  induction l with
  | nil => rfl
  | cons a l ih =>
    rw [List.mapM_cons, List.mapM_cons, hfg a List.mem_cons_self,
      ih fun b hb => hfg b (List.mem_cons_of_mem _ hb)]

/-- The text of an object depends on the texts of what stands in it. -/
theorem objectText_congr {heap : Heap} {h : Handle} {o : Object} (ho : heap.get? h = some o)
    {render render' : Value → Except Fault (List Char)} (inside quoted : Bool)
    (hr : inside = false → ∀ v, heap.Shows h v → render v = render' v) :
    objectText render inside quoted o = objectText render' inside quoted o := by
  cases inside with
  | true => cases o <;> rfl
  | false =>
    cases o with
    | list elements =>
      rw [objectText, objectText, mapM_congr_of_mem fun v hv => hr rfl v (.element ho hv)]
    | map table =>
      have hentry : ∀ e ∈ table.entries, entryText render e = entryText render' e := by
        intro e he
        rw [entryText, entryText, hr rfl e.1 (.key ho he), hr rfl e.2 (.value ho he)]
      rw [objectText, objectText, mapM_congr_of_mem hentry]
    | _ => rfl

/-- The text of an object is the same inside other containers, if those have in common what they
have of the object itself and of what is inside it. The induction is on the number of objects that
the rendering is not inside of. -/
theorem renderIn_congr {heap : Heap} {enclosing enclosing' : List Handle} {h : Handle}
    (hself : h ∈ enclosing ↔ h ∈ enclosing')
    (hin : ∀ k, heap.Nested h k → (k ∈ enclosing ↔ k ∈ enclosing')) (quoted : Bool) :
    renderIn heap enclosing quoted (.object h) = renderIn heap enclosing' quoted (.object h) := by
  induction hn : (heap.outside enclosing).length using Nat.strongRecOn
    generalizing enclosing enclosing' quoted h with
  | ind n ih =>
    subst hn
    rw [renderIn_object, renderIn_object]
    cases hget : heap.get h with
    | error fault => rfl
    | ok o =>
      have ho := Heap.get_eq_ok_iff.mp hget
      show objectText _ _ quoted o = objectText _ _ quoted o
      rw [decide_eq_decide.mpr hself]
      refine objectText_congr ho _ quoted fun hout v hv => ?_
      have hnew : h ∉ enclosing := by
        rw [hself]
        exact of_decide_eq_false hout
      cases v with
      | object k =>
        refine ih _ (Heap.length_outside_cons ho hnew) ?_ (fun j hj => ?_) true rfl
        · simp only [List.mem_cons, hin k (.single hv)]
        · simp only [List.mem_cons, hin j (.head hv hj)]
      | _ => simp only [renderIn]

/-- What is not inside itself has the same text at all of its places. -/
theorem Heap.Occurs.renderIn_eq {heap : Heap} {v : Value} {enclosing : List Handle} {h : Handle}
    (ho : heap.Occurs v enclosing (.object h)) (hself : ¬ heap.Nested h h) (quoted : Bool) :
    renderIn heap enclosing quoted (.object h) = renderIn heap [] quoted (.object h) := by
  refine renderIn_congr ?_ (fun k hk => ?_) quoted
  · simp [ho.not_mem hself]
  · have hout : k ∉ enclosing := fun hmem => hself (hk.trans (ho.nested hmem))
    simp [hout]

/-! ## 3. The text of a value -/

namespace Heap

/-- All that is promised about the text of a value. -/
structure WrittenAs (heap : Heap) (v : Value) (quoted : Bool) (text : List Char) : Prop where
  /-- It is the text inside no container. -/
  rendered : renderIn heap [] quoted v = .ok text ∧ heap.render v quoted = .ok (String.ofList text)
  /-- On every page, the writing adds the text inside the containers of the page, and leaves the
  stack as it found it. -/
  balanced : ∀ (inside : List Handle) (page : Page inside), ∃ added,
    renderIn heap page.visiting quoted v = .ok added ∧
    ∃ after, (writeValue heap v quoted).run page = .ok ((), after) ∧
      after.text = page.text ++ String.ofList added ∧ after.visiting = page.visiting
  /-- A list is elided inside itself, and has its elements in full anywhere else. -/
  list : ∀ enclosing repr h elements, heap.get? h = some (.list elements) → ∃ texts,
    elements.toList.mapM (renderIn heap (h :: enclosing) true) = .ok texts ∧
    renderIn heap enclosing repr (.object h) =
      .ok (if h ∈ enclosing then "[...]".toList else bracketed '[' ']' texts)
  /-- So is a map, which has its entries in slot order. -/
  map : ∀ enclosing repr h table, heap.get? h = some (.map table) → ∃ texts,
    table.entries.mapM (entryText (renderIn heap (h :: enclosing) true)) = .ok texts ∧
    renderIn heap enclosing repr (.object h) =
      .ok (if h ∈ enclosing then "\x7b...\x7d".toList else bracketed '\x7b' '\x7d' texts)
  /-- What is not inside itself is elided at none of its places, and has the text there that it has
  on its own. -/
  shared : ∀ enclosing h, heap.Occurs v enclosing (.object h) → ¬ heap.Nested h h →
    h ∉ enclosing ∧
      ∀ repr, renderIn heap enclosing repr (.object h) = renderIn heap [] repr (.object h)

variable {heap : Heap}

theorem renderIn_list (hd : heap.NoDangling) (enclosing : List Handle) (quoted : Bool) {h : Handle}
    {elements : Buffer Value} (hl : heap.get? h = some (.list elements)) : ∃ texts,
    elements.toList.mapM (renderIn heap (h :: enclosing) true) = .ok texts ∧
    renderIn heap enclosing quoted (.object h) =
      .ok (if h ∈ enclosing then "[...]".toList else bracketed '[' ']' texts) := by
  obtain ⟨texts, ht⟩ := mapM_ok fun v hv =>
    renderIn_ok hd (h :: enclosing) true (hd.has_element hl hv)
  refine ⟨texts, ht, ?_⟩
  rw [renderIn_object, get_eq_ok_iff.mpr hl]
  show objectText _ _ quoted (.list elements) = _
  rw [objectText, ht]
  by_cases hin : h ∈ enclosing <;> simp only [hin] <;> rfl

theorem renderIn_map (hd : heap.NoDangling) (enclosing : List Handle) (quoted : Bool) {h : Handle}
    {table : Table Value Value} (ht : heap.get? h = some (.map table)) : ∃ texts,
    table.entries.mapM (entryText (renderIn heap (h :: enclosing) true)) = .ok texts ∧
    renderIn heap enclosing quoted (.object h) =
      .ok (if h ∈ enclosing then "\x7b...\x7d".toList else bracketed '\x7b' '\x7d' texts) := by
  obtain ⟨texts, htexts⟩ := mapM_ok fun e he =>
    entryText_ok (renderIn_ok hd (h :: enclosing) true (hd.has_key ht he))
      (renderIn_ok hd (h :: enclosing) true (hd.has_value ht he))
  refine ⟨texts, htexts, ?_⟩
  rw [renderIn_object, get_eq_ok_iff.mpr ht]
  show objectText _ _ quoted (.map table) = _
  rw [objectText, htexts]
  by_cases hin : h ∈ enclosing <;> simp only [hin] <;> rfl

/-- Where no handle is dangling, whatever is shared there and whatever is inside itself, the text
of a value is all that it is promised to be. -/
theorem NoDangling.writtenAs (hd : heap.NoDangling) {v : Value} (hv : heap.Has v)
    (quoted : Bool) : ∃ text, heap.WrittenAs v quoted text := by
  obtain ⟨text, ht⟩ := renderIn_ok hd [] quoted hv
  refine ⟨text, ⟨ht, ?_⟩, fun inside page => ?_, ?_, ?_, ?_⟩
  · rw [render_eq, ht]
    rfl
  · obtain ⟨added, hadded⟩ := renderIn_ok hd inside quoted hv
    have hwrites := writeValue_writes heap inside quoted v page
    rw [hadded] at hwrites
    exact ⟨added, page.visiting_eq.symm ▸ hadded, _, hwrites, rfl, rfl⟩
  · exact fun enclosing repr h elements hl => renderIn_list hd enclosing repr hl
  · exact fun enclosing repr h table hm => renderIn_map hd enclosing repr hm
  · exact fun enclosing h ho hself => ⟨ho.not_mem hself, ho.renderIn_eq hself⟩

/-- A list with itself and, twice, with another list in it. -/
def tangle : Heap :=
  { empty .standard with
    cells := #[
      ⟨0, some ⟨.list (.ofList [.object ⟨0, 0⟩, .object ⟨1, 0⟩, .object ⟨1, 0⟩]), 0, false⟩⟩,
      ⟨0, some ⟨.list (.ofList [.null]), 0, false⟩⟩] }

/-- The list is elided inside itself, and the list that it has twice is written twice. -/
theorem NoDangling.writtenAs_of_tangle : tangle.NoDangling ∧ tangle.Has (.object ⟨0, 0⟩) ∧
    tangle.WrittenAs (.object ⟨0, 0⟩) false "[[...], [null], [null]]".toList := by
  have hd : tangle.NoDangling := by decide
  have hv : tangle.Has (.object ⟨0, 0⟩) := has_object.mpr (by decide)
  have houter : tangle.get ⟨0, 0⟩ =
      .ok (.list (.ofList [.object ⟨0, 0⟩, .object ⟨1, 0⟩, .object ⟨1, 0⟩])) := rfl
  have hinner : tangle.get ⟨1, 0⟩ = .ok (.list (.ofList [.null])) := rfl
  have htext : renderIn tangle [] false (.object ⟨0, 0⟩) =
      .ok "[[...], [null], [null]]".toList := by
    simp [renderIn_object, houter, hinner, objectText, bracketed, renderIn, bind, Except.bind,
      pure, Except.pure]
  obtain ⟨text, ht⟩ := NoDangling.writtenAs hd hv false
  obtain rfl : text = "[[...], [null], [null]]".toList := by
    simpa using ht.rendered.1.symm.trans htext
  exact ⟨hd, hv, ht⟩

end Heap

end ScriptMachine
