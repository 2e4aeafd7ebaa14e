import Mathlib.Data.List.Forall2
import ScriptMachine.Proofs.Heap.Elision
import ScriptMachine.Proofs.Text.Reading

/-!
# The text of plain data

Plain data is null, booleans, strings that are valid text, and lists and maps of plain data that
are not inside themselves. Its quoted text says all there is to say about it. The strings in it may
contain the brackets and commas that stand around them: each is written in quotes and ends at its
own closing quote, and so every part of the text tells where it ends.

Main definitions:
- `Datum`, `Datum.text`: plain data as a tree, and its text.
- `SelfDelimiting`: a text that tells what it stands for and where it ends.
- `Heap.PlainData`, `Heap.Denotes`: values that are plain data, and the trees that they are.

Results:
1. `SelfDelimiting.bracketed`, `Datum.selfDelimiting_text`: the text of a tree tells which tree it
   is and where it ends.
2. `Heap.PlainData.exists_datum`: plain data is a tree, and its quoted text is the text of the tree.
3. `Heap.PlainData.repr_unambiguous`: values of one quoted text are one tree.
-/

namespace ScriptMachine

/-! ## 1. Texts that tell where they end -/

/-- Nothing but `a` has a text that begins like that of `a`, and what comes after it is known. -/
def SelfDelimiting {α : Type} (text : α → List Char) (a : α) : Prop :=
  ∀ b rest rest', text a ++ rest = text b ++ rest' → a = b ∧ rest = rest'

namespace SelfDelimiting

variable {α : Type} {text : α → List Char}

/-- A text that can be read back, whatever comes after it. -/
theorem of_read {read? : List Char → Option (α × List Char)}
    (hread : ∀ a rest, read? (text a ++ rest) = some (a, rest)) (a : α) :
    SelfDelimiting text a := by
  intro b rest rest' h
  have hsame := congrArg read? h
  rw [hread, hread] at hsame
  exact Prod.mk.inj (Option.some.inj hsame)

/-- Two texts with a separator between them. -/
theorem pair {separator : List Char} {p : α × α} (hleft : SelfDelimiting text p.1)
    (hright : SelfDelimiting text p.2) :
    SelfDelimiting (fun p : α × α => text p.1 ++ separator ++ text p.2) p := by
  intro q rest rest' h
  simp only [List.append_assoc] at h
  obtain ⟨hfst, h⟩ := hleft _ _ _ h
  obtain ⟨hsnd, h⟩ := hright _ _ _ (List.append_cancel_left h)
  exact ⟨Prod.ext hfst hsnd, h⟩

/-- Elements after the first come with a comma each, and no comma closes a bracket. -/
theorem separated {close : Char} (hclose : close ≠ ',') {xs ys : List α} {rest rest' : List Char}
    (hxs : ∀ x ∈ xs, SelfDelimiting text x)
    (h : (xs.map text).flatMap ([',', ' '] ++ ·) ++ close :: rest =
      (ys.map text).flatMap ([',', ' '] ++ ·) ++ close :: rest') : xs = ys ∧ rest = rest' := by
  induction xs generalizing ys with
  | nil =>
    cases ys with
    | nil => exact ⟨rfl, List.tail_eq_of_cons_eq h⟩
    | cons y ys => exact absurd (List.head_eq_of_cons_eq h) hclose
  | cons x xs ih =>
    cases ys with
    | nil => exact absurd (List.head_eq_of_cons_eq h).symm hclose
    | cons y ys =>
      simp only [List.map_cons, List.flatMap_cons, List.append_assoc] at h
      obtain ⟨hxy, h⟩ := hxs x (.head _) _ _ _ (List.append_cancel_left h)
      obtain ⟨htail, hrest⟩ := ih (fun z hz => hxs z (.tail _ hz)) h
      exact ⟨hxy ▸ htail ▸ rfl, hrest⟩

/-- A list in brackets, if the text of no element begins with the closing bracket. -/
theorem bracketed {left right : Char} (hright : right ≠ ',')
    (hstart : ∀ a, ∃ c rest, text a = c :: rest ∧ c ≠ right) {xs : List α}
    (hxs : ∀ x ∈ xs, SelfDelimiting text x) :
    SelfDelimiting (fun xs => ScriptMachine.bracketed left right (xs.map text)) xs := by
  intro ys rest rest' h
  simp only [ScriptMachine.bracketed, List.cons_append, List.append_assoc, List.nil_append,
    List.cons.injEq, true_and] at h
  cases xs with
  | nil =>
    cases ys with
    | nil => exact ⟨rfl, List.tail_eq_of_cons_eq h⟩
    | cons y ys =>
      obtain ⟨c, more, hy, hc⟩ := hstart y
      rw [List.map_cons, intercalate_cons, hy] at h
      exact absurd (List.head_eq_of_cons_eq h).symm hc
  | cons x xs =>
    cases ys with
    | nil =>
      obtain ⟨c, more, hx, hc⟩ := hstart x
      rw [List.map_cons, intercalate_cons, hx] at h
      exact absurd (List.head_eq_of_cons_eq h) hc
    | cons y ys =>
      rw [List.map_cons, List.map_cons, intercalate_cons, intercalate_cons, List.append_assoc,
        List.append_assoc] at h
      obtain ⟨hxy, h⟩ := hxs x (.head _) _ _ _ h
      obtain ⟨htail, hrest⟩ := separated hright (fun z hz => hxs z (.tail _ hz)) h
      exact ⟨hxy ▸ htail ▸ rfl, hrest⟩

end SelfDelimiting

/-! ## 2. Plain data as a tree -/

/-- Plain data. The entries of a map have an order. -/
inductive Datum
  | null
  | bool (b : Bool)
  | string (text : String)
  | list (items : List Datum)
  | map (entries : List (Datum × Datum))

namespace Datum

theorem sizeOf_entry {entries : List (Datum × Datum)} {e : Datum × Datum} (he : e ∈ entries) :
    sizeOf e.1 + sizeOf e.2 < sizeOf entries := by
  have hlt := List.sizeOf_lt_of_mem he
  rw [Prod.mk.sizeOf_spec] at hlt
  omega

/-- The text of plain data. -/
def text : Datum → List Char
  | null => "null".toList
  | bool b => (if b then "true" else "false").toList
  | string text => Quoted.encode text.toList
  | list items => bracketed '[' ']' (items.map fun item => item.text)
  | map entries =>
    bracketed '\x7b' '\x7d' (entries.map fun e => e.1.text ++ [':', ' '] ++ e.2.text)
decreasing_by
  · decreasing_tactic
  all_goals
    have := sizeOf_entry ‹_›
    decreasing_tactic

/-- The character that the text begins with. -/
def opening : Datum → Char
  | null => 'n'
  | bool b => if b then 't' else 'f'
  | string _ => '"'
  | list _ => '['
  | map _ => '\x7b'

theorem exists_text_eq (d : Datum) : ∃ rest, d.text = d.opening :: rest := by
  cases d with
  | bool b => cases b <;> exact ⟨_, by rw [text]; rfl⟩
  | _ => exact ⟨_, by rw [text]; rfl⟩

theorem exists_text_ne (right : Char) (hright : right ∉ ['n', 't', 'f', '"', '[', '\x7b'])
    (d : Datum) : ∃ c rest, d.text = c :: rest ∧ c ≠ right := by
  obtain ⟨rest, h⟩ := d.exists_text_eq
  refine ⟨_, rest, h, fun heq => hright (heq ▸ ?_)⟩
  cases d with
  | bool b => cases b <;> simp [opening]
  | _ => simp [opening]

theorem opening_eq {d e : Datum} {rest rest' : List Char} (h : d.text ++ rest = e.text ++ rest') :
    d.opening = e.opening := by
  obtain ⟨more, hd⟩ := d.exists_text_eq
  obtain ⟨more', he⟩ := e.exists_text_eq
  rw [hd, he] at h
  exact List.head_eq_of_cons_eq h

theorem selfDelimiting_text (d : Datum) : SelfDelimiting text d := by
  induction d using text.induct with
  | case1 =>
    intro e rest rest' h
    have hopen := opening_eq h
    cases e with
    | null => exact ⟨rfl, List.append_cancel_left h⟩
    | _ => grind [opening]
  | case2 b =>
    intro e rest rest' h
    have hopen := opening_eq h
    cases e with
    | bool b' =>
      obtain rfl : b = b' := by revert hopen; cases b <;> cases b' <;> decide
      exact ⟨rfl, List.append_cancel_left h⟩
    | _ => grind [opening]
  | case3 t =>
    intro e rest rest' h
    have hopen := opening_eq h
    cases e with
    | string t' =>
      rw [text, text] at h
      obtain ⟨htext, hrest⟩ := SelfDelimiting.of_read Quoted.read?_encode _ _ _ _ h
      exact ⟨by rw [String.toList_inj.mp htext], hrest⟩
    | _ => grind [opening]
  | case4 items ih =>
    intro e rest rest' h
    have hopen := opening_eq h
    cases e with
    | list items' =>
      rw [text, text] at h
      obtain ⟨hitems, hrest⟩ :=
        SelfDelimiting.bracketed (by decide) (exists_text_ne ']' (by decide)) ih _ _ _ h
      exact ⟨by rw [hitems], hrest⟩
    | _ => grind [opening]
  | case5 entries ihkey ihvalue =>
    intro e rest rest' h
    have hopen := opening_eq h
    cases e with
    | map entries' =>
      rw [text, text] at h
      have hstart : ∀ e : Datum × Datum, ∃ c rest,
          e.1.text ++ [':', ' '] ++ e.2.text = c :: rest ∧ c ≠ '\x7d' := by
        intro e
        obtain ⟨c, more, hkey, hc⟩ := exists_text_ne '\x7d' (by decide) e.1
        exact ⟨c, more ++ [':', ' '] ++ e.2.text, by rw [hkey]; rfl, hc⟩
      obtain ⟨hentries, hrest⟩ := SelfDelimiting.bracketed (by decide) hstart
        (fun e he => .pair (ihkey e he) (ihvalue e he)) _ _ _ h
      exact ⟨by rw [hentries], hrest⟩
    | _ => grind [opening]

theorem text_injective : Function.Injective text := by
  intro d e h
  exact (selfDelimiting_text d e [] [] (by rw [h])).1

end Datum

/-! ## 3. Values that are plain data -/

namespace Heap

/-- `heap.Within v w`: the value `w` is `v`, or is in it at some depth. -/
def Within (heap : Heap) : Value → Value → Prop :=
  Relation.ReflTransGen fun v w => ∃ h, v = .object h ∧ heap.Shows h w

/-- What plain data is made of. -/
inductive IsPlain (heap : Heap) : Value → Prop
  | null : IsPlain heap .null
  | bool (b : Bool) : IsPlain heap (.bool b)
  | string {h : Handle} {s : ByteString} {text : String} :
      heap.get? h = some (.string s) → s.bytes = Utf8.encode text → IsPlain heap (.object h)
  | list {h : Handle} {elements : Buffer Value} :
      heap.get? h = some (.list elements) → IsPlain heap (.object h)
  | map {h : Handle} {table : Table Value Value} :
      heap.get? h = some (.map table) → IsPlain heap (.object h)

/-- A value with nothing but plain parts, none of which is inside itself. -/
structure PlainData (heap : Heap) (v : Value) : Prop where
  plain : ∀ w, heap.Within v w → heap.IsPlain w
  acyclic : ∀ h, heap.Within v (.object h) → ¬ heap.Nested h h

mutual

/-- `heap.Denotes v d`: the value `v` is the tree `d`, with what is behind its handles. -/
inductive Denotes (heap : Heap) : Value → Datum → Prop
  | null : Denotes heap .null .null
  | bool (b : Bool) : Denotes heap (.bool b) (.bool b)
  | string {h : Handle} {s : ByteString} {text : String} :
      heap.get? h = some (.string s) → s.bytes = Utf8.encode text →
      Denotes heap (.object h) (.string text)
  | list {h : Handle} {elements : Buffer Value} {items : List Datum} :
      heap.get? h = some (.list elements) → List.Forall₂ (Denotes heap) elements.toList items →
      Denotes heap (.object h) (.list items)
  | map {h : Handle} {table : Table Value Value} {entries : List (Datum × Datum)} :
      heap.get? h = some (.map table) →
      List.Forall₂ (DenotesEntry heap) table.entries entries →
      Denotes heap (.object h) (.map entries)

/-- An entry of a map is a pair of trees. -/
inductive DenotesEntry (heap : Heap) : Value × Value → Datum × Datum → Prop
  | entry {e : Value × Value} {d : Datum × Datum} :
      Denotes heap e.1 d.1 → Denotes heap e.2 d.2 → DenotesEntry heap e d

end

variable {heap heap' : Heap} {v w : Value}

/-- What stands in plain data is plain data. -/
theorem PlainData.shown {h : Handle} (hp : heap.PlainData (.object h)) (hs : heap.Shows h v) :
    heap.PlainData v where
  plain w hw := hp.plain w (.head ⟨h, rfl, hs⟩ hw)
  acyclic k hk := hp.acyclic k (.head ⟨h, rfl, hs⟩ hk)

/-- Whatever is plain with parts that are plain data is plain data: a container inside itself would
be inside one of its parts. -/
theorem PlainData.of_parts (hv : heap.IsPlain v)
    (hparts : ∀ h, v = .object h → ∀ w, heap.Shows h w → heap.PlainData w) :
    heap.PlainData v where
  plain w hw := by
    obtain rfl | ⟨u, ⟨h, rfl, hu⟩, hrest⟩ := hw.cases_head
    · exact hv
    · exact (hparts h rfl u hu).plain w hrest
  acyclic k hk := by
    obtain rfl | ⟨u, ⟨h, rfl, hu⟩, hrest⟩ := hk.cases_head
    · intro hself
      obtain ⟨j, hj, hback⟩ := Relation.TransGen.head'_iff.mp hself
      have hwithin : heap.Within (.object j) (.object k) :=
        hback.lift Value.object fun a b hab => ⟨a, rfl, hab⟩
      exact (hparts k rfl _ hj).acyclic k hwithin hself
    · exact (hparts h rfl u hu).acyclic k hrest

theorem PlainData.null : heap.PlainData .null :=
  .of_parts .null (by simp)

theorem PlainData.string {h : Handle} {s : ByteString} {text : String}
    (hs : heap.get? h = some (.string s)) (htext : s.bytes = Utf8.encode text) :
    heap.PlainData (.object h) := by
  refine .of_parts (.string hs htext) ?_
  rintro _ ⟨⟩ w hw
  cases hw <;> simp_all

theorem PlainData.list {h : Handle} {elements : Buffer Value}
    (hl : heap.get? h = some (.list elements))
    (hparts : ∀ w ∈ elements.toList, heap.PlainData w) : heap.PlainData (.object h) := by
  refine .of_parts (.list hl) ?_
  rintro _ ⟨⟩ w hw
  cases hw <;> simp_all

theorem PlainData.map {h : Handle} {table : Table Value Value}
    (ht : heap.get? h = some (.map table))
    (hparts : ∀ e ∈ table.entries, heap.PlainData e.1 ∧ heap.PlainData e.2) :
    heap.PlainData (.object h) := by
  refine .of_parts (.map ht) ?_
  rintro _ ⟨⟩ w hw
  cases hw with
  | element hl => simp_all
  | key ht' he =>
    cases ht.symm.trans ht'
    exact (hparts _ he).1
  | value ht' he =>
    cases ht.symm.trans ht'
    exact (hparts _ he).2

theorem exists_forall₂_mapM {α β γ ε : Type} {r : α → β → Prop} {f : α → Except ε γ} {g : β → γ}
    {l : List α} (h : ∀ a ∈ l, ∃ b, r a b ∧ f a = .ok (g b)) :
    ∃ bs, List.Forall₂ r l bs ∧ l.mapM f = .ok (bs.map g) := by
  induction l with
  | nil => exact ⟨[], .nil, rfl⟩
  | cons a l ih =>
    obtain ⟨b, hab, hfa⟩ := h a List.mem_cons_self
    obtain ⟨bs, hbs, hl⟩ := ih fun c hc => h c (List.mem_cons_of_mem _ hc)
    refine ⟨b :: bs, .cons hab hbs, ?_⟩
    rw [List.mapM_cons, hfa, hl]
    rfl

/-- The text of an object that the rendering is not inside of. -/
theorem renderIn_of_new {enclosing : List Handle} {h : Handle} {o : Object} (hnew : h ∉ enclosing)
    (ho : heap.get? h = some o) : renderIn heap enclosing true (.object h) =
      objectText (fun v => renderIn heap (h :: enclosing) true v) false true o := by
  rw [renderIn_object, get_eq_ok_iff.mpr ho, decide_eq_false hnew]
  rfl

/-- Plain data is a tree, and its text is the text of the tree: the containers that the rendering
is inside of are not in it, so nothing is elided. The induction is on the number of objects that the
rendering is not inside of. -/
theorem PlainData.exists_datum (hp : heap.PlainData v) (enclosing : List Handle)
    (hin : ∀ k ∈ enclosing, ∀ h, v = .object h → heap.Nested k h) :
    ∃ d, heap.Denotes v d ∧ renderIn heap enclosing true v = .ok d.text := by
  induction hn : (heap.outside enclosing).length using Nat.strongRecOn
    generalizing enclosing v with
  | ind n ih =>
    subst hn
    have hnew : ∀ h, v = .object h → h ∉ enclosing := by
      rintro h rfl hmem
      exact hp.acyclic h .refl (hin h hmem h rfl)
    -- What stands in a container is inside all that the container is inside of.
    have hpart : ∀ {h : Handle} {o : Object} {w : Value}, v = .object h →
        heap.get? h = some o → heap.Shows h w →
        ∃ d, heap.Denotes w d ∧ renderIn heap (h :: enclosing) true w = .ok d.text := by
      rintro h o w rfl ho hw
      refine ih _ (length_outside_cons ho (hnew h rfl)) (hp.shown hw) _ ?_ rfl
      rintro k hk j rfl
      rcases List.mem_cons.mp hk with rfl | hk
      · exact .single hw
      · exact .tail (hin k hk h rfl) hw
    cases hp.plain v .refl with
    | null => exact ⟨.null, .null, by rw [renderIn, Datum.text]⟩
    | bool b => exact ⟨.bool b, .bool b, by rw [renderIn, Datum.text]⟩
    | @string h s text hs htext =>
      refine ⟨.string text, .string hs htext, ?_⟩
      rw [renderIn_of_new (hnew h rfl) hs, Datum.text, objectText, ByteString.text, htext,
        Utf8.decodeLossy_encode]
      rfl
    | @list h elements hl =>
      obtain ⟨items, hitems, htexts⟩ :=
        exists_forall₂_mapM fun w hw => hpart rfl hl (.element hl hw)
      refine ⟨.list items, .list hl hitems, ?_⟩
      rw [renderIn_of_new (hnew h rfl) hl, Datum.text, objectText, htexts]
      rfl
    | @map h table ht =>
      have hentry : ∀ e ∈ table.entries, ∃ d, heap.DenotesEntry e d ∧
          entryText (fun v => renderIn heap (h :: enclosing) true v) e =
            .ok (d.1.text ++ [':', ' '] ++ d.2.text) := by
        intro e he
        obtain ⟨key, hkey, hleft⟩ := hpart rfl ht (.key ht he)
        obtain ⟨value, hvalue, hright⟩ := hpart rfl ht (.value ht he)
        refine ⟨(key, value), .entry hkey hvalue, ?_⟩
        rw [entryText, hleft, hright]
        rfl
      obtain ⟨entries, hentries, htexts⟩ := exists_forall₂_mapM hentry
      refine ⟨.map entries, .map ht hentries, ?_⟩
      rw [renderIn_of_new (hnew h rfl) ht, Datum.text, objectText, htexts]
      rfl

/-- Plain data, and its quoted text. -/
theorem PlainData.exists_render (hp : heap.PlainData v) :
    ∃ d, heap.Denotes v d ∧ heap.render v true = .ok (String.ofList d.text) := by
  obtain ⟨d, hd, htext⟩ := hp.exists_datum [] (by simp)
  exact ⟨d, hd, by rw [render_eq, htext]; rfl⟩

/-- Two values that are plain data, on one heap or on two, have a quoted text each. If it is the
same text, they are the same tree. What is in quotes can be read back, whatever comes after it. -/
theorem PlainData.repr_unambiguous (hv : heap.PlainData v) (hw : heap'.PlainData w) :
    (∃ text, heap.render v true = .ok text) ∧ (∃ text, heap'.render w true = .ok text) ∧
    (heap.render v true = heap'.render w true → ∃ d, heap.Denotes v d ∧ heap'.Denotes w d) ∧
    ∀ text rest, Quoted.read? (Quoted.encode text ++ rest) = some (text, rest) := by
  obtain ⟨d, hd, hdtext⟩ := hv.exists_render
  obtain ⟨e, he, hetext⟩ := hw.exists_render
  refine ⟨⟨_, hdtext⟩, ⟨_, hetext⟩, fun hsame => ?_, Quoted.read?_encode⟩
  rw [hdtext, hetext, Except.ok.injEq, String.ofList_inj] at hsame
  obtain rfl := Datum.text_injective hsame
  exact ⟨d, hd, he⟩

/-- A string that reads like the middle of a list, two lists of it, and two maps from it to them. -/
def lookalikes : Heap :=
  { empty .standard with
    cells := #[
      ⟨0, some ⟨.string (.ofText "a\", \"b"), 0, false⟩⟩,
      ⟨0, some ⟨.list (.ofList [.object ⟨0, 0⟩, .null]), 0, false⟩⟩,
      ⟨0, some ⟨.list (.ofList [.object ⟨0, 0⟩, .null]), 0, false⟩⟩,
      ⟨0, some ⟨.map (Table.empty.insertNew (.object ⟨0, 0⟩) 7 (.object ⟨1, 0⟩)), 0, false⟩⟩,
      ⟨0, some ⟨.map (Table.empty.insertNew (.object ⟨0, 0⟩) 7 (.object ⟨2, 0⟩)), 0, false⟩⟩] }

/-- Either map is plain data, and their text is one, with the marks inside the string escaped. -/
theorem lookalikes_map {h k : Handle} {table : Table Value Value}
    (ht : lookalikes.get? h = some (.map table)) (hne : k ≠ h)
    (he : table.entries = [(.object ⟨0, 0⟩, .object k)])
    (hk : lookalikes.get? k = some (.list (.ofList [.object ⟨0, 0⟩, .null]))) :
    lookalikes.PlainData (.object h) ∧ lookalikes.render (.object h) true =
      .ok "\x7b\"a\\\", \\\"b\": [\"a\\\", \\\"b\", null]\x7d" := by
  have hs : lookalikes.get? ⟨0, 0⟩ = some (.string (.ofText "a\", \"b")) := rfl
  constructor
  · have hstring : lookalikes.PlainData (.object ⟨0, 0⟩) := .string hs rfl
    have hlist : lookalikes.PlainData (.object k) := .list hk (by simp [hstring, PlainData.null])
    exact .map ht (by simp [he, hstring, hlist])
  · have hquoted : Quoted.encode (ByteString.ofText "a\", \"b").text =
        "\"a\\\", \\\"b\"".toList := by
      rw [ByteString.text, ByteString.ofText, ByteString.ofBytes, Utf8.decodeLossy_encode]
      decide
    rw [render_eq]
    simp [renderIn_object, get_eq_ok_iff.mpr ht, get_eq_ok_iff.mpr hk, get_eq_ok_iff.mpr hs, he,
      hne, objectText, entryText, bracketed, hquoted, renderIn, bind, Except.bind, pure,
      Except.pure, Except.map]

/-- Two maps of one text are one tree. -/
theorem PlainData.repr_unambiguous_of_lookalikes :
    lookalikes.PlainData (.object ⟨3, 0⟩) ∧ lookalikes.PlainData (.object ⟨4, 0⟩) ∧
    lookalikes.render (.object ⟨3, 0⟩) true = lookalikes.render (.object ⟨4, 0⟩) true ∧
    ∃ d, lookalikes.Denotes (.object ⟨3, 0⟩) d ∧ lookalikes.Denotes (.object ⟨4, 0⟩) d := by
  obtain ⟨hplain, htext⟩ :=
    lookalikes_map (h := ⟨3, 0⟩) (k := ⟨1, 0⟩) rfl (by decide) (by decide) rfl
  obtain ⟨hplain', htext'⟩ :=
    lookalikes_map (h := ⟨4, 0⟩) (k := ⟨2, 0⟩) rfl (by decide) (by decide) rfl
  have hsame := htext.trans htext'.symm
  exact ⟨hplain, hplain', hsame, (PlainData.repr_unambiguous hplain hplain').2.2.1 hsame⟩

end Heap

end ScriptMachine
