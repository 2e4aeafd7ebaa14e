import ScriptMachine.Heap.Render
import ScriptMachine.Proofs.Heap.Arena

/-!
# What the writing of a value amounts to

The writing of a value keeps a stack of the containers that it is inside of, and changes it as it
goes. Here the same text is given by a function that passes the enclosing containers down and has
nothing to undo. The two agree, on every heap and from every page: the stack tells the writing what
the function is told, and whatever it enters it leaves.

Main definitions:
- `renderIn`: the text of a value inside some containers.
- `Writes`: what a writing does to every page inside some containers.

Results:
1. `renderIn_object`: the text of an object, from the texts of what it holds.
2. `Writes.bind`, `Writes.within`, `Writes.container`, `Writes.separated`: the rules for the parts
   of a writing.
3. `writeValue_writes`, `Heap.render_eq`: a value is written as `renderIn` says.
-/

namespace ScriptMachine

/-! ## 1. The text inside some containers -/

/-- Texts between brackets, with commas between them. -/
def bracketed (left right : Char) (texts : List (List Char)) : List Char :=
  left :: (List.intercalate [',', ' '] texts ++ [right])

/-- The text of an entry of a map, from the texts of key and value. -/
def entryText (render : Value → Except Fault (List Char)) (entry : Value × Value) :
    Except Fault (List Char) := do
  let left ← render entry.1
  let right ← render entry.2
  return left ++ [':', ' '] ++ right

/-- The text of an object, from the texts of what it holds. -/
def objectText (render : Value → Except Fault (List Char)) (inside quoted : Bool) :
    Object → Except Fault (List Char)
  | .string s => .ok (if quoted then Quoted.encode s.text else s.text)
  | .list elements =>
    if inside then .ok "[...]".toList
    else do
      let texts ← elements.toList.mapM render
      return bracketed '[' ']' texts
  | .map table =>
    if inside then .ok "\x7b...\x7d".toList
    else do
      let texts ← table.entries.mapM (entryText render)
      return bracketed '\x7b' '\x7d' texts
  | .range start stop =>
    .ok ("[Range:".toList ++ numberText start ++ ['.', '.'] ++ numberText stop ++ [']'])
  | .function f => .ok ("[Func:" ++ f.name ++ "]").toList
  | .script s => .ok ("[Module:" ++ s.name ++ "]").toList
  | .fiber _ => .ok "[Fiber]".toList
  | .foreign f => .ok ("[UserObj:" ++ f.typeName ++ "]").toList

/-- The text of a value inside the containers `enclosing`. -/
def renderIn (heap : Heap) (enclosing : List Handle) (quoted : Bool) (value : Value) :
    Except Fault (List Char) :=
  match value with
  | .null => .ok "null".toList
  | .bool b => .ok (if b then "true" else "false").toList
  | .number x => .ok (numberText x)
  | .object h =>
    match _live : heap.get? h with
    | none => .error (.staleHandle h)
    | some object =>
      if _new : h ∉ enclosing then
        objectText (fun v => renderIn heap (h :: enclosing) true v) false quoted object
      else
        -- What is elided is not looked into.
        objectText (fun _ => .ok []) true quoted object
termination_by (heap.outside enclosing).length
decreasing_by exact Heap.length_outside_cons _live _new

theorem renderIn_object (heap : Heap) (enclosing : List Handle) (quoted : Bool) (h : Handle) :
    renderIn heap enclosing quoted (.object h) = (do
      objectText (fun v => renderIn heap (h :: enclosing) true v) (decide (h ∈ enclosing)) quoted
        (← heap.get h)) := by
  rw [renderIn]
  unfold Heap.get
  split
  · next ho =>
    rw [ho]
    rfl
  · next o ho =>
    rw [ho]
    by_cases hin : h ∈ enclosing
    · rw [dif_neg (not_not_intro hin), decide_eq_true hin]
      cases o <;> rfl
    · rw [dif_pos hin, decide_eq_false hin]
      rfl

/-! ## 2. Parts of a writing -/

theorem intercalate_cons (separator text : List Char) (texts : List (List Char)) :
    List.intercalate separator (text :: texts) = text ++ texts.flatMap (separator ++ ·) := by
  induction texts generalizing text with
  | nil => simp [List.intercalate]
  | cons next texts ih =>
    rw [List.flatMap_cons, List.append_assoc, ← ih]
    simp [List.intercalate]

/-- On every page inside these containers, `m` gives `a`, adds the text that `x` is, and leaves the
stack as it found it. If `x` is a fault, it ends in that fault. -/
def Writes {α : Type} (inside : List Handle) (m : Writing inside α) (a : α)
    (x : Except Fault (List Char)) : Prop :=
  ∀ page, m page = x.map fun added => (a, { page with text := page.text ++ String.ofList added })

namespace Writes

variable {α β : Type} {inside : List Handle} {a : α} {b : β} {x y : Except Fault (List Char)}

theorem pure (a : α) : Writes inside (pure a) a (.ok []) := by
  intro page
  show Except.ok (a, page) = _
  simp [Except.map]

theorem write (text : String) : Writes inside (Writing.write text) () (.ok text.toList) := by
  intro page
  show Except.ok ((), { page with text := page.text ++ text }) = _
  simp [Except.map]

theorem throw (fault : Fault) : Writes inside (throw fault) a (.error fault) :=
  fun _ => rfl

/-- One writing after another. -/
theorem bind {m : Writing inside α} {k : α → Writing inside β} (hm : Writes inside m a x)
    (hk : Writes inside (k a) b y) : Writes inside (m >>= k) b (do return (← x) ++ (← y)) := by
  intro page
  show (m page >>= fun p => k p.1 p.2) = _
  rw [hm page]
  cases x with
  | error fault => rfl
  | ok added =>
    show k a _ = _
    rw [hk]
    cases y with
    | error fault => rfl
    | ok more =>
      simp [Except.map, Bind.bind, Except.bind, Pure.pure, Except.pure, String.append_assoc]

/-- The text may be given in another form. -/
theorem of_eq {m : Writing inside α} (hm : Writes inside m a x) (hxy : x = y) :
    Writes inside m a y :=
  hxy ▸ hm

theorem bind_pure {m : Writing inside α} (hm : Writes inside m a x) (b : β) :
    Writes inside (m >>= fun _ => Pure.pure b) b x :=
  of_eq (hm.bind (pure b)) (by cases x <;> simp [Bind.bind, Except.bind, Pure.pure, Except.pure])

/-- Key and value of an entry. -/
theorem entry {left right : Writing inside Unit} (hl : Writes inside left () x)
    (hr : Writes inside right () y) (b : β) :
    Writes inside (do
      left
      Writing.write ": "
      right
      return b) b (do return (← x) ++ [':', ' '] ++ (← y)) := by
  refine of_eq (hl.bind ((write ": ").bind (hr.bind_pure b))) ?_
  cases x <;> cases y <;> simp [Bind.bind, Except.bind, Pure.pure, Except.pure]

/-- What is entered is left. -/
theorem within {h : Handle} {body : Writing (h :: inside) Unit}
    (hbody : Writes (h :: inside) body () x) : Writes inside (Writing.within h body) () x := by
  intro page
  show (body (page.enter h) >>= fun p => .ok ((), p.2.leave)) = _
  rw [hbody]
  cases x <;> rfl

/-- A container that the writing is inside of is elided. Any other is entered, written between
its brackets, and left. -/
theorem container {h : Handle} {body : Writing (h :: inside) Unit} (elided left right : String)
    (hbody : h ∉ inside → Writes (h :: inside) body () x) :
    Writes inside (do
      let page ← get
      if _ : h ∈ page.visiting then
        Writing.write elided
      else
        Writing.within h do
          Writing.write left
          body
          Writing.write right) () (do
      if h ∈ inside then return elided.toList
      else return left.toList ++ (← x) ++ right.toList) := by
  intro page
  have hsame : h ∈ page.visiting ↔ h ∈ inside := by rw [page.visiting_eq]
  show (if _ : h ∈ page.visiting then _ else _ : Writing inside Unit) page = _
  by_cases hin : h ∈ inside
  · rw [dif_pos (hsame.mpr hin), if_pos hin]
    exact write elided page
  · rw [dif_neg (mt hsame.mp hin), if_neg hin]
    refine of_eq (within ((write left).bind ((hbody hin).bind (write right)))) ?_ page
    cases x <;> simp [Pure.pure, Except.pure, Bind.bind, Except.bind]

/-- Steps of a loop over a list, with commas between them. There is none before the first element,
and one before each that is not. -/
theorem separated {l : List α} {step : α → Writing inside (ForInStep PUnit)}
    {f : α → Except Fault (List Char)}
    (hstep : ∀ a ∈ l, Writes inside (step a) (.yield PUnit.unit) (f a)) (start : Nat) :
    Writes inside (forIn (l.zipIdx start) PUnit.unit fun (a, i) _ =>
        if 0 < i then do
          Writing.write ", "
          step a
        else step a) PUnit.unit (do
      let texts ← l.mapM f
      return if start = 0 then List.intercalate [',', ' '] texts
        else texts.flatMap ([',', ' '] ++ ·)) := by
  induction l generalizing start with
  | nil => exact of_eq (pure _) (by cases start <;> rfl)
  | cons a l ih =>
    rw [List.zipIdx_cons, List.forIn_cons, List.mapM_cons]
    have hfirst := hstep a List.mem_cons_self
    have hrest := ih (fun b hb => hstep b (List.mem_cons_of_mem _ hb)) (start + 1)
    cases start with
    | zero =>
      refine of_eq (bind hfirst hrest) ?_
      cases f a with
      | error fault => rfl
      | ok text =>
        cases l.mapM f with
        | error fault => rfl
        | ok texts =>
          simp [Bind.bind, Except.bind, Pure.pure, Except.pure, intercalate_cons]
    | succ start =>
      refine of_eq (bind (bind (write ", ") hfirst) hrest) ?_
      cases f a with
      | error fault => rfl
      | ok text =>
        cases l.mapM f with
        | error fault => rfl
        | ok texts => simp [Bind.bind, Except.bind, Pure.pure, Except.pure]

end Writes

/-! ## 3. Values -/

/-- The object behind a handle is written as its text, if what it holds is. -/
theorem writeValue_object_writes {heap : Heap} {h : Handle} {o : Object}
    (ho : heap.get? h = some o) (inside : List Handle) (quoted : Bool)
    (hheld : h ∉ inside → ∀ v, Writes (h :: inside) (writeValue heap v true) ()
      (renderIn heap (h :: inside) true v)) :
    Writes inside (writeValue heap (.object h) quoted) ()
      (objectText (renderIn heap (h :: inside) true) (decide (h ∈ inside)) quoted o) := by
  rw [writeValue]
  split
  case h_1 hnone =>
    rw [ho] at hnone
    cases hnone
  all_goals
    rename_i hsome
    obtain rfl := Option.some.inj (ho.symm.trans hsome)
  case h_2 => exact .of_eq (.write _) (by simp [objectText])
  case h_3 =>
    refine .of_eq (.container "[...]" "[" "]" fun hin =>
      .separated (fun v _ => (hheld hin v).bind_pure _) 0) ?_
    by_cases hin : h ∈ inside
    · simp only [hin, objectText, decide_true, if_true]
      rfl
    · simp [hin, objectText, bracketed]
  case h_4 =>
    refine .of_eq (.container "\x7b...\x7d" "\x7b" "\x7d" fun hin =>
      .separated (f := entryText fun v => renderIn heap (h :: inside) true v)
        (fun entry _ => (hheld hin entry.1).entry (hheld hin entry.2) _) 0) ?_
    by_cases hin : h ∈ inside
    · simp only [hin, objectText, decide_true, if_true]
      rfl
    · simp [hin, objectText, bracketed]
  case h_5 => exact .of_eq (.write _) (by simp [objectText])
  all_goals exact .write _

/-- A value is written as its text inside the containers of the page. The induction is on the
number of objects that the writing is not inside of. -/
theorem writeValue_writes (heap : Heap) (inside : List Handle) (quoted : Bool) (v : Value) :
    Writes inside (writeValue heap v quoted) () (renderIn heap inside quoted v) := by
  induction hn : (heap.outside inside).length using Nat.strongRecOn
    generalizing inside quoted v with
  | ind n ih =>
    subst hn
    cases v with
    | object h =>
      rw [renderIn_object]
      cases ho : heap.get? h with
      | none =>
        rw [writeValue, Heap.get, ho]
        exact .throw _
      | some o =>
        rw [Heap.get_eq_ok_iff.mpr ho]
        exact writeValue_object_writes ho inside quoted fun hin v =>
          ih _ (Heap.length_outside_cons ho hin) _ _ _ rfl
    | number x =>
      rw [writeValue, renderIn]
      exact .of_eq (.write _) (by simp)
    | null | bool b =>
      rw [writeValue, renderIn]
      exact .write _

/-- The text of a value is its text inside no container. -/
theorem Heap.render_eq (heap : Heap) (v : Value) (quoted : Bool) :
    heap.render v quoted = (renderIn heap [] quoted v).map String.ofList := by
  unfold render
  rw [StateT.run, writeValue_writes heap [] quoted v]
  cases renderIn heap [] quoted v with
  | error fault => rfl
  | ok text => simp [Except.map, bind, Except.bind, pure, Except.pure]

end ScriptMachine
