import ScriptMachine.Proofs.Heap.Traversal

/-!
# Iterations of ranges

An iteration of a range computes each value from the start and the number of steps so far, which it
reads from the state. Two things can keep it from its end. The state is a number, and numbers count
no further than to 2^53, so from there on every step is the same. And a step is rounded, so one that
is short of what it is added to goes nowhere. Since rounding keeps the order, both come to one
question: whether the value after 2^53 steps has reached the end. If so, the iteration ends, and
otherwise it never does. An end that is a NaN is not reached by any step, nor does any value come
before it.

Where both ends are integers that are not too large or too far apart nothing is rounded, and the
iteration counts from one to the other.

Main definitions:
- `rangeAt`, `Past`, `Before`: the value after some steps, and how a value lies to the end.
- `rangeState`: the state after some steps.
- `YieldsExactly`: how much an iteration yields.
- `WithinReach`: an iteration comes to its end.
- `CountsThrough`: an iteration counts from an integer to another.

Results:
1. `Traversal.rangeStands`: state and values at every point of an iteration.
2. `Past.mono`: what is past the end stays there.
3. `Reachable.range_ends_iff`: which iterations end.
4. `Reachable.range_countsThrough`: integers are counted through.
-/

namespace ScriptMachine

/-! ## 1. Steps -/

/-- The value after some steps. -/
def rangeAt (start stop : Double) (steps : Nat) : Double :=
  if start ≤ stop then start + Double.ofNat steps else start - Double.ofNat steps

/-- `x` is the end of a range or lies behind it, in the direction of travel. -/
def Past (start stop x : Double) : Prop :=
  if start ≤ stop then stop ≤ x else x ≤ stop

/-- `x` lies before the end of a range, in the direction of travel. -/
def Before (start stop x : Double) : Prop :=
  if start ≤ stop then x < stop else stop < x

instance (start stop x : Double) : Decidable (Past start stop x) :=
  inferInstanceAs (Decidable (if start ≤ stop then stop ≤ x else x ≤ stop))

theorem rangeStep_eq (start stop : Double) (k : Nat) : rangeStep start stop k =
    if Past start stop (rangeAt start stop k) ∨ (rangeAt start stop k).isNaN = true then .done
    else .yield (.number (rangeAt start stop k)) (k + 1) := by
  unfold rangeStep Past rangeAt
  by_cases hup : start ≤ stop <;> simp only [hup, decide_true, decide_false, if_true, if_false,
    Bool.or_eq_true, decide_eq_true_eq, Bool.false_eq_true]

theorem rangeStep_eq_done_iff {start stop : Double} {k : Nat} : rangeStep start stop k = .done ↔
    Past start stop (rangeAt start stop k) ∨ (rangeAt start stop k).isNaN = true := by
  rw [rangeStep_eq]
  split
  · next hend => exact iff_of_true rfl hend
  · next hgoing => exact iff_of_false (by simp [IterationStep.yield]) hgoing

theorem rangeStep_of_ne_done {start stop : Double} {k : Nat} (h : rangeStep start stop k ≠ .done) :
    rangeStep start stop k = .yield (.number (rangeAt start stop k)) (k + 1) := by
  rw [rangeStep_eq, if_neg (mt rangeStep_eq_done_iff.mpr h)]

theorem before_of_ne_done {start stop : Double} (hstop : stop.isFinite = true) {k : Nat}
    (h : rangeStep start stop k ≠ .done) : Before start stop (rangeAt start stop k) := by
  rw [ne_eq, rangeStep_eq_done_iff, not_or, Bool.not_eq_true] at h
  obtain ⟨hpast, hnan⟩ := h
  unfold Past at hpast
  unfold Before
  split
  · next hup =>
    rw [if_pos hup] at hpast
    exact (lt_iff_not_le hnan (isNaN_of_isFinite hstop)).mpr hpast
  · next hdown =>
    rw [if_neg hdown] at hpast
    exact (lt_iff_not_le (isNaN_of_isFinite hstop) hnan).mpr hpast

/-! ## 2. Points of an iteration -/

/-- So many of the steps are counted. -/
def countedSteps (n : Nat) : Nat :=
  min n (2 ^ 53)

theorem countedSteps_le (n : Nat) : countedSteps n ≤ 2 ^ 53 :=
  Nat.min_le_right _ _

/-- The state after some steps. -/
def rangeState (n : Nat) : Value :=
  if n = 0 then .null else .number (Double.ofNat (countedSteps n))

theorem completedSteps_rangeState (n : Nat) :
    completedSteps (rangeState n) = .ok (countedSteps n) := by
  unfold rangeState
  split
  · next hzero =>
    subst hzero
    rfl
  · exact completedSteps_ofNat (countedSteps_le n)

/-- One step more is counted, as long as that can be. -/
theorem number_countedSteps_succ (n : Nat) :
    Value.number (Double.ofNat (countedSteps n + 1)) = rangeState (n + 1) := by
  have hstick : Double.ofNat (2 ^ 53 + 1) = Double.ofNat (2 ^ 53) := by decide +kernel
  unfold rangeState countedSteps
  rw [if_neg (Nat.succ_ne_zero n)]
  rcases Nat.lt_or_ge n (2 ^ 53) with hlt | hge
  · rw [Nat.min_eq_left hlt.le, Nat.min_eq_left hlt]
  · rw [Nat.min_eq_right hge, Nat.min_eq_right (Nat.le_succ_of_le hge), hstick]

/-- The invariant of iterations of a range. The state is that after as many steps as values were
yielded, and each of them is the one that was due. -/
structure RangeStands (h : Handle) (start stop : Double) (seen : List (Value × Heap))
    (state : Value) (heap : Heap) : Prop where
  tidy : heap.Tidy
  here : heap.get? h = some (.range start stop)
  state_eq : state = rangeState seen.length
  shown : ∀ i entry, seen[i]? = some entry → rangeStep start stop (countedSteps i) ≠ .done ∧
    entry.1 = .number (rangeAt start stop (countedSteps i))

section Points

variable {h : Handle} {start stop : Double} {seen : List (Value × Heap)} {state : Value}
  {base heap : Heap}

theorem RangeStands.iterate_eq (hs : RangeStands h start stop seen state heap) :
    iterate (.object h) state heap =
      .ok (rangeStep start stop (countedSteps seen.length)) heap := by
  have hends : Ends (iterate (.object h) state) heap (.returns fun step after =>
      step = rangeStep start stop (countedSteps seen.length) ∧ after = heap) := by
    rw [hs.state_eq]
    exact .check_ok (completedSteps_rangeState _)
      (.get (.read_ok (Heap.get_eq_ok_iff.mpr hs.here) (.pure ⟨rfl, rfl⟩)))
  obtain ⟨step, hok, rfl, hafter⟩ := hends.exists_ok
  rw [hok, hafter]

theorem RangeStands.next (hs : RangeStands h start stop seen state heap) {state' v : Value}
    {after : Heap} (hstep : iterate (.object h) state heap = .ok (.next state' v) after) :
    RangeStands h start stop (seen ++ [(v, after)]) state' after := by
  rw [hs.iterate_eq] at hstep
  injection hstep with hstep hafter
  subst hafter
  have hgoing : rangeStep start stop (countedSteps seen.length) ≠ .done := by
    rw [hstep]
    exact IterationStep.noConfusion
  rw [rangeStep_of_ne_done hgoing, IterationStep.yield, number_countedSteps_succ] at hstep
  injection hstep with hstate hv
  refine ⟨hs.tidy, hs.here, ?_, fun i entry hentry => ?_⟩
  · rw [← hstate, List.length_append, List.length_singleton]
  · rw [List.getElem?_append] at hentry
    split at hentry
    · exact hs.shown i entry hentry
    · next hge =>
      obtain ⟨hlt, hentry⟩ := List.getElem?_eq_some_iff.mp hentry
      rw [List.length_singleton] at hlt
      obtain rfl : i = seen.length := by omega
      rw [List.getElem_singleton] at hentry
      rw [← hentry]
      exact ⟨hgoing, hv.symm⟩

theorem Traversal.rangeStands (ht : base.Tidy) (ho : base.get? h = some (.range start stop))
    (hr : Traversal h base seen state heap) : RangeStands h start stop seen state heap := by
  induction hr with
  | start => exact ⟨ht, ho, rfl, fun i entry hentry => by cases hentry⟩
  | other op _ htarget hl ih =>
    exact ⟨op.after_tidy ih.tidy, op.get?_of_isLive ih.tidy ih.here (.inl htarget) hl,
      ih.state_eq, ih.shown⟩
  | next _ hstep _ ih => exact ih.next hstep

end Points

/-! ## 3. Ends -/

/-- Every iteration of the container of `h` that begins on `base` yields `n` values and is then
done. -/
structure YieldsExactly (h : Handle) (base : Heap) (n : Nat) : Prop where
  /-- It can be brought to its end. -/
  ends : ∃ seen state heap, Traversal h base seen state heap ∧ seen.length = n
  /-- It does not go beyond, -/
  length_le : ∀ {seen state heap}, Traversal h base seen state heap → seen.length ≤ n
  /-- goes on before it, -/
  next : ∀ {seen state heap}, Traversal h base seen state heap → seen.length < n →
    ∃ state' v, iterate (.object h) state heap = .ok (.next state' v) heap
  /-- and says that it is done there. -/
  done : ∀ {seen state heap}, Traversal h base seen state heap → seen.length = n →
    iterate (.object h) state heap = .ok .done heap

theorem YieldsExactly.unique {h : Handle} {base : Heap} {m n : Nat} (hm : YieldsExactly h base m)
    (hn : YieldsExactly h base n) : m = n := by
  obtain ⟨seen, state, heap, hrun, rfl⟩ := hm.ends
  obtain ⟨seen', state', heap', hrun', rfl⟩ := hn.ends
  exact Nat.le_antisymm (hn.length_le hrun) (hm.length_le hrun')

section Ends

variable {h : Handle} {start stop : Double} {base : Heap} (ht : base.Tidy)
  (ho : base.get? h = some (.range start stop))
include ht ho

theorem Traversal.iterate_next {seen : List (Value × Heap)} {state : Value} {heap : Heap}
    (hrun : Traversal h base seen state heap)
    (hgoing : rangeStep start stop (countedSteps seen.length) ≠ .done) :
    ∃ state' v, iterate (.object h) state heap = .ok (.next state' v) heap := by
  have hstep := (hrun.rangeStands ht ho).iterate_eq
  rw [rangeStep_of_ne_done hgoing] at hstep
  exact ⟨_, _, hstep⟩

theorem exists_traversal {n : Nat}
    (hbefore : ∀ k < n, rangeStep start stop (countedSteps k) ≠ .done) :
    ∃ seen state heap, Traversal h base seen state heap ∧ seen.length = n := by
  induction n with
  | zero => exact ⟨[], .null, base, .start, rfl⟩
  | succ n ih =>
    obtain ⟨seen, state, heap, hrun, rfl⟩ := ih fun k hk => hbefore k (Nat.lt_succ_of_lt hk)
    have hl : heap.isLive h = true := Heap.isLive_iff.mpr ⟨_, (hrun.rangeStands ht ho).here⟩
    obtain ⟨state', v, hstep⟩ := hrun.iterate_next ht ho (hbefore _ (Nat.lt_succ_self _))
    exact ⟨_, _, heap, hrun.next hstep hl, by rw [List.length_append, List.length_singleton]⟩

/-- An iteration ends at the first step that says so. -/
theorem yieldsExactly_of_first {n : Nat}
    (hbefore : ∀ k < n, rangeStep start stop (countedSteps k) ≠ .done)
    (hend : rangeStep start stop (countedSteps n) = .done) : YieldsExactly h base n where
  ends := exists_traversal ht ho hbefore
  length_le := by
    intro seen state heap hrun
    by_contra hlt
    have hentry := List.getElem?_eq_getElem (not_le.mp hlt)
    exact ((hrun.rangeStands ht ho).shown n _ hentry).1 hend
  next := fun hrun hlt => hrun.iterate_next ht ho (hbefore _ hlt)
  done := by
    intro seen state heap hrun hlength
    rw [(hrun.rangeStands ht ho).iterate_eq, hlength, hend]

/-- An iteration that ends does so at a step that says so. -/
theorem YieldsExactly.rangeStep_eq_done {n : Nat} (hn : YieldsExactly h base n) :
    rangeStep start stop (countedSteps n) = .done := by
  obtain ⟨seen, state, heap, hrun, rfl⟩ := hn.ends
  have hdone := hn.done hrun rfl
  rw [(hrun.rangeStands ht ho).iterate_eq] at hdone
  injection hdone

theorem not_yieldsExactly (hgoing : ∀ k, rangeStep start stop (countedSteps k) ≠ .done) :
    ¬ ∃ n, YieldsExactly h base n := by
  rintro ⟨n, hn⟩
  exact hgoing n (hn.rangeStep_eq_done ht ho)

end Ends

/-! ## 4. Values -/

theorem finite_ofNat {n : Nat} (hn : n ≤ 2 ^ 53) :
    (Double.ofNat n).isFinite = true ∧ ratOf (Double.ofNat n) = n := by
  have h := integerOf?_eq_some_iff.mp (integerOf?_ofNat hn)
  rwa [Int.cast_natCast] at h

section Values

variable {start : Double} (hstart : start.isFinite = true) (stop : Double)
include hstart

/-- However many steps there were, only one thing is rounded. -/
theorem rangeAt_stores {k : Nat} (hk : k ≤ 2 ^ 53) : ∃ v : ℚ,
    Nearest (if start ≤ stop then ratOf start + k else ratOf start - k) v ∧
      Stores (rangeAt start stop k) v := by
  obtain ⟨hfinite, hvalue⟩ := finite_ofNat hk
  unfold rangeAt
  rw [← hvalue]
  split
  · exact add_stores hstart hfinite
  · exact sub_stores hstart hfinite

theorem rangeStep_eq_done_iff_past {k : Nat} (hk : k ≤ 2 ^ 53) :
    rangeStep start stop k = .done ↔ Past start stop (rangeAt start stop k) := by
  obtain ⟨v, -, hv⟩ := rangeAt_stores hstart stop hk
  rw [rangeStep_eq_done_iff, hv.notNaN]
  exact or_iff_left Bool.false_ne_true

/-- What is past the end stays there. -/
theorem Past.mono {stop : Double} (hstop : stop.isFinite = true) {j k : Nat} (hjk : j ≤ k)
    (hk : k ≤ 2 ^ 53) (hpast : Past start stop (rangeAt start stop j)) :
    Past start stop (rangeAt start stop k) := by
  rcases Nat.eq_or_lt_of_le hjk with rfl | hlt
  · exact hpast
  · have hcast : (j : ℚ) < k := by exact_mod_cast hlt
    obtain ⟨v, hv, hstored⟩ := rangeAt_stores hstart stop (hjk.trans hk)
    obtain ⟨w, hw, hstored'⟩ := rangeAt_stores hstart stop hk
    unfold Past at hpast ⊢
    split at hpast
    · next hup =>
      rw [if_pos hup] at hv hw ⊢
      rw [hstored.le_iff hstop] at hpast
      rw [hstored'.le_iff hstop]
      exact hpast.trans (hv.mono hw (by linarith))
    · next hdown =>
      rw [if_neg hdown] at hv hw ⊢
      rw [hstored.ge_iff hstop] at hpast
      rw [hstored'.ge_iff hstop]
      exact (hw.mono hv (by linarith)).trans hpast

end Values

/-- From no number, no step leads to one. -/
theorem isNaN_rangeAt {start : Double} (hstart : start.isNaN = true) (stop : Double) (k : Nat) :
    (rangeAt start stop k).isNaN = true := by
  have hnan : start.unpack = .notANumber := Float.Model.UnpackedFloat.isNaN_iff.mp hstart
  have hpacked : (Float.Model.pack .notANumber).unpack.isNaN = true :=
    Float.Model.UnpackedFloat.isNaN_iff.mpr Float.Model.UnpackedFloat.unpack_packedNaN
  have hkept {x : Float} (hx : x.toModel.unpack.isNaN = true) :
      (Double.ofFloat x).isNaN = true := by
    rw [Double.isNaN, Double.toFloat_ofFloat]
    exact hx
  unfold rangeAt
  split
  · refine hkept ?_
    show (Float.Model.pack (.add _ start.unpack _)).unpack.isNaN = true
    rw [hnan]
    exact hpacked
  · refine hkept ?_
    show (Float.Model.pack (.sub _ start.unpack _)).unpack.isNaN = true
    rw [hnan]
    exact hpacked

/-! ## 5. Which iterations end -/

/-- The value after 2^53 steps is past the end. A range that starts at a NaN is there at once. -/
def WithinReach (start stop : Double) : Prop :=
  start.isNaN = true ∨ Past start stop (rangeAt start stop (2 ^ 53))

theorem rangeStep_of_isNaN {start : Double} (hstart : start.isNaN = true) (stop : Double)
    (k : Nat) : rangeStep start stop k = .done :=
  rangeStep_eq_done_iff.mpr (.inr (isNaN_rangeAt hstart stop k))

theorem exists_done_iff {start stop : Double} (hstart : start.isInf = false)
    (hstop : stop.isFinite = true ∨ start.isNaN = true) :
    (∃ k, rangeStep start stop (countedSteps k) = .done) ↔ WithinReach start stop := by
  unfold WithinReach
  cases hnan : start.isNaN with
  | true => exact iff_of_true ⟨0, rangeStep_of_isNaN hnan stop _⟩ (.inl rfl)
  | false =>
    have hfinite := isFinite_of_isInf_of_isNaN hstart hnan
    have hstop := hstop.resolve_right (hnan ▸ Bool.false_ne_true)
    rw [or_iff_right Bool.false_ne_true]
    constructor
    · rintro ⟨k, hk⟩
      rw [rangeStep_eq_done_iff_past hfinite stop (countedSteps_le k)] at hk
      exact hk.mono hfinite hstop (countedSteps_le k) le_rfl
    · intro hpast
      refine ⟨2 ^ 53, ?_⟩
      rw [show countedSteps (2 ^ 53) = 2 ^ 53 from Nat.min_self _,
        rangeStep_eq_done_iff_past hfinite stop le_rfl]
      exact hpast

/-- An iteration of a range that starts at a NaN, or starts and stops at finite numbers, ends if and
only if its end is within reach, and then with at most 2^53 values. Otherwise there is always one
more. All the values come before the end. -/
theorem Reachable.range_ends_iff {tuning : Tuning} {base : Heap}
    (hr : Reachable (fun _ _ => True) tuning base) {h : Handle} {start stop : Double}
    (ho : base.get? h = some (.range start stop)) (hstart : start.isInf = false)
    (hstop : stop.isFinite = true ∨ start.isNaN = true) :
    ((∃ n ≤ 2 ^ 53, YieldsExactly h base n) ↔ WithinReach start stop) ∧
    (¬ WithinReach start stop → ∀ seen state heap, Traversal h base seen state heap →
      ∃ state' v, iterate (.object h) state heap = .ok (.next state' v) heap) ∧
    ∀ seen state heap, Traversal h base seen state heap → ∀ entry ∈ seen,
      ∃ x, entry.1 = .number x ∧ Before start stop x := by
  have ht := hr.tidy
  rw [← exists_done_iff hstart hstop]
  refine ⟨⟨?_, fun hends => ?_⟩, fun hgoing seen state heap hrun => ?_,
    fun seen state heap hrun entry hentry => ?_⟩
  · rintro ⟨n, -, hn⟩
    exact ⟨n, hn.rangeStep_eq_done ht ho⟩
  · have hend := Nat.find_spec hends
    have hbefore : ∀ k < Nat.find hends, rangeStep start stop (countedSteps k) ≠ .done :=
      fun k => Nat.find_min hends
    refine ⟨Nat.find hends, ?_, yieldsExactly_of_first ht ho hbefore hend⟩
    by_contra hlt
    rw [not_le] at hlt
    rw [countedSteps, Nat.min_eq_right hlt.le] at hend
    exact hbefore _ hlt hend
  · exact hrun.iterate_next ht ho (not_exists.mp hgoing _)
  · obtain ⟨i, hi⟩ := List.mem_iff_getElem?.mp hentry
    obtain ⟨hgoing, hx⟩ := (hrun.rangeStands ht ho).shown i entry hi
    have hstop := hstop.resolve_right fun hnan => hgoing (rangeStep_of_isNaN hnan stop _)
    exact ⟨_, hx, before_of_ne_done hstop hgoing⟩

/-- From one half to two. -/
theorem Reachable.range_ends_of_half :
    let range : Object := .range 0.5 2
    let h := ((Heap.empty .stressed).alloc range).1
    let base := (HeapOp.act (.newRange 0.5 2)).after (.empty .stressed)
    Reachable (fun _ _ => True) .stressed base ∧ base.get? h = some range ∧
      ∃ n ≤ 2 ^ 53, YieldsExactly h base n := by
  intro range h base
  have hr : Reachable (fun _ _ => True) .stressed base := .step .start trivial
  have ho : base.get? h = some range := Heap.get?_alloc_new (Heap.empty_tidy _) range
  refine ⟨hr, ho, ?_⟩
  rw [(hr.range_ends_iff ho (by decide +kernel) (.inl (by decide +kernel))).1]
  exact .inr (by decide +kernel)

/-- Neither the iteration from 0 to 2^54 ends, nor that from 0 to a NaN. -/
theorem range_without_end :
    (let range : Object := .range 0 (Double.ofNat (2 ^ 54))
      let h := ((Heap.empty .stressed).alloc range).1
      let base := (HeapOp.act (.newRange 0 (Double.ofNat (2 ^ 54)))).after (.empty .stressed)
      Reachable (fun _ _ => True) .stressed base ∧ base.get? h = some range ∧
        Double.isFinite 0 = true ∧ (Double.ofNat (2 ^ 54)).isFinite = true ∧
        ¬ ∃ n, YieldsExactly h base n) ∧
    (let range : Object := .range 0 Double.nan
      let h := ((Heap.empty .stressed).alloc range).1
      let base := (HeapOp.act (.newRange 0 Double.nan)).after (.empty .stressed)
      Reachable (fun _ _ => True) .stressed base ∧ base.get? h = some range ∧
        Double.isFinite 0 = true ∧ Double.nan.isNaN = true ∧ ¬ ∃ n, YieldsExactly h base n) := by
  have hzero : Double.isFinite 0 = true := by decide +kernel
  have hfar : (Double.ofNat (2 ^ 54)).isFinite = true := by decide +kernel
  have hnan : Double.nan.isNaN = true := by decide +kernel
  have htidy (range : Object) : ((Heap.empty .stressed).alloc range).2.Tidy :=
    Heap.alloc_tidy (Heap.empty_tidy _) range
  refine ⟨⟨.step .start trivial, Heap.get?_alloc_new (Heap.empty_tidy _) _, hzero, hfar, ?_⟩,
    ⟨.step .start trivial, Heap.get?_alloc_new (Heap.empty_tidy _) _, hzero, hnan, ?_⟩⟩
  · refine not_yieldsExactly (htidy _) (Heap.get?_alloc_new (Heap.empty_tidy _) _) ?_
    refine not_exists.mp ?_
    rw [exists_done_iff (by decide +kernel) (.inl hfar)]
    exact not_or.mpr ⟨by decide +kernel, by decide +kernel⟩
  · refine not_yieldsExactly (htidy _) (Heap.get?_alloc_new (Heap.empty_tidy _) _) fun k => ?_
    rw [ne_eq, rangeStep_eq_done_iff_past hzero Double.nan (countedSteps_le k), Past,
      if_neg (not_le_of_isNaN hnan)]
    exact not_le_of_isNaN hnan

/-! ## 6. Integers -/

/-- The iterations of the container of `h` that begin on `base` count from `a` to `b`, which they
leave out. -/
structure CountsThrough (h : Handle) (base : Heap) (a b : Int) : Prop where
  /-- There are as many values as from `a` to `b`. -/
  exactly : YieldsExactly h base (b - a).natAbs
  /-- The state is the number of values so far. -/
  state : ∀ {seen state heap}, Traversal h base seen state heap → seen ≠ [] →
    ∃ x, state = .number x ∧ integerOf? x = some (seen.length : Int)
  /-- Each value is one more than the last, or one less. -/
  value : ∀ {seen state heap}, Traversal h base seen state heap →
    ∀ (i : Nat) entry, seen[i]? = some entry →
      ∃ x, entry.1 = .number x ∧ integerOf? x = some (if a ≤ b then a + i else a - i)
  empty_iff : YieldsExactly h base 0 ↔ a = b
  /-- The end is not among the values. -/
  never_stop : ∀ {seen state heap}, Traversal h base seen state heap → ∀ entry ∈ seen, ∀ x,
    entry.1 = .number x → integerOf? x ≠ some b

section Integers

variable {start stop : Double} {a b : Int} (ha : integerOf? start = some a)
  (hb : integerOf? stop = some b) (hsize : a.natAbs ≤ 2 ^ 53)
  (hsize' : b.natAbs ≤ 2 ^ 53) (hdistance : (b - a).natAbs ≤ 2 ^ 53)
include ha hb hsize hsize' hdistance

/-- On the way to the end nothing is rounded. -/
theorem rangeAt_integer {k : Nat} (hk : k ≤ (b - a).natAbs) :
    integerOf? (rangeAt start stop k) = some (if a ≤ b then a + k else a - k) ∧
      (rangeStep start stop k = .done ↔ k = (b - a).natAbs) := by
  obtain ⟨hfinite, hvalue⟩ := integerOf?_eq_some_iff.mp ha
  obtain ⟨hfinite', hvalue'⟩ := integerOf?_eq_some_iff.mp hb
  have hup : start ≤ stop ↔ a ≤ b := by
    rw [le_iff_ratOf_le hfinite hfinite', hvalue, hvalue', Int.cast_le]
  have hcounted : k ≤ 2 ^ 53 := by omega
  obtain ⟨v, hv, hstored⟩ := rangeAt_stores hfinite stop hcounted
  rw [rangeStep_eq_done_iff_past hfinite stop hcounted]
  rw [hvalue, if_congr hup rfl rfl] at hv
  rw [Past, if_congr hup rfl rfl, hstored.le_iff hfinite', hstored.ge_iff hfinite', hvalue',
    integerOf?_eq_some_iff]
  split
  · next hle =>
    rw [if_pos hle] at hv
    have hexact : v = (a + k : Int) := by
      refine (Nearest.eq_of_representable ?_ (representable_intCast (n := a + k) ?_))
      · exact_mod_cast hv
      · exact abs_le.mpr (by omega)
    subst hexact
    refine ⟨hstored.ratOf_eq hfinite hfinite' ?_ ?_, ?_⟩
    · rw [hvalue, Int.cast_le]
      omega
    · rw [hvalue', Int.cast_le]
      omega
    · rw [Int.cast_le]
      omega
  · next hgt =>
    rw [if_neg hgt] at hv
    have hexact : v = (a - k : Int) := by
      refine (Nearest.eq_of_representable ?_ (representable_intCast (n := a - k) ?_))
      · exact_mod_cast hv
      · exact abs_le.mpr (by omega)
    subst hexact
    refine ⟨hstored.ratOf_eq hfinite' hfinite ?_ ?_, ?_⟩
    · rw [hvalue', Int.cast_le]
      omega
    · rw [hvalue, Int.cast_le]
      omega
    · rw [Int.cast_le]
      omega

/-- Between integers of at most 2^53 that are no farther apart than that, an iteration counts. -/
theorem Reachable.range_countsThrough {tuning : Tuning} {base : Heap}
    (hr : Reachable (fun _ _ => True) tuning base) {h : Handle}
    (ho : base.get? h = some (.range start stop)) : CountsThrough h base a b := by
  have ht := hr.tidy
  have hcounted {k : Nat} (hk : k ≤ (b - a).natAbs) : countedSteps k = k :=
    Nat.min_eq_left (by omega)
  have hstep {k : Nat} (hk : k ≤ (b - a).natAbs) :=
    rangeAt_integer ha hb hsize hsize' hdistance hk
  have hexactly : YieldsExactly h base (b - a).natAbs := by
    refine yieldsExactly_of_first ht ho (fun k hk => ?_) ?_
    · rw [hcounted hk.le, ne_eq, (hstep hk.le).2]
      exact hk.ne
    · rw [hcounted le_rfl, (hstep le_rfl).2]
  have hvalue {seen : List (Value × Heap)} {state : Value} {heap : Heap}
      (hrun : Traversal h base seen state heap) {i : Nat} {entry : Value × Heap}
      (hentry : seen[i]? = some entry) : i < (b - a).natAbs ∧ ∃ x, entry.1 = .number x ∧
        integerOf? x = some (if a ≤ b then a + i else a - i) := by
    have hlt : i < (b - a).natAbs :=
      (List.getElem?_eq_some_iff.mp hentry).1.trans_le (hexactly.length_le hrun)
    have hshown := ((hrun.rangeStands ht ho).shown i entry hentry).2
    rw [hcounted hlt.le] at hshown
    exact ⟨hlt, _, hshown, (hstep hlt.le).1⟩
  refine ⟨hexactly, fun {seen state heap} hrun hsome => ?_,
    fun hrun i entry hentry => (hvalue hrun hentry).2, ?_, fun {seen state heap} hrun => ?_⟩
  · have hle := hexactly.length_le hrun
    rw [(hrun.rangeStands ht ho).state_eq, rangeState, if_neg (mt List.length_eq_zero_iff.mp hsome),
      hcounted hle]
    exact ⟨_, rfl, integerOf?_ofNat (by omega)⟩
  · constructor
    · intro hempty
      have := hexactly.unique hempty
      omega
    · rintro rfl
      rwa [sub_self, Int.natAbs_zero] at hexactly
  · intro entry hentry x hx
    obtain ⟨i, hi⟩ := List.mem_iff_getElem?.mp hentry
    obtain ⟨hlt, y, hy, hread⟩ := hvalue hrun hi
    rw [hx] at hy
    injection hy with hy
    rw [hy, hread, ne_eq, Option.some.injEq]
    split <;> omega

end Integers

/-- From five down to one. -/
theorem Reachable.range_countsThrough_down :
    let range : Object := .range 5 1
    let h := ((Heap.empty .stressed).alloc range).1
    let base := (HeapOp.act (.newRange 5 1)).after (.empty .stressed)
    Reachable (fun _ _ => True) .stressed base ∧ base.get? h = some range ∧
      CountsThrough h base 5 1 := by
  intro range h base
  have hr : Reachable (fun _ _ => True) .stressed base := .step .start trivial
  have ho : base.get? h = some range := Heap.get?_alloc_new (Heap.empty_tidy _) range
  exact ⟨hr, ho, Reachable.range_countsThrough (by decide +kernel) (by decide +kernel)
    (by decide) (by decide) (by decide) hr ho⟩

end ScriptMachine
