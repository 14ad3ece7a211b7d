import Grayscale.Codegen.RangeMembership
import Mathlib.Algebra.Order.Ring.Abs

/-!
# Stored ranges against their loops

The membership test and the length of a stored range are closed forms for the loop over it: a
difference and a remainder, a distance and a quotient. This file compares the two.
-/

namespace Grayscale

variable {T : RangeElement}

namespace GrayRange

/-! ### The loop -/

section Loop

variable (range : GrayRange T)

/-- The values from the start on, by `GrayRange_<T>_range_advance`, while the range continues. -/
inductive Visits : T.Value → Prop
  | first (h : range.continues range.start = true) : Visits range.start
  | next {value : T.Value} (hvalue : Visits value)
    (h : range.continues (rangeAdvance T value range.step range.stop) = true) :
    Visits (rangeAdvance T value range.step range.stop)

/-- The loop over the range has `n` rounds: a body that counts them ends with `n`. -/
def VisitCount (n : ℕ) : Prop :=
  ∃ fuel, range.loop.run (fun _ count => (.ok (count + 1) : Except Empty ℕ)) fuel 0 = some (.ok n)

variable {range}

theorem Visits.continues {value : T.Value} (h : range.Visits value) :
    range.continues value = true := by
  cases h with
  | first h => exact h
  | next _ h => exact h

theorem not_continues_stop : range.continues range.stop = false := by
  simp [continues]

variable (range)

theorem continues_between (hstep : range.step.1 ≠ 0) {k : ℕ} {value : T.Value}
    (hval : value.1 = range.start.1 + (k + 1 : ℕ) * range.step.1)
    (hgo : range.continues value = true) :
    ∃ h : T.format.Contains (range.start.1 + k * range.step.1),
      range.continues ⟨range.start.1 + k * range.step.1, h⟩ = true ∧
        T.format.Contains (range.start.1 + k * range.step.1 + range.step.1) := by
  have hst := range.start.2
  have hmem := value.2
  have hsum : range.start.1 + k * range.step.1 + range.step.1 = value.1 := by
    rw [hval, steps_succ]
  rcases lt_or_gt_of_ne hstep with hneg | hpos
  · have hk : range.start.1 + k * range.step.1 ≤ range.start.1 := ge_of_steps hneg ⟨k, rfl⟩
    rw [continues_of_neg range hneg, decide_eq_true_eq] at hgo
    have hin : T.format.Contains (range.start.1 + k * range.step.1) :=
      ⟨by have := hmem.1; omega, by have := hst.2; omega⟩
    refine ⟨hin, ?_, hsum ▸ hmem⟩
    rw [continues_of_neg range hneg, decide_eq_true_eq]
    change range.stop.1 < range.start.1 + k * range.step.1
    omega
  · have hk : range.start.1 ≤ range.start.1 + k * range.step.1 := le_of_steps hpos ⟨k, rfl⟩
    rw [continues_of_pos range hpos, decide_eq_true_eq] at hgo
    have hin : T.format.Contains (range.start.1 + k * range.step.1) :=
      ⟨by have := hst.1; omega, by have := hmem.2; omega⟩
    refine ⟨hin, ?_, hsum ▸ hmem⟩
    rw [continues_of_pos range hpos, decide_eq_true_eq]
    change range.start.1 + k * range.step.1 < range.stop.1
    omega

theorem visits_iff (hstep : range.step.1 ≠ 0) (value : T.Value) : range.Visits value ↔
      (∃ k : ℕ, value.1 = range.start.1 + k * range.step.1) ∧ range.continues value = true := by
  constructor
  · intro h
    refine ⟨?_, h.continues⟩
    induction h with
    | first _ => exact ⟨0, by simp⟩
    | @next value _ hgo ih =>
      obtain ⟨k, hk⟩ := ih
      by_cases hsum : T.format.Contains (value.1 + range.step.1)
      · refine ⟨k + 1, ?_⟩
        rw [rangeAdvance_of_contains _ hsum]
        change value.1 + range.step.1 = _
        rw [hk, steps_succ]
      · rw [rangeAdvance_of_not_contains _ hsum, not_continues_stop] at hgo
        cases hgo
  · rintro ⟨⟨k, hk⟩, hgo⟩
    induction k generalizing value with
    | zero =>
      have hfst : value = range.start := Subtype.ext (by simpa using hk)
      subst hfst
      exact .first hgo
    | succ k ih =>
      obtain ⟨hin, hbef, hsum⟩ := range.continues_between hstep hk hgo
      have hadvance := @rangeAdvance_of_contains T ⟨_, hin⟩ range.step range.stop hsum
      have hval : rangeAdvance T ⟨_, hin⟩ range.step range.stop = value := by
        rw [hadvance]
        apply Subtype.ext
        change range.start.1 + k * range.step.1 + range.step.1 = value.1
        rw [hk, steps_succ]
      have := Visits.next (ih ⟨_, hin⟩ hbef rfl) (by rwa [hval])
      rwa [hval] at this

end Loop

/-! ### Membership -/

section Contains

variable (range : GrayRange T)

/-- The value lies from the start on and before the stop, in the direction of the step. -/
def IsInside (value : T.Value) : Prop :=
  if 0 < range.step.1 then range.start.1 ≤ value.1 ∧ value.1 < range.stop.1
  else value.1 ≤ range.start.1 ∧ range.stop.1 < value.1

instance (value : T.Value) : Decidable (range.IsInside value) := by
  unfold IsInside
  infer_instance

variable {range}

theorem visits_iff_isInside (hstep : range.step.1 ≠ 0) (value : T.Value) :
    range.Visits value ↔ range.IsInside value ∧ range.step.1 ∣ value.1 - range.start.1 := by
  rw [range.visits_iff hstep, IsInside]
  rcases lt_or_gt_of_ne hstep with hneg | hpos
  · rw [if_neg (by omega), continues_of_neg range hneg, decide_eq_true_eq]
    constructor
    · rintro ⟨hsts, hlt⟩
      have hle := ge_of_steps hneg hsts
      have hmod := (exists_steps_down_iff hneg hle).mpr hsts
      exact ⟨⟨hle, hlt⟩, (dvd_sub_comm).mp (neg_dvd.mp (Int.dvd_of_emod_eq_zero hmod))⟩
    · rintro ⟨⟨hle, hlt⟩, hdvd⟩
      have hmod := Int.emod_eq_zero_of_dvd (neg_dvd.mpr (dvd_sub_comm.mp hdvd))
      exact ⟨(exists_steps_down_iff hneg hle).mp hmod, hlt⟩
  · rw [if_pos hpos, continues_of_pos range hpos, decide_eq_true_eq]
    constructor
    · rintro ⟨hsts, hlt⟩
      have hle := le_of_steps hpos hsts
      have hmod := (exists_steps_iff hpos hle).mpr hsts
      exact ⟨⟨hle, hlt⟩, Int.dvd_of_emod_eq_zero hmod⟩
    · rintro ⟨⟨hle, hlt⟩, hdvd⟩
      exact ⟨(exists_steps_iff hpos hle).mp (Int.emod_eq_zero_of_dvd hdvd), hlt⟩

theorem containsWide_iff (hstep : range.step.1 ≠ 0) (value : T.Value) :
    range.containsWide value = .ok true ↔ range.IsInside value ∧
      range.step.1 ∣ (T.format.wrap (value.1 - range.start.1)).1 := by
  have hin : (if 0 < range.step.1 then
      decide (range.start.1 ≤ value.1) && decide (value.1 < range.stop.1)
      else decide (value.1 ≤ range.start.1) && decide (range.stop.1 < value.1)) = true ↔
      range.IsInside value := by
    unfold IsInside
    split_ifs <;> rw [Bool.and_eq_true, decide_eq_true_eq, decide_eq_true_eq]
  have hrem : T.format.Contains
      ((T.format.wrap (value.1 - range.start.1)).1.tmod range.step.1) := by
    have hlow := Int.natAbs_tmod (T.format.wrap (value.1 - range.start.1)).1 range.step.1
    have hle := Nat.mod_le (T.format.wrap (value.1 - range.start.1)).1.natAbs range.step.1.natAbs
    have hsign := Int.tmod_nonneg (a := (T.format.wrap (value.1 - range.start.1)).1) range.step.1
    have hneg := Int.tmod_nonneg (a := -(T.format.wrap (value.1 - range.start.1)).1) range.step.1
    rw [Int.neg_tmod] at hneg
    obtain ⟨hzero₁, hzero₂⟩ := T.format.contains_zero
    obtain ⟨hw₁, hw₂⟩ := (T.format.wrap (value.1 - range.start.1)).2
    exact ⟨by omega, by omega⟩
  rw [containsWide]
  by_cases h : range.IsInside value
  · rw [if_pos (hin.mpr h), isOnStep, rangeModulo, if_neg hstep, IntFormat.wrap_of_contains _ hrem]
    change (Except.ok (decide (_ = (0 : ℤ))) : Except Exit Bool) = .ok true ↔ _
    rw [Except.ok.injEq, decide_eq_true_eq, ← Int.dvd_iff_tmod_eq_zero]
    exact ⟨fun hdvd => ⟨h, hdvd⟩, fun hdvd => hdvd.2⟩
  · rw [if_neg (hin.not.mpr h)]
    exact iff_of_false (by simp) fun hand => h hand.1

theorem wrap_sub_of_not_contains {value start : T.Value}
    (h : ¬ T.format.Contains (value.1 - start.1)) (d : ℤ) :
    d ∣ (T.format.wrap (value.1 - start.1)).1 ↔ d ∣ T.format.size - |value.1 - start.1| := by
  have hval := value.2
  have hst := start.2
  have hpos := T.format.size_pos
  have hmin := T.format.min_le_zero
  obtain ⟨hv₁, hv₂⟩ := hval
  obtain ⟨hs₁, hs₂⟩ := hst
  have hzero := T.format.contains_zero.2
  rcases not_and_or.mp h with hlow | hhigh
  · rw [T.format.wrap_of_lt (by omega) (by omega), abs_of_neg (by omega), sub_neg_eq_add, add_comm]
  · rw [T.format.wrap_of_ge (by omega) (by omega), abs_of_nonneg (by omega), ← dvd_neg, neg_sub]

/-- Where membership in a stored range agrees with the loop. -/
def MembershipAgreesAt (range : GrayRange T) (value : T.Value) : Prop :=
  T = .i64 ∨ ¬ range.IsInside value ∨ T.format.Contains (value.1 - range.start.1) ∨
    range.step.1 ∣ T.format.size ∨ ¬ range.step.1 ∣ value.1 - range.start.1 ∧
      ¬ range.step.1 ∣ T.format.size - |value.1 - range.start.1|

theorem dvd_complement_iff (d size n : ℤ) :
    (d ∣ size - |n| ↔ d ∣ n) ↔ d ∣ size ∨ ¬ d ∣ n ∧ ¬ d ∣ size - |n| := by
  have hsum : d ∣ size - |n| → d ∣ n → d ∣ size := fun hrest hn => by
    have := dvd_add hrest ((dvd_abs d n).mpr hn)
    rwa [sub_add_cancel] at this
  constructor
  · intro h
    by_cases hn : d ∣ n
    · exact .inl (hsum (h.mpr hn) hn)
    · exact .inr ⟨hn, fun hrest => hn (h.mp hrest)⟩
  · rintro (hsize | ⟨hn, hrest⟩)
    · constructor
      · intro hrest
        have := dvd_sub hsize hrest
        rw [sub_sub_cancel, dvd_abs] at this
        exact this
      · exact fun hn => dvd_sub hsize ((dvd_abs d n).mpr hn)
    · exact iff_of_false hrest hn

/-- `GrayRange_<T>_contains` is true for the values that the loop visits, if the difference is one
of the type, the step divides the size of the type, or neither the difference nor its complement is
a multiple of the step. -/
theorem contains_iff_visits_iff (range : GrayRange T) (hstep : range.step.1 ≠ 0)
    (value : T.Value) :
    (range.contains value = .ok true ↔ range.Visits value) ↔ range.MembershipAgreesAt value := by
  by_cases hT : T = .i64
  · subst hT
    refine iff_of_true ?_ (.inl rfl)
    rw [contains, Except.ok.injEq, range.containsI64_iff hstep, range.visits_iff hstep]
  · rw [contains_of_ne_i64 hT, containsWide_iff hstep, visits_iff_isInside hstep,
      MembershipAgreesAt]
    by_cases hinside : range.IsInside value
    · by_cases hin : T.format.Contains (value.1 - range.start.1)
      · rw [IntFormat.wrap_val_of_contains hin]
        exact iff_of_true Iff.rfl (.inr (.inr (.inl hin)))
      · rw [wrap_sub_of_not_contains hin, and_congr_right_iff]
        simp only [hT, hinside, hin, not_true_eq_false, false_or, true_implies]
        exact dvd_complement_iff _ _ _
    · exact iff_of_true (by simp [hinside]) (.inr (.inl hinside))

end Contains

/-- The values from the least i128 to the greatest, three apart. -/
def leastByThree : GrayRange .i128 :=
  ⟨RangeElement.i128.format.wrap (-2 ^ 127), RangeElement.i128.format.wrap (2 ^ 127 - 1),
    RangeElement.i128.format.wrap 3⟩

/-- The loop over `leastByThree` visits one, and membership denies it. -/
theorem not_contains_iff_visits : leastByThree.contains (RangeElement.i128.format.wrap 1) =
      .ok false ∧ ¬ ∀ (T : RangeElement) (range : GrayRange T) (value : T.Value),
        range.step.1 ≠ 0 → (range.contains value = .ok true ↔ range.Visits value) := by
  have hin : leastByThree.contains (RangeElement.i128.format.wrap 1) = .ok false := by
    decide +kernel
  refine ⟨hin, fun h => ?_⟩
  have hvis : leastByThree.Visits (RangeElement.i128.format.wrap 1) :=
    (visits_iff_isInside (by decide +kernel) _).mpr (by decide +kernel)
  have htrue := (h .i128 leastByThree (RangeElement.i128.format.wrap 1) (by decide +kernel)).mpr
    hvis
  rw [hin] at htrue
  cases htrue

theorem contains_iff_visits_leastByThree :
    ((leastByThree.contains (RangeElement.i128.format.wrap (2 - 2 ^ 127)) = .ok true ↔
      leastByThree.Visits (RangeElement.i128.format.wrap (2 - 2 ^ 127))) ↔
        leastByThree.MembershipAgreesAt (RangeElement.i128.format.wrap (2 - 2 ^ 127))) ∧
    leastByThree.MembershipAgreesAt (RangeElement.i128.format.wrap (2 - 2 ^ 127)) :=
  ⟨contains_iff_visits_iff leastByThree (by decide +kernel) _,
    .inr (.inr (.inl (by decide +kernel)))⟩

/-! ### The length -/

/-- The panic of `gray_<T>_sub_checked`; that of u64 does not check, and i64 has none. -/
def subtractionPanic : RangeElement → Option String
  | .i64 | .u64 => none
  | .i128 => some "P0022"
  | .u128 => some "P0025"
  | .i256 => some "P0028"
  | .u256 => some "P0031"

/-- `gray_<T>_sub_checked`: the signs, or the order of unsigned operands, tell an overflow. -/
def rangeSubChecked (left right : T.Value) : Except Exit T.Value :=
  let result := T.format.wrap (left.1 - right.1)
  let overflows : Bool :=
    if T.isSigned then
      (0 ≤ left.1 && right.1 < 0 && result.1 < 0) || (left.1 < 0 && 0 ≤ right.1 && 0 ≤ result.1)
    else left.1 < right.1
  match subtractionPanic T with
  | none => .ok result
  | some code => if overflows then .error (.panic code) else .ok result

/-- `gray_<T>_div`: the quotient is truncated. -/
def rangeDivide (left right : T.Value) : Except Exit T.Value :=
  if right.1 = 0 then .error (moduloByZero T) else .ok (T.format.wrap (left.1.tdiv right.1))

/-- The panic of `gray_<T>_to_i64`; an i64 stays one. -/
def narrowingPanic : RangeElement → String
  | .i64 | .u64 => "P0155"
  | .i128 => "P0093"
  | .u128 => "P0095"
  | .i256 => "P0097"
  | .u256 => "P0099"

/-- `gray_<T>_to_i64`. -/
def rangeToI64 (value : T.Value) : Except Exit RangeElement.i64.Value :=
  if h : RangeElement.i64.format.Contains value.1 then .ok ⟨value.1, h⟩
  else .error (.panic (narrowingPanic T))

/-- `(uint64_t)INT64_MAX`. -/
def maxCount : ℤ := 2 ^ 63 - 1

/-- The count of `GrayRange_i64_len`, all in `uint64_t`. -/
def countI64 (distance stride : ℤ) : Except Exit RangeElement.i64.Value :=
  let count := ((distance - 1) % 2 ^ 64 / stride + 1) % 2 ^ 64
  if maxCount < count then .error (.panic "P0155") else .ok (RangeElement.i64.format.wrap count)

/-- `GrayRange_i64_len`. -/
def lenI64 (range : GrayRange .i64) : Except Exit RangeElement.i64.Value :=
  if range.step.1 = 0 then .error (.panic "P0090")
  else if 0 < range.step.1 then
    if range.stop.1 ≤ range.start.1 then .ok RangeElement.i64.zero
    else countI64 ((range.stop.1 - range.start.1) % 2 ^ 64) (range.step.1 % 2 ^ 64)
  else
    if range.start.1 ≤ range.stop.1 then .ok RangeElement.i64.zero
    else countI64 ((range.start.1 - range.stop.1) % 2 ^ 64) (-range.step.1 % 2 ^ 64)

/-- The end of `GrayRange_<T>_len`: the quotient and one. -/
def countWide (quotient : T.Value) : Except Exit RangeElement.i64.Value :=
  if maxCount ≤ quotient.1 then .error (.panic "P0155")
  else do
    let count ← rangeToI64 quotient
    return RangeElement.i64.format.wrap (count.1 + 1)

/-- `GrayRange_<T>_len` for u64 and the wide types. -/
def lenWide (range : GrayRange T) : Except Exit RangeElement.i64.Value :=
  if range.step.1 = 0 then .error (.panic "P0090")
  else if 0 < range.step.1 then
    if range.stop.1 ≤ range.start.1 then .ok RangeElement.i64.zero
    else do
      let distance ← rangeSubChecked range.stop range.start
      let last ← rangeSubChecked distance T.one
      let quotient ← rangeDivide last range.step
      countWide quotient
  else
    if range.start.1 ≤ range.stop.1 then .ok RangeElement.i64.zero
    else do
      let distance ← rangeSubChecked range.stop range.start
      let quotient ← rangeDivide (T.format.wrap (distance.1 + T.one.1)) range.step
      countWide quotient

/-- `GrayRange_<T>_len`. -/
def len : {T : RangeElement} → GrayRange T → Except Exit RangeElement.i64.Value
  | .i64, range => range.lenI64
  | .u64, range | .i128, range | .u128, range | .i256, range | .u256, range => range.lenWide

/-- The number of rounds from a value on. -/
def count (range : GrayRange T) (value : T.Value) : ℕ :=
  if range.continues value then (range.distance value - 1) / range.step.1.natAbs + 1 else 0

theorem count_advance (range : GrayRange T) (hstep : range.step.1 ≠ 0) {value : T.Value}
    (hgo : range.continues value = true) :
    range.count value = range.count (rangeAdvance T value range.step range.stop) + 1 := by
  have hstop := range.stop.2
  have hval := value.2
  have hpositive : 0 < range.step.1.natAbs := Int.natAbs_pos.mpr hstep
  have hdist : range.continues (rangeAdvance T value range.step range.stop) = true ∧
      range.distance value =
        range.distance (rangeAdvance T value range.step range.stop) + range.step.1.natAbs ∧
      0 < range.distance (rangeAdvance T value range.step range.stop) ∨
      range.continues (rangeAdvance T value range.step range.stop) = false ∧
        0 < range.distance value ∧ range.distance value ≤ range.step.1.natAbs := by
    obtain ⟨hstop₁, hstop₂⟩ := hstop
    obtain ⟨hval₁, hval₂⟩ := hval
    by_cases hsum : T.format.Contains (value.1 + range.step.1)
    · rw [rangeAdvance_of_contains range.stop hsum]
      rcases lt_or_gt_of_ne hstep with hneg | hpos
      · simp only [continues_of_neg range hneg, decide_eq_true_eq, decide_eq_false_iff_not,
          distance] at hgo ⊢
        omega
      · simp only [continues_of_pos range hpos, decide_eq_true_eq, decide_eq_false_iff_not,
          distance] at hgo ⊢
        omega
    · rw [rangeAdvance_of_not_contains range.stop hsum]
      refine .inr ⟨not_continues_stop, ?_⟩
      rcases lt_or_gt_of_ne hstep with hneg | hpos
      · simp only [continues_of_neg range hneg, decide_eq_true_eq, distance] at hgo ⊢
        have : ¬ T.format.min ≤ value.1 + range.step.1 := fun hle => hsum ⟨hle, by omega⟩
        omega
      · simp only [continues_of_pos range hpos, decide_eq_true_eq, distance] at hgo ⊢
        have : ¬ value.1 + range.step.1 < T.format.min + T.format.size :=
          fun hlt => hsum ⟨by omega, hlt⟩
        omega
  rw [count, if_pos hgo, count]
  rcases hdist with ⟨hnext, heq, hlt⟩ | ⟨hnext, hlt, hle⟩
  · rw [if_pos hnext, heq, Nat.sub_add_comm hlt, Nat.add_div_right _ hpositive]
  · rw [hnext, if_neg (by decide), Nat.div_eq_of_lt (by omega)]

theorem runFrom_count (range : GrayRange T) (hstep : range.step.1 ≠ 0) (value : T.Value) (s : ℕ) :
    range.loop.runFrom (fun _ count => (.ok (count + 1) : Except Empty ℕ))
      (range.count value + 1) value s = some (.ok (s + range.count value)) := by
  induction hn : range.count value generalizing value s with
  | zero =>
    have hgo : range.continues value = false := by
      by_contra hne
      rw [count, if_pos (Bool.eq_true_of_not_eq_false hne)] at hn
      cases hn
    exact range.loop.runFrom_stop _ 0 hgo s
  | succ n ih =>
    have hgo : range.continues value = true := by
      by_contra hne
      rw [count, if_neg hne] at hn
      cases hn
    have hnext := range.count_advance hstep hgo
    have hloop : range.loop.continues value = true := hgo
    rw [ForLoop.runFrom, if_pos hloop]
    have hrun := ih (rangeAdvance T value range.step range.stop) (s + 1) (by omega)
    rw [Nat.add_right_comm s 1 n] at hrun
    exact hrun

theorem visitCount_iff (range : GrayRange T) (hstep : range.step.1 ≠ 0) (n : ℕ) :
    range.VisitCount n ↔ n = range.count range.start := by
  have hrun := range.runFrom_count hstep range.start 0
  rw [Nat.zero_add] at hrun
  constructor
  · rintro ⟨fuel, hfuel⟩
    have hmore := ForLoop.runFrom_add range.loop _ (range.count range.start + 1) hfuel
    have hend := ForLoop.runFrom_add range.loop _ fuel hrun
    rw [Nat.add_comm] at hmore
    rw [show range.loop.first = range.start from rfl, hend] at hmore
    exact (Except.ok.inj (Option.some.inj hmore)).symm
  · rintro rfl
    exact ⟨_, hrun⟩

/-- The length is the number of rounds, or the panic for a number above the largest i64. -/
def LenCounts (range : GrayRange T) : Prop :=
  ∃ n : ℕ, range.VisitCount n ∧ range.len.map Subtype.val =
    if maxCount < n then .error (.panic "P0155") else .ok (n : ℤ)

variable {range : GrayRange T}

theorem count_of_pos (hpos : 0 < range.step.1)
    (hlt : range.start.1 < range.stop.1) :
    (range.count range.start : ℤ) = (range.stop.1 - range.start.1 - 1) / range.step.1 + 1 := by
  have hdist : ((range.distance range.start - 1 : ℕ) : ℤ) = range.stop.1 - range.start.1 - 1 := by
    rw [distance]
    omega
  have hstep : (range.step.1.natAbs : ℤ) = range.step.1 := Int.natAbs_of_nonneg hpos.le
  rw [count, continues_of_pos range hpos, if_pos (decide_eq_true hlt), Nat.cast_add, Nat.cast_one,
    Int.natCast_div, hdist, hstep]

theorem count_of_neg (hneg : range.step.1 < 0)
    (hlt : range.stop.1 < range.start.1) :
    (range.count range.start : ℤ) = (range.start.1 - range.stop.1 - 1) / -range.step.1 + 1 := by
  have hdist : ((range.distance range.start - 1 : ℕ) : ℤ) = range.start.1 - range.stop.1 - 1 := by
    rw [distance]
    omega
  have hstep : (range.step.1.natAbs : ℤ) = -range.step.1 := Int.ofNat_natAbs_of_nonpos hneg.le
  rw [count, continues_of_neg range hneg, if_pos (decide_eq_true hlt), Nat.cast_add, Nat.cast_one,
    Int.natCast_div, hdist, hstep]

theorem count_of_not_continues
    (h : range.continues range.start = false) : range.count range.start = 0 := by
  rw [count, h, if_neg (by decide)]

theorem zero_le_maxCount : ¬ maxCount < 0 := by decide

theorem lenCounts_of_map (hstep : range.step.1 ≠ 0)
    (h : range.len.map Subtype.val =
      if maxCount < range.count range.start then .error (.panic "P0155")
      else .ok (range.count range.start : ℤ)) : range.LenCounts :=
  ⟨range.count range.start, (range.visitCount_iff hstep _).mpr rfl, h⟩

theorem countI64_eq {distance stride : ℤ} (hdist : 0 < distance) (hlt : distance < 2 ^ 64)
    (hstride : 0 < stride) : (countI64 distance stride).map Subtype.val =
      if maxCount < (distance - 1) / stride + 1 then .error (.panic "P0155")
      else .ok ((distance - 1) / stride + 1) := by
  have hnn : 0 ≤ (distance - 1) / stride := Int.ediv_nonneg (by omega) hstride.le
  have hle : (distance - 1) / stride ≤ distance - 1 := Int.ediv_le_self _ (by omega)
  have hcnt : ((distance - 1) % 2 ^ 64 / stride + 1) % 2 ^ 64 = (distance - 1) / stride + 1 := by
    rw [Int.emod_eq_of_lt (a := distance - 1) (by omega) (by omega),
      Int.emod_eq_of_lt (by omega) (by omega)]
  rw [countI64, hcnt]
  split_ifs with hmax
  · rfl
  · have hin : RangeElement.i64.format.Contains ((distance - 1) / stride + 1) := by
      rw [maxCount] at hmax
      have hmin : RangeElement.i64.format.min = -2 ^ 63 := rfl
      have hsize : RangeElement.i64.format.size = 2 ^ 64 := rfl
      exact ⟨by omega, by omega⟩
    exact congrArg Except.ok (IntFormat.wrap_val_of_contains hin)

theorem lenCounts_i64 (range : GrayRange .i64) (hstep : range.step.1 ≠ 0) : range.LenCounts := by
  refine lenCounts_of_map hstep ?_
  have hmin : RangeElement.i64.format.min = -2 ^ 63 := rfl
  have hsize : RangeElement.i64.format.size = 2 ^ 64 := rfl
  obtain ⟨hst₁, hst₂⟩ := range.start.2
  obtain ⟨hstop₁, hstop₂⟩ := range.stop.2
  obtain ⟨hstep₁, hstep₂⟩ := range.step.2
  rw [len, lenI64, if_neg hstep]
  rcases lt_or_gt_of_ne hstep with hneg | hpos
  · rw [if_neg (by omega)]
    by_cases hlt : range.stop.1 < range.start.1
    · rw [if_neg (by omega), count_of_neg hneg hlt, Int.emod_eq_of_lt (by omega) (by omega),
        Int.emod_eq_of_lt (by omega) (by omega), countI64_eq (by omega) (by omega) (by omega)]
    · have hzero : range.count range.start = 0 := count_of_not_continues (by
        rw [continues_of_neg range hneg, decide_eq_false hlt])
      rw [if_pos (not_lt.mp hlt), hzero, Nat.cast_zero, if_neg zero_le_maxCount]
      rfl
  · rw [if_pos hpos]
    by_cases hlt : range.start.1 < range.stop.1
    · rw [if_neg (by omega), count_of_pos hpos hlt, Int.emod_eq_of_lt (by omega) (by omega),
        Int.emod_eq_of_lt (by omega) (by omega), countI64_eq (by omega) (by omega) (by omega)]
    · have hzero : range.count range.start = 0 := count_of_not_continues (by
        rw [continues_of_pos range hpos, decide_eq_false hlt])
      rw [if_pos (not_lt.mp hlt), hzero, Nat.cast_zero, if_neg zero_le_maxCount]
      rfl

theorem rangeSubChecked_of_contains {left right : T.Value}
    (h : T.format.Contains (left.1 - right.1)) :
    rangeSubChecked left right = .ok ⟨left.1 - right.1, h⟩ := by
  rw [rangeSubChecked, IntFormat.wrap_of_contains _ h]
  cases subtractionPanic T with
  | none => rfl
  | some code =>
    cases hT : T.isSigned with
    | true =>
      have hiff := (IntFormat.contains_sub_iff hT left.2 right.2).mp h
      rw [IntFormat.wrap_val_of_contains h] at hiff
      simp only [Bool.or_eq_true, Bool.and_eq_true, decide_eq_true_eq, if_true, and_assoc]
      rw [if_neg hiff]
    | false =>
      have hiff := (IntFormat.contains_sub_iff_of_unsigned hT left.2 right.2).mp h
      simp only [Bool.false_eq_true, if_false, decide_eq_true_eq]
      rw [if_neg hiff]

theorem rangeSubChecked_of_not_contains {left right : T.Value} {code : String}
    (hcode : subtractionPanic T = some code) (hT : T.isSigned = true)
    (h : ¬ T.format.Contains (left.1 - right.1)) :
    rangeSubChecked left right = .error (.panic code) := by
  have hiff := not_not.mp ((IntFormat.contains_sub_iff hT left.2 right.2).not.mp h)
  rw [rangeSubChecked, hcode]
  simp only [hT, Bool.or_eq_true, Bool.and_eq_true, decide_eq_true_eq, if_true, and_assoc]
  rw [if_pos hiff]

theorem countWide_eq {quotient : T.Value} (h : 0 ≤ quotient.1) :
    (countWide quotient).map Subtype.val =
      if maxCount < quotient.1 + 1 then .error (.panic "P0155") else .ok (quotient.1 + 1) := by
  rw [countWide]
  by_cases hmax : maxCount ≤ quotient.1
  · rw [if_pos hmax, if_pos (by omega)]
    rfl
  · have hmin : RangeElement.i64.format.min = -2 ^ 63 := rfl
    have hsize : RangeElement.i64.format.size = 2 ^ 64 := rfl
    have hlt := hmax
    rw [maxCount] at hlt
    have hin : RangeElement.i64.format.Contains quotient.1 := ⟨by omega, by omega⟩
    have hnext : RangeElement.i64.format.Contains (quotient.1 + 1) := ⟨by omega, by omega⟩
    rw [if_neg hmax, if_neg (by omega), rangeToI64, dif_pos hin]
    exact congrArg Except.ok (IntFormat.wrap_val_of_contains hnext)

theorem len_of_ne_i64 (h : T ≠ .i64) (range : GrayRange T) : range.len = range.lenWide := by
  cases T with
  | i64 => exact absurd rfl h
  | u64 | i128 | u128 | i256 | u256 => rfl

theorem signed_of_negative {value : T.Value} (h : value.1 < 0) : T.isSigned = true := by
  by_contra hT
  have := T.format.min_of_unsigned (Bool.eq_false_of_not_eq_true hT)
  have := value.2.1
  omega

theorem lenCounts_of_contains (hT : T ≠ .i64) (range : GrayRange T) (hstep : range.step.1 ≠ 0)
    (h : range.continues range.start = true → T.format.Contains (range.stop.1 - range.start.1)) :
    range.LenCounts := by
  refine lenCounts_of_map hstep ?_
  have hone : T.one.1 = 1 := rfl
  have hzero := T.format.min_le_zero
  rw [len_of_ne_i64 hT, lenWide, if_neg hstep]
  rcases lt_or_gt_of_ne hstep with hneg | hpos
  · have hsig : T.format.signed = true := signed_of_negative hneg
    have hmin := T.format.two_mul_min hsig
    rw [if_neg (by omega)]
    by_cases hlt : range.stop.1 < range.start.1
    · have hin := h (by rw [continues_of_neg range hneg, decide_eq_true hlt])
      have hnext : T.format.Contains (range.stop.1 - range.start.1 + 1) :=
        ⟨by have := hin.1; omega, by have := T.one.2.2; omega⟩
      have hquot : (range.stop.1 - range.start.1 + 1).tdiv range.step.1 =
          (range.start.1 - range.stop.1 - 1) / -range.step.1 := by
        rw [← Int.neg_tdiv_neg, Int.tdiv_eq_ediv_of_nonneg (by omega)]
        congr 1
        omega
      have hnn : 0 ≤ (range.start.1 - range.stop.1 - 1) / -range.step.1 :=
        Int.ediv_nonneg (by omega) (by omega)
      have hle : (range.start.1 - range.stop.1 - 1) / -range.step.1 ≤
          range.start.1 - range.stop.1 - 1 := Int.ediv_le_self _ (by omega)
      have hfits : T.format.Contains ((range.start.1 - range.stop.1 - 1) / -range.step.1) :=
        ⟨by omega, by have := hin.1; omega⟩
      rw [if_neg (by omega), rangeSubChecked_of_contains hin]
      simp only [bind, Except.bind, hone]
      rw [IntFormat.wrap_of_contains _ hnext, rangeDivide, if_neg hstep]
      simp only [hquot]
      rw [IntFormat.wrap_of_contains _ hfits, countWide_eq hnn, count_of_neg hneg hlt]
    · have hcnt : range.count range.start = 0 := count_of_not_continues (by
        rw [continues_of_neg range hneg, decide_eq_false hlt])
      rw [if_pos (not_lt.mp hlt), hcnt, Nat.cast_zero, if_neg zero_le_maxCount]
      rfl
  · rw [if_pos hpos]
    by_cases hlt : range.start.1 < range.stop.1
    · have hin := h (by rw [continues_of_pos range hpos, decide_eq_true hlt])
      have hlast : T.format.Contains (range.stop.1 - range.start.1 - T.one.1) :=
        ⟨by omega, by have := hin.2; omega⟩
      have hquot : (range.stop.1 - range.start.1 - 1).tdiv range.step.1 =
          (range.stop.1 - range.start.1 - 1) / range.step.1 := Int.tdiv_eq_ediv_of_nonneg (by omega)
      have hnn : 0 ≤ (range.stop.1 - range.start.1 - 1) / range.step.1 :=
        Int.ediv_nonneg (by omega) (by omega)
      have hle : (range.stop.1 - range.start.1 - 1) / range.step.1 ≤
          range.stop.1 - range.start.1 - 1 := Int.ediv_le_self _ (by omega)
      have hfits : T.format.Contains ((range.stop.1 - range.start.1 - 1) / range.step.1) :=
        ⟨by omega, by have := hin.2; omega⟩
      rw [if_neg (by omega), rangeSubChecked_of_contains hin]
      simp only [bind, Except.bind]
      rw [rangeSubChecked_of_contains hlast]
      simp only [rangeDivide, if_neg hstep, hone, hquot]
      rw [IntFormat.wrap_of_contains _ hfits, countWide_eq hnn, count_of_pos hpos hlt]
    · have hcnt : range.count range.start = 0 := count_of_not_continues (by
        rw [continues_of_pos range hpos, decide_eq_false hlt])
      rw [if_pos (not_lt.mp hlt), hcnt, Nat.cast_zero, if_neg zero_le_maxCount]
      rfl

theorem len_of_not_contains {code : String}
    (hcode : subtractionPanic T = some code) (hT : T.isSigned = true)
    (hstep : range.step.1 ≠ 0) (hgo : range.continues range.start = true)
    (h : ¬ T.format.Contains (range.stop.1 - range.start.1)) :
    range.len = .error (.panic code) := by
  have hne : T ≠ .i64 := by
    rintro rfl
    cases hcode
  have hsub := rangeSubChecked_of_not_contains hcode hT h
  rw [len_of_ne_i64 hne, lenWide, if_neg hstep, hsub]
  rcases lt_or_gt_of_ne hstep with hneg | hpos
  · rw [continues_of_neg range hneg, decide_eq_true_eq] at hgo
    rw [if_neg (by omega), if_neg (by omega)]
    rfl
  · rw [continues_of_pos range hpos, decide_eq_true_eq] at hgo
    rw [if_pos hpos, if_neg (by omega)]
    rfl

theorem subtractionPanic_of_signed (hT : T ≠ .i64) (hsig : T.isSigned = true) :
    ∃ code, subtractionPanic T = some code ∧ code ≠ "P0155" := by
  cases T with
  | i64 => exact absurd rfl hT
  | u64 | u128 | u256 => cases hsig
  | i128 => exact ⟨"P0022", rfl, by decide⟩
  | i256 => exact ⟨"P0028", rfl, by decide⟩

/-- `GrayRange_<T>_len` is the number of rounds of the loop, or P0155 above the largest i64: for i64
and the unsigned types always, and for i128 and i256 if the type has the distance. -/
theorem len_counts_iff (range : GrayRange T) (hstep : range.step.1 ≠ 0) :
    range.LenCounts ↔ T = .i64 ∨ T.isSigned = false ∨ range.continues range.start = false ∨
      T.format.Contains (range.stop.1 - range.start.1) := by
  constructor
  · rintro ⟨n, -, hlen⟩
    by_contra hnot
    simp only [not_or, Bool.not_eq_false] at hnot
    obtain ⟨hT, hsig, hgo, hin⟩ := hnot
    obtain ⟨code, hcode, hne⟩ := subtractionPanic_of_signed hT hsig
    rw [len_of_not_contains hcode hsig hstep hgo hin] at hlen
    split_ifs at hlen
    · exact hne (Exit.panic.inj (Except.error.inj hlen))
    · cases hlen
  · intro h
    by_cases hT : T = .i64
    · subst hT
      exact lenCounts_i64 range hstep
    · refine lenCounts_of_contains hT range hstep fun hgo => ?_
      rcases h with h | huns | h | h
      · exact absurd h hT
      · have hmin : T.format.min = 0 := T.format.min_of_unsigned huns
        have hpos : 0 < range.step.1 := by
          have := range.step.2.1
          omega
        rw [continues_of_pos range hpos, decide_eq_true_eq] at hgo
        have := range.stop.2.2
        have := range.start.2.1
        exact ⟨by omega, by omega⟩
      · rw [h] at hgo
        cases hgo
      · exact h

theorem lenCounts_zero_to_greatest : (⟨RangeElement.i128.format.wrap 0,
      RangeElement.i128.format.wrap (2 ^ 127 - 1), RangeElement.i128.format.wrap 3⟩ :
        GrayRange .i128).LenCounts :=
  (len_counts_iff _ (by decide +kernel)).mpr (.inr (.inr (.inr (by decide +kernel))))

/-- The length of the range over all i128, 2 ^ 126 apart, is four, and panics with P0022. -/
theorem not_lenCounts_all : ¬ ∀ (T : RangeElement) (range : GrayRange T), range.step.1 ≠ 0 →
    range.LenCounts := by
  intro h
  obtain ⟨n, -, hlen⟩ := h .i128 ⟨RangeElement.i128.format.wrap (-2 ^ 127),
    RangeElement.i128.format.wrap (2 ^ 127 - 1), RangeElement.i128.format.wrap (2 ^ 126)⟩
    (by decide +kernel)
  rw [len_of_not_contains rfl rfl (by decide +kernel) (by decide +kernel)
    (by decide +kernel)] at hlen
  split_ifs at hlen
  · exact absurd (Exit.panic.inj (Except.error.inj hlen)) (by decide)
  · cases hlen

end GrayRange

end Grayscale
