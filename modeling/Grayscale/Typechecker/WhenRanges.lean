import Grayscale.Codegen.StoredRanges
import Grayscale.Typechecker.LiteralExact

/-!
# Cases of a `when` covered by a range

A case of a `when` that an earlier range case matches already is dead code, E2043. The checker folds
the bounds of the two and compares arithmetic progressions over i64.
-/

namespace Grayscale

/-! ### The check -/

/-- A value of a `when` case: a `NODE_RANGE_EXPRESSION`, or another expression. -/
inductive WhenCaseValue
  | rangeExpression (start : Option ConstantExpression) (stop : ConstantExpression)
      (step : Option ConstantExpression)
  | expression (e : ConstantExpression)

abbrev I64Value : Type := RangeElement.i64.Value

def typeI64 : IntegerType := ⟨.signed, bytes "i64"⟩

/-- `literal_value_as_i64`: the value of a folded integer that fits i64. -/
def literalValueAsI64 (value : LiteralValue) : Option I64Value :=
  if !literalFits value typeI64 then none
  else
    let magnitude : ℤ := value.magnitude.limb 0 ||| (value.magnitude.limb 1 <<< 32)
    some (RangeElement.i64.format.wrap (if value.isNegative then 0 - magnitude else magnitude))

/-- `when_constant_i64` of an expression. -/
def whenConstantI64 (checker : ConstantTables) (node : ConstantExpression) : Option I64Value :=
  (constantFold (some checker) node).bind literalValueAsI64

/-- A bound of a range that may be left out, with its default value. -/
def whenBound (checker : ConstantTables) (defaultValue : I64Value) :
    Option ConstantExpression → Option I64Value
  | none => some defaultValue
  | some node => whenConstantI64 checker node

/-- `when_constant_range`: the start, stop and step of a range case with constant bounds and a step
other than zero. -/
def whenConstantRange (checker : ConstantTables) : WhenCaseValue → Option (GrayRange .i64)
  | .rangeExpression startNode stopNode stepNode => do
    let start ← whenBound checker RangeElement.i64.zero startNode
    let stop ← whenConstantI64 checker stopNode
    let step ← whenBound checker RangeElement.i64.one stepNode
    if step.1 ≠ 0 then some ⟨start, stop, step⟩ else none
  | .expression _ => none

def whenRangeContains (range : GrayRange .i64) (value : I64Value) : Bool :=
  if 0 < range.step.1 then
    range.start.1 ≤ value.1 && value.1 < range.stop.1 &&
      (value.1 - range.start.1) % 2 ^ 64 % (range.step.1 % 2 ^ 64) = 0
  else
    value.1 ≤ range.start.1 && range.stop.1 < value.1 &&
      (range.start.1 - value.1) % 2 ^ 64 % (-range.step.1 % 2 ^ 64) = 0

/-- `(uint64_t)step`, or `0 - (uint64_t)step` for a step below zero. -/
def whenStride (step : I64Value) : ℤ :=
  if 0 < step.1 then step.1 % 2 ^ 64 else -step.1 % 2 ^ 64

/-- `steps_to_last` of a range with a value. -/
def whenStepsToLast (range : GrayRange .i64) : ℤ :=
  let distance :=
    if 0 < range.step.1 then (range.stop.1 - range.start.1) % 2 ^ 64
    else (range.start.1 - range.stop.1) % 2 ^ 64
  (distance - 1) % 2 ^ 64 / whenStride range.step

/-- `last` of a range with a value. -/
def whenLast (range : GrayRange .i64) : I64Value :=
  let run := whenStepsToLast range * whenStride range.step
  RangeElement.i64.format.wrap (range.start.1 + if 0 < range.step.1 then run else 0 - run)

/-- The part of `when_case_covered_by_range` for two ranges. -/
def whenRangeCovered (range earlier : GrayRange .i64) : Bool :=
  let isEmpty : Bool :=
    if 0 < range.step.1 then range.stop.1 ≤ range.start.1 else range.start.1 ≤ range.stop.1
  !isEmpty && (whenStride range.step % whenStride earlier.step == 0 &&
    whenRangeContains earlier range.start && whenRangeContains earlier (whenLast range))

/-- `when_case_covered_by_range`; a name of the scope may hold a stored range. -/
def whenCaseCoveredByRange (checker : ConstantTables) (isStoredRange : Text → Bool)
    (value earlier : WhenCaseValue) : Bool :=
  match value, earlier with
  | .expression (.label name), .expression (.label earlierName) =>
    isStoredRange name && name == earlierName
  | _, _ =>
    match whenConstantRange checker earlier with
    | none => false
    | some earlierRange =>
      let point := match value with
        | .expression e => whenConstantI64 checker e
        | .rangeExpression .. => none
      match point with
      | some point => whenRangeContains earlierRange point
      | none =>
        match whenConstantRange checker value with
        | none => false
        | some range => whenRangeCovered range earlierRange

/-! ### What a case matches -/

/-- A case value with constants: one value, or the values of a range. -/
inductive ConstantCase
  | constant (value : I64Value)
  | values (range : GrayRange .i64)

def constantCase (checker : ConstantTables) : WhenCaseValue → Option ConstantCase
  | .expression e => (whenConstantI64 checker e).map .constant
  | .rangeExpression start stop step =>
    (whenConstantRange checker (.rangeExpression start stop step)).map .values

/-- The values that a case matches: itself, or those that the loop over a range visits. -/
def ConstantCase.Matches : ConstantCase → I64Value → Prop
  | .constant value, v => v = value
  | .values range, v => range.Visits v

/-- A range case of one value that the earlier range matches, whose step is no multiple of the
earlier step. -/
def ConstantCase.IsLoneOffStep (earlier : GrayRange .i64) : ConstantCase → Prop
  | .constant _ => False
  | .values range => range.count range.start = 1 ∧ earlier.Visits range.start ∧
      ¬ earlier.step.1 ∣ range.step.1

theorem whenConstantRange_step {checker : ConstantTables} {node : WhenCaseValue}
    {range : GrayRange .i64} (h : whenConstantRange checker node = some range) :
    range.step.1 ≠ 0 := by
  cases node with
  | expression e => cases h
  | rangeExpression start stop step =>
    simp only [whenConstantRange, Option.bind_eq_bind, Option.bind_eq_some_iff] at h
    obtain ⟨start', -, stop', -, step', -, h⟩ := h
    split_ifs at h with hstep
    cases h
    exact hstep

theorem whenRangeContains_iff {range : GrayRange .i64} (hstep : range.step.1 ≠ 0)
    (value : I64Value) : whenRangeContains range value = true ↔ range.Visits value := by
  rw [range.visits_iff hstep]
  exact range.containsI64_iff hstep value

theorem whenStride_eq (step : I64Value) : whenStride step = |step.1| := by
  have hmin : RangeElement.i64.format.min = -2 ^ 63 := rfl
  have hsize : RangeElement.i64.format.size = 2 ^ 64 := rfl
  obtain ⟨h₁, h₂⟩ := step.2
  rw [whenStride]
  split_ifs with hpos
  · rw [abs_of_pos hpos, Int.emod_eq_of_lt (by omega) (by omega)]
  · rw [abs_of_nonpos (by omega), Int.emod_eq_of_lt (by omega) (by omega)]

namespace GrayRange

variable {range : GrayRange .i64}

def stepsToLast (range : GrayRange .i64) : ℤ :=
  (|range.stop.1 - range.start.1| - 1) / |range.step.1|

theorem whenStepsToLast_eq (hgo : range.continues range.start = true)
    (hstep : range.step.1 ≠ 0) : whenStepsToLast range = range.stepsToLast := by
  have hmin : RangeElement.i64.format.min = -2 ^ 63 := rfl
  have hsize : RangeElement.i64.format.size = 2 ^ 64 := rfl
  obtain ⟨hst₁, hst₂⟩ := range.start.2
  obtain ⟨hstop₁, hstop₂⟩ := range.stop.2
  rw [whenStepsToLast, whenStride_eq, stepsToLast]
  congr 1
  rcases lt_or_gt_of_ne hstep with hneg | hpos
  · rw [continues_of_neg range hneg, decide_eq_true_eq] at hgo
    rw [if_neg (by omega), abs_of_neg (by omega),
      Int.emod_eq_of_lt (a := range.start.1 - range.stop.1) (by omega) (by omega),
      Int.emod_eq_of_lt (by omega) (by omega)]
    omega
  · rw [continues_of_pos range hpos, decide_eq_true_eq] at hgo
    rw [if_pos hpos, abs_of_pos (by omega),
      Int.emod_eq_of_lt (a := range.stop.1 - range.start.1) (by omega) (by omega),
      Int.emod_eq_of_lt (by omega) (by omega)]

theorem stepsToLast_nonneg (hgo : range.continues range.start = true)
    (hstep : range.step.1 ≠ 0) : 0 ≤ range.stepsToLast := by
  refine Int.ediv_nonneg ?_ (abs_nonneg _)
  have hne : range.stop.1 - range.start.1 ≠ 0 := by
    rcases lt_or_gt_of_ne hstep with hneg | hpos
    · rw [continues_of_neg range hneg, decide_eq_true_eq] at hgo
      omega
    · rw [continues_of_pos range hpos, decide_eq_true_eq] at hgo
      omega
  have := abs_pos.mpr hne
  omega

theorem continues_iff_le (hgo : range.continues range.start = true)
    (hstep : range.step.1 ≠ 0) {k : ℤ} {value : I64Value}
    (hval : value.1 = range.start.1 + k * range.step.1) :
    range.continues value = true ↔ k ≤ range.stepsToLast := by
  rw [stepsToLast, Int.le_ediv_iff_mul_le (abs_pos.mpr hstep)]
  rcases lt_or_gt_of_ne hstep with hneg | hpos
  · rw [continues_of_neg range hneg, decide_eq_true_eq] at hgo ⊢
    rw [abs_of_neg hneg, abs_of_neg (by omega), hval, mul_neg]
    omega
  · rw [continues_of_pos range hpos, decide_eq_true_eq] at hgo ⊢
    rw [abs_of_pos hpos, abs_of_pos (by omega), hval]
    omega

theorem visits_iff_le (hgo : range.continues range.start = true)
    (hstep : range.step.1 ≠ 0) (value : I64Value) : range.Visits value ↔
      ∃ k : ℕ, (k : ℤ) ≤ range.stepsToLast ∧ value.1 = range.start.1 + k * range.step.1 := by
  rw [range.visits_iff hstep]
  constructor
  · rintro ⟨⟨k, hk⟩, hval⟩
    exact ⟨k, (continues_iff_le hgo hstep hk).mp hval, hk⟩
  · rintro ⟨k, hle, hk⟩
    exact ⟨⟨k, hk⟩, (continues_iff_le hgo hstep hk).mpr hle⟩

theorem contains_position (hgo : range.continues range.start = true)
    (hstep : range.step.1 ≠ 0) {k : ℤ} (hnn : 0 ≤ k) (hle : k ≤ range.stepsToLast) :
    RangeElement.i64.format.Contains (range.start.1 + k * range.step.1) := by
  obtain ⟨hst₁, hst₂⟩ := range.start.2
  obtain ⟨hstop₁, hstop₂⟩ := range.stop.2
  rw [stepsToLast, Int.le_ediv_iff_mul_le (abs_pos.mpr hstep)] at hle
  rcases lt_or_gt_of_ne hstep with hneg | hpos
  · rw [continues_of_neg range hneg, decide_eq_true_eq] at hgo
    have hrun := mul_nonpos_of_nonneg_of_nonpos hnn hneg.le
    rw [abs_of_neg hneg, abs_of_neg (by omega), mul_neg] at hle
    exact ⟨by omega, by omega⟩
  · rw [continues_of_pos range hpos, decide_eq_true_eq] at hgo
    have hrun := mul_nonneg hnn hpos.le
    rw [abs_of_pos hpos, abs_of_pos (by omega)] at hle
    exact ⟨by omega, by omega⟩

theorem whenLast_eq (hgo : range.continues range.start = true)
    (hstep : range.step.1 ≠ 0) :
    (whenLast range).1 = range.start.1 + range.stepsToLast * range.step.1 := by
  have hin := contains_position hgo hstep (stepsToLast_nonneg hgo hstep) le_rfl
  have hrun : (if 0 < range.step.1 then whenStepsToLast range * whenStride range.step
      else 0 - whenStepsToLast range * whenStride range.step) =
      range.stepsToLast * range.step.1 := by
    rw [whenStepsToLast_eq hgo hstep, whenStride_eq]
    split_ifs with hpos
    · rw [abs_of_pos hpos]
    · rw [abs_of_nonpos (by omega), mul_neg, zero_sub, neg_neg]
  rw [whenLast, hrun, IntFormat.wrap_val_of_contains hin]

theorem visits_last (hgo : range.continues range.start = true)
    (hstep : range.step.1 ≠ 0) : range.Visits (whenLast range) := by
  have hnn := stepsToLast_nonneg hgo hstep
  refine (visits_iff_le hgo hstep _).mpr ⟨range.stepsToLast.toNat, ?_, ?_⟩
  · rw [Int.toNat_of_nonneg hnn]
  · rw [Int.toNat_of_nonneg hnn, whenLast_eq hgo hstep]

variable {earlier : GrayRange .i64}

theorem isInside_between {a b value : I64Value}
    (ha : earlier.IsInside a) (hb : earlier.IsInside b)
    (h : a.1 ≤ value.1 ∧ value.1 ≤ b.1 ∨ b.1 ≤ value.1 ∧ value.1 ≤ a.1) :
    earlier.IsInside value := by
  unfold IsInside at *
  split_ifs at * <;> omega

theorem position_between {k n : ℤ} (step : ℤ) (start : ℤ) (hnn : 0 ≤ k) (hle : k ≤ n) :
    start ≤ start + k * step ∧ start + k * step ≤ start + n * step ∨
      start + n * step ≤ start + k * step ∧ start + k * step ≤ start := by
  rcases le_total 0 step with hpos | hneg
  · have := mul_le_mul_of_nonneg_right hle hpos
    have := mul_nonneg hnn hpos
    exact .inl ⟨by omega, by omega⟩
  · have := mul_le_mul_of_nonpos_right hle hneg
    have := mul_nonpos_of_nonneg_of_nonpos hnn hneg
    exact .inr ⟨by omega, by omega⟩

theorem visits_of_ends (hearly : earlier.step.1 ≠ 0)
    (hstep : range.step.1 ≠ 0) (hdvd : earlier.step.1 ∣ range.step.1)
    (hfst : earlier.Visits range.start) (hlast : earlier.Visits (whenLast range))
    {value : I64Value} (hval : range.Visits value) : earlier.Visits value := by
  have hgo : range.continues range.start = true := by
    induction hval with
    | first h => exact h
    | next _ _ ih => exact ih
  obtain ⟨k, hle, hk⟩ := (visits_iff_le hgo hstep value).mp hval
  rw [visits_iff_isInside hearly] at hfst hlast ⊢
  refine ⟨isInside_between hfst.1 hlast.1 ?_, ?_⟩
  · rw [whenLast_eq hgo hstep, hk]
    exact position_between _ _ (Int.natCast_nonneg k) hle
  · have hspl : value.1 - earlier.start.1 = range.start.1 - earlier.start.1 + k * range.step.1 := by
      rw [hk]
      ring
    rw [hspl]
    exact dvd_add hfst.2 (Dvd.dvd.mul_left hdvd _)

theorem step_dvd_of_visits (hearly : earlier.step.1 ≠ 0)
    (hstep : range.step.1 ≠ 0) (hgo : range.continues range.start = true)
    (hsts : range.stepsToLast ≠ 0) (h : ∀ v, range.Visits v → earlier.Visits v) :
    earlier.step.1 ∣ range.step.1 := by
  have hnn := stepsToLast_nonneg hgo hstep
  have hin := contains_position hgo hstep (k := 1) (by decide) (by omega)
  have hsnd := h ⟨_, hin⟩ ((visits_iff_le hgo hstep _).mpr
    ⟨1, by rw [Nat.cast_one]; omega, by rw [Nat.cast_one]⟩)
  have hfst := h range.start (.first hgo)
  rw [visits_iff_isInside hearly] at hfst hsnd
  have hdifference := dvd_sub hsnd.2 hfst.2
  have hspl : range.start.1 + 1 * range.step.1 - earlier.start.1 -
      (range.start.1 - earlier.start.1) = range.step.1 := by ring
  rwa [hspl] at hdifference

theorem count_eq_one_iff (hgo : range.continues range.start = true)
    (hstep : range.step.1 ≠ 0) : range.count range.start = 1 ↔ range.stepsToLast = 0 := by
  have hcnt : (range.count range.start : ℤ) = range.stepsToLast + 1 := by
    rw [stepsToLast]
    rcases lt_or_gt_of_ne hstep with hneg | hpos
    · have hlt := hgo
      rw [continues_of_neg range hneg, decide_eq_true_eq] at hlt
      rw [count_of_neg hneg hlt, abs_of_neg hneg, abs_of_neg (by omega), neg_sub]
    · have hlt := hgo
      rw [continues_of_pos range hpos, decide_eq_true_eq] at hlt
      rw [count_of_pos hpos hlt, abs_of_pos hpos, abs_of_pos (by omega)]
  omega

theorem exists_visits_iff : (∃ v, range.Visits v) ↔ range.continues range.start = true := by
  constructor
  · rintro ⟨v, hv⟩
    induction hv with
    | first h => exact h
    | next _ _ ih => exact ih
  · exact fun h => ⟨range.start, .first h⟩

theorem whenRangeCovered_iff (hearly : earlier.step.1 ≠ 0) :
    whenRangeCovered range earlier = true ↔ range.continues range.start = true ∧
      earlier.step.1 ∣ range.step.1 ∧ earlier.Visits range.start ∧
      earlier.Visits (whenLast range) := by
  have hemp : (!(if 0 < range.step.1 then decide (range.stop.1 ≤ range.start.1)
      else decide (range.start.1 ≤ range.stop.1))) = range.continues range.start := by
    rw [continues]
    split_ifs <;> simp only [← decide_not, not_le]
  have hstride : (whenStride range.step % whenStride earlier.step == 0) = true ↔
      earlier.step.1 ∣ range.step.1 := by
    rw [beq_iff_eq, whenStride_eq, whenStride_eq, ← Int.dvd_iff_emod_eq_zero, abs_dvd_abs]
  rw [whenRangeCovered, hemp, Bool.and_eq_true, Bool.and_eq_true, Bool.and_eq_true, hstride,
    whenRangeContains_iff hearly, whenRangeContains_iff hearly, and_assoc]

/-- For two ranges the check finds exactly the ranges that are part of the earlier one, but for a
range of one value whose step is no multiple of the earlier step. -/
theorem whenRangeCovered_exact_iff (hearly : earlier.step.1 ≠ 0)
    (hstep : range.step.1 ≠ 0) : (whenRangeCovered range earlier = true ↔
      (∃ v, range.Visits v) ∧ ∀ v, range.Visits v → earlier.Visits v) ↔
    ¬ (range.count range.start = 1 ∧ earlier.Visits range.start ∧
      ¬ earlier.step.1 ∣ range.step.1) := by
  rw [whenRangeCovered_iff hearly, exists_visits_iff]
  by_cases hgo : range.continues range.start = true
  · have hfst : range.Visits range.start := .first hgo
    have hlast := visits_last hgo hstep
    rw [count_eq_one_iff hgo hstep]
    by_cases hdvd : earlier.step.1 ∣ range.step.1
    · refine iff_of_true ⟨?_, ?_⟩ fun h => h.2.2 hdvd
      · rintro ⟨-, -, hst, hend⟩
        exact ⟨hgo, fun v hv => visits_of_ends hearly hstep hdvd hst hend hv⟩
      · rintro ⟨-, hall⟩
        exact ⟨hgo, hdvd, hall _ hfst, hall _ hlast⟩
    · have hleft : ¬ (range.continues range.start = true ∧ earlier.step.1 ∣ range.step.1 ∧
          earlier.Visits range.start ∧ earlier.Visits (whenLast range)) := fun h => hdvd h.2.1
      rw [iff_false_left hleft]
      constructor
      · rintro hnot ⟨hsts, hst, -⟩
        refine hnot ⟨hgo, fun v hv => ?_⟩
        obtain ⟨k, hle, hk⟩ := (visits_iff_le hgo hstep v).mp hv
        have hzero : (k : ℤ) = 0 := by omega
        have hval : v = range.start := Subtype.ext (by rw [hk, hzero, zero_mul, add_zero])
        exact hval ▸ hst
      · rintro hnot ⟨-, hall⟩
        by_cases hsts : range.stepsToLast = 0
        · exact hnot ⟨hsts, hall _ hfst, hdvd⟩
        · exact hdvd (step_dvd_of_visits hearly hstep hgo hsts hall)
  · have hcnt : range.count range.start = 0 := count_of_not_continues (Bool.eq_false_iff.mpr hgo)
    refine iff_of_true ⟨fun h => absurd h.1 hgo, fun h => absurd h.1 hgo⟩ ?_
    rw [hcnt]
    rintro ⟨h, -⟩
    cases h

end GrayRange

/-! ### The cases -/

theorem whenCaseCoveredByRange_eq {checker : ConstantTables} (isStoredRange : Text → Bool)
    {value earlier : WhenCaseValue} {range : GrayRange .i64} {later : ConstantCase}
    (hearly : whenConstantRange checker earlier = some range)
    (hlater : constantCase checker value = some later) :
    whenCaseCoveredByRange checker isStoredRange value earlier =
      match later with
      | .constant v => whenRangeContains range v
      | .values r => whenRangeCovered r range := by
  cases earlier with
  | expression e => cases hearly
  | rangeExpression start stop step =>
    cases value with
    | expression e =>
      obtain ⟨v, hv, rfl⟩ := Option.map_eq_some_iff.mp hlater
      simp only [whenCaseCoveredByRange, hearly, hv]
    | rangeExpression start' stop' step' =>
      obtain ⟨r, hr, rfl⟩ := Option.map_eq_some_iff.mp hlater
      simp only [whenCaseCoveredByRange, hearly, hr]

/-- A later case with constants is reported exactly if it matches a value and the earlier range
matches all its values, but for a range of one value whose step is no multiple of the earlier
step. -/
theorem whenCaseCoveredByRange_exact_iff {checker : ConstantTables} (isStoredRange : Text → Bool)
    {value earlier : WhenCaseValue} {range : GrayRange .i64} {later : ConstantCase}
    (hearlier : whenConstantRange checker earlier = some range)
    (hlater : constantCase checker value = some later) :
    (whenCaseCoveredByRange checker isStoredRange value earlier = true ↔
      (∃ v, later.Matches v) ∧ ∀ v, later.Matches v → range.Visits v) ↔
    ¬ later.IsLoneOffStep range := by
  have hstep := whenConstantRange_step hearlier
  rw [whenCaseCoveredByRange_eq isStoredRange hearlier hlater]
  cases later with
  | constant v =>
    refine iff_of_true ?_ (fun h => h)
    change whenRangeContains range v = true ↔ (∃ w, w = v) ∧ ∀ w, w = v → range.Visits w
    rw [whenRangeContains_iff hstep, forall_eq]
    exact ⟨fun h => ⟨⟨v, rfl⟩, h⟩, fun h => h.2⟩
  | values r =>
    have hr : r.step.1 ≠ 0 := by
      cases value with
      | expression e =>
        obtain ⟨v, -, hcase⟩ := Option.map_eq_some_iff.mp hlater
        cases hcase
      | rangeExpression start' stop' step' =>
        obtain ⟨r', hr', hcase⟩ := Option.map_eq_some_iff.mp hlater
        cases hcase
        exact whenConstantRange_step hr'
    exact GrayRange.whenRangeCovered_exact_iff hstep hr

def caseLiteral (text : String) : ConstantExpression :=
  .integerLiteral (integerLiteralOf (bytes text))

/-- `range(0, 10, 2)`. -/
def evenCase : WhenCaseValue := .rangeExpression (some (caseLiteral "0")) (caseLiteral "10")
  (some (caseLiteral "2"))

/-- `range(4, 5)`. -/
def loneCase : WhenCaseValue := .rangeExpression (some (caseLiteral "4")) (caseLiteral "5") none

/-- A checker without constants. -/
def noConstants : ConstantTables := ⟨fun _ => none, fun _ => none⟩

theorem whenConstantRange_evenCase : whenConstantRange noConstants evenCase =
    some ⟨RangeElement.i64.format.wrap 0, RangeElement.i64.format.wrap 10,
      RangeElement.i64.format.wrap 2⟩ := by
  rfl

theorem constantCase_loneCase : constantCase noConstants loneCase =
    some (.values ⟨RangeElement.i64.format.wrap 4, RangeElement.i64.format.wrap 5,
      RangeElement.i64.one⟩) := by
  rfl

/-- `is 6` after `is range(0, 10, 2)` is reported. -/
theorem whenCaseCoveredByRange_exact_six :
    (whenCaseCoveredByRange noConstants (fun _ => false) (.expression (caseLiteral "6")) evenCase =
        true ↔ (∃ v, (ConstantCase.constant (RangeElement.i64.format.wrap 6)).Matches v) ∧
          ∀ v, (ConstantCase.constant (RangeElement.i64.format.wrap 6)).Matches v →
            GrayRange.Visits ⟨RangeElement.i64.format.wrap 0, RangeElement.i64.format.wrap 10,
              RangeElement.i64.format.wrap 2⟩ v) ↔
      ¬ (ConstantCase.constant (RangeElement.i64.format.wrap 6)).IsLoneOffStep
        ⟨RangeElement.i64.format.wrap 0, RangeElement.i64.format.wrap 10,
          RangeElement.i64.format.wrap 2⟩ :=
  whenCaseCoveredByRange_exact_iff _ whenConstantRange_evenCase rfl

/-- `is range(4, 5)` after `is range(0, 10, 2)` matches nothing new, and is not reported. -/
theorem whenCaseCoveredByRange_loneCase :
    whenCaseCoveredByRange noConstants (fun _ => false) loneCase evenCase = false ∧
      ¬ ∀ (checker : ConstantTables) (isStoredRange : Text → Bool) (value earlier : WhenCaseValue)
        (range : GrayRange .i64) (later : ConstantCase),
        whenConstantRange checker earlier = some range → constantCase checker value = some later →
        (whenCaseCoveredByRange checker isStoredRange value earlier = true ↔
          (∃ v, later.Matches v) ∧ ∀ v, later.Matches v → range.Visits v) := by
  have hfalse : whenCaseCoveredByRange noConstants (fun _ => false) loneCase evenCase = false := by
    rfl
  refine ⟨hfalse, fun h => ?_⟩
  have hiff := h noConstants (fun _ => false) loneCase evenCase _ _ whenConstantRange_evenCase
    constantCase_loneCase
  rw [hfalse] at hiff
  refine Bool.false_ne_true (hiff.mpr ⟨⟨RangeElement.i64.format.wrap 4, .first (by decide)⟩, ?_⟩)
  intro v hv
  obtain ⟨hin, -⟩ := (GrayRange.visits_iff_isInside (by decide) v).mp hv
  have hfour : v = RangeElement.i64.format.wrap 4 := by
    have h₁ : (4 : ℤ) ≤ v.1 := hin.1
    have h₂ : v.1 < 5 := hin.2
    exact Subtype.ext (show v.1 = 4 by omega)
  rw [hfour]
  exact (GrayRange.visits_iff_isInside (by decide) _).mpr (by decide)

end Grayscale
