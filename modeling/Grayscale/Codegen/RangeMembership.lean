import Grayscale.Codegen.Ranges
import Mathlib.Data.List.Perm.Basic

/-!
# Membership in a range

`in` and `not_in` over a range expression, over a variable that holds the range, and the two kinds
of range cases of a `when` statement each have an emission of their own.
-/

namespace Grayscale

open Option (any_none map_none map_some)

variable {T : RangeElement} {σ : Type*}

/-! ### Membership at run time -/

/-- The panic of `gray_<T>_mod` for a divisor of zero. -/
def moduloByZero : RangeElement → Exit
  | .i64 | .u64 => .panic "P0090"
  | .i128 | .u128 | .i256 | .u256 => .panic "P0078"

/-- `gray_<T>_mod`: the remainder has the sign of the dividend. -/
def rangeModulo (left right : T.Value) : Except Exit T.Value :=
  if right.1 = 0 then .error (moduloByZero T) else .ok (T.format.wrap (left.1.tmod right.1))

/-- `gray_<T>_eq(gray_<T>_mod(gray_<T>_sub(value, start), step), 0)`. -/
def isOnStep (value start step : T.Value) : Except Exit Bool := do
  let remainder ← rangeModulo (T.format.wrap (value.1 - start.1)) step
  return remainder.1 = 0

namespace GrayRange

/-- `GrayRange_i64_contains`. The distance is a `uint64_t`. -/
def containsI64 (range : GrayRange .i64) (value : RangeElement.i64.Value) : Bool :=
  if 0 < range.step.1 then
    range.start.1 ≤ value.1 && value.1 < range.stop.1 &&
      (value.1 - range.start.1) % 2 ^ 64 % (range.step.1 % 2 ^ 64) = 0
  else
    value.1 ≤ range.start.1 && range.stop.1 < value.1 &&
      (range.start.1 - value.1) % 2 ^ 64 % (-range.step.1 % 2 ^ 64) = 0

/-- `GrayRange_<T>_contains` for u64 and the wide types. -/
def containsWide (range : GrayRange T) (value : T.Value) : Except Exit Bool :=
  let isInside : Bool :=
    if 0 < range.step.1 then range.start.1 ≤ value.1 && value.1 < range.stop.1
    else value.1 ≤ range.start.1 && range.stop.1 < value.1
  if isInside then isOnStep value range.start range.step else .ok false

/-- `GrayRange_<T>_contains`. -/
def contains : {T : RangeElement} → GrayRange T → T.Value → Except Exit Bool
  | .i64, range, value => .ok (range.containsI64 value)
  | .u64, range, value | .i128, range, value | .u128, range, value | .i256, range, value
  | .u256, range, value => range.containsWide value

end GrayRange

namespace GrayRange

theorem distance_emod {a b : RangeElement.i64.Value} (h : b.1 ≤ a.1) :
    (a.1 - b.1) % 2 ^ 64 = a.1 - b.1 := by
  have ha := a.2
  have hb := b.2
  have hmin : RangeElement.i64.format.min = -2 ^ 63 := rfl
  have hsize : RangeElement.i64.format.size = 2 ^ 64 := rfl
  rw [IntFormat.Contains, hmin, hsize] at ha hb
  exact Int.emod_eq_of_lt (by omega) (by omega)

theorem steps_succ (start step : ℤ) (k : ℕ) :
    start + (k + 1 : ℕ) * step = start + k * step + step := by
  rw [Nat.cast_add, Nat.cast_one, add_mul, one_mul, add_assoc]

variable {start step value : ℤ}

theorem exists_steps_iff (hpos : 0 < step) (h : start ≤ value) :
    (value - start) % step = 0 ↔ ∃ k : ℕ, value = start + k * step := by
  constructor
  · intro hmod
    obtain ⟨k, hk⟩ := Int.dvd_of_emod_eq_zero hmod
    have hnn : 0 ≤ k := nonneg_of_mul_nonneg_right (by omega) hpos
    refine ⟨k.toNat, ?_⟩
    rw [Int.toNat_of_nonneg hnn, mul_comm]
    omega
  · rintro ⟨k, rfl⟩
    rw [add_sub_cancel_left]
    exact Int.mul_emod_left _ _

theorem exists_steps_down_iff (hneg : step < 0) (h : value ≤ start) :
    (start - value) % -step = 0 ↔ ∃ k : ℕ, value = start + k * step := by
  rw [exists_steps_iff (neg_pos.mpr hneg) h]
  refine exists_congr fun k => ?_
  rw [mul_neg]
  omega

theorem le_of_steps (hpos : 0 < step)
    (h : ∃ k : ℕ, value = start + k * step) : start ≤ value := by
  obtain ⟨k, rfl⟩ := h
  exact le_add_of_nonneg_right (mul_nonneg (Int.natCast_nonneg k) hpos.le)

theorem ge_of_steps (hneg : step < 0)
    (h : ∃ k : ℕ, value = start + k * step) : value ≤ start := by
  obtain ⟨k, rfl⟩ := h
  exact add_le_of_nonpos_right
    (mul_nonpos_of_nonneg_of_nonpos (Int.natCast_nonneg k) hneg.le)

/-- `GrayRange_i64_contains` finds the values that the loop over the range reaches before it
stops. -/
theorem containsI64_iff (range : GrayRange .i64) (hstep : range.step.1 ≠ 0)
    (value : RangeElement.i64.Value) : range.containsI64 value = true ↔
      (∃ k : ℕ, value.1 = range.start.1 + k * range.step.1) ∧ range.continues value = true := by
  have hrng := range.step.2
  have hmin : RangeElement.i64.format.min = -2 ^ 63 := rfl
  have hsize : RangeElement.i64.format.size = 2 ^ 64 := rfl
  rw [IntFormat.Contains, hmin, hsize] at hrng
  rcases lt_or_gt_of_ne hstep with hneg | hpos
  · rw [containsI64, if_neg (by omega), range.continues_of_neg hneg,
      Int.emod_eq_of_lt (show 0 ≤ -range.step.1 by omega) (by omega)]
    simp only [Bool.and_eq_true, decide_eq_true_eq]
    constructor
    · rintro ⟨⟨hle, hlt⟩, hmod⟩
      rw [distance_emod hle] at hmod
      exact ⟨(exists_steps_down_iff hneg hle).mp hmod, hlt⟩
    · rintro ⟨hsts, hlt⟩
      have hle := ge_of_steps hneg hsts
      refine ⟨⟨hle, hlt⟩, ?_⟩
      rw [distance_emod hle]
      exact (exists_steps_down_iff hneg hle).mpr hsts
  · rw [containsI64, if_pos hpos, range.continues_of_pos hpos, Int.emod_eq_of_lt hpos.le (by omega)]
    simp only [Bool.and_eq_true, decide_eq_true_eq]
    constructor
    · rintro ⟨⟨hle, hlt⟩, hmod⟩
      rw [distance_emod hle] at hmod
      exact ⟨(exists_steps_iff hpos hle).mp hmod, hlt⟩
    · rintro ⟨hsts, hlt⟩
      have hle := le_of_steps hpos hsts
      refine ⟨⟨hle, hlt⟩, ?_⟩
      rw [distance_emod hle]
      exact (exists_steps_iff hpos hle).mpr hsts

end GrayRange

/-! ### The emissions -/

/-- The result of an operation of the runtime, in the state `s`. -/
def finishWith (result : Except Exit Bool) : Evaluation σ Bool := fun s =>
  match result with
  | .ok answer => .ok (answer, s)
  | .error exit => .error (exit, s)

def emitStoredRangeMembership (range : Evaluation σ (GrayRange T))
    (subject : Evaluation σ T.Value) : Evaluation σ Bool := fun s => do
  let (value, s) ← subject s
  let (stored, s) ← range s
  if stored.hasZeroStep then throw (.panic "P0090", s)
  finishWith (stored.contains value) s

/-- The emission of `in` for a u64 or wide range expression. -/
def emitInWideRange (range : RangeExpression T σ) (subject : Evaluation σ T.Value) :
    Evaluation σ Bool := fun s => do
  let (value, s) ← subject s
  let (start, s) ← emitRangePart range.start T.zero s
  let (stop, s) ← range.stop.evaluate s
  match range.step with
  | none => return (start.1 ≤ value.1 && value.1 < stop.1, s)
  | some operand =>
    let (step, s) ← operand.evaluate s
    let isInside : Bool :=
      if step.1 < 0 then value.1 ≤ start.1 && stop.1 < value.1
      else start.1 ≤ value.1 && value.1 < stop.1
    finishWith (if isInside then isOnStep value start step else .ok false) s

/-- The emission of `in` for an i64 range expression without a step: two comparisons of C. -/
def emitInComparisons (range : RangeExpression T σ) (subject : Evaluation σ T.Value) :
    Evaluation σ Bool := fun s => do
  let (value, s) ← subject s
  let (start, s) ← emitRangePart range.start T.zero s
  if start.1 ≤ value.1 then
    let (value, s) ← subject s
    let (stop, s) ← range.stop.evaluate s
    return (value.1 < stop.1, s)
  else return (false, s)

/-- `x in range(..)`. -/
def emitInRange : {T : RangeElement} → RangeExpression T σ → Evaluation σ T.Value → Evaluation σ Bool
  | .i64, range, subject =>
    match range.step with
    | some _ => emitStoredRangeMembership (emitRangeValue range) subject
    | none => emitInComparisons range subject
  | .u64, range, subject | .i128, range, subject | .u128, range, subject | .i256, range, subject
  | .u256, range, subject => emitInWideRange range subject

/-- `not_in`: the negation of the emission of `in`. -/
def emitNot (membership : Evaluation σ Bool) : Evaluation σ Bool := fun s => do
  let (answer, s) ← membership s
  return (!answer, s)

/-- The step test of a `when` case: C's `(x - start) % step == 0` for i64 and u64, the helpers for a
wide type. -/
def whenStepTest : {T : RangeElement} → (value start step : T.Value) → Except Exit Bool
  | .i64, value, start, step =>
    if step.1 = 0 ∨ ¬ RangeElement.i64.format.Contains (value.1 - start.1) ∨
        ¬ RangeElement.i64.format.Contains ((value.1 - start.1).tdiv step.1) then .error .undefined
    else .ok ((value.1 - start.1).tmod step.1 = 0)
  | .u64, value, start, step =>
    if step.1 = 0 then .error .undefined
    else .ok ((RangeElement.u64.format.wrap (value.1 - start.1)).1.tmod step.1 = 0)
  | .i128, value, start, step | .u128, value, start, step | .i256, value, start, step
  | .u256, value, start, step => isOnStep value start step

/-- Whether an operand has a minus in front. -/
def RangeOperand.isNegated : RangeOperand T σ → Bool
  | .negated _ => true
  | .literal _ | .other _ => false

/-- `is range(..)` in a `when` over the value of the subject. Without a start the text that is
emitted is not C. -/
def emitWhenRange (range : RangeExpression T σ) (subject : Evaluation σ T.Value) :
    Option (Evaluation σ Bool) :=
  match range.start with
  | none => none
  | some startOperand => some fun s => do
    let (value, s) ← subject s
    let isNegativeStep := range.step.any RangeOperand.isNegated
    let (start, s) ← startOperand.evaluate s
    if (if isNegativeStep then value.1 ≤ start.1 else start.1 ≤ value.1) then
      let (stop, s) ← range.stop.evaluate s
      if (if isNegativeStep then stop.1 < value.1 else value.1 < stop.1) then
        match range.step with
        | none => return (true, s)
        | some stepOperand =>
          let (start, s) ← startOperand.evaluate s
          let (step, s) ← stepOperand.evaluate s
          finishWith (whenStepTest value start step) s
      else return (false, s)
    else return (false, s)

/-- `x in r` after `r = range(..)`. -/
def emitInStored (range : RangeExpression T σ) (subject : Evaluation σ T.Value) :
    Evaluation σ Bool := fun s => do
  let (stored, s) ← emitRangeValue range s
  emitStoredRangeMembership (fun s => .ok (stored, s)) subject s

/-- `is r` after `r = range(..)`, in a `when` over the value of the subject. -/
def emitWhenStored (range : RangeExpression T σ) (subject : Evaluation σ T.Value) :
    Evaluation σ Bool := fun s => do
  let (stored, s) ← emitRangeValue range s
  let (value, s) ← subject s
  emitStoredRangeMembership (fun s => .ok (stored, s)) (fun s => .ok (value, s)) s

/-! ### Counting evaluations -/

/-- What a membership expression evaluates. -/
inductive RangePart
  | subject | start | stop | step
  deriving DecidableEq

/-- The evaluation of an operand with a value, recorded in the trace. -/
def evaluatePart (part : RangePart) (value : T.Value) : Evaluation (List RangePart) T.Value :=
  fun trace => .ok (value, trace ++ [part])

/-- An operand as written: its value, and whether it has a minus in front. -/
structure WrittenOperand (T : RangeElement) where
  value : T.Value
  isNegated : Bool

def WrittenOperand.toOperand (operand : WrittenOperand T) (part : RangePart) :
    RangeOperand T (List RangePart) :=
  if operand.isNegated then .negated (evaluatePart part operand.value)
  else .other (evaluatePart part operand.value)

/-- A range as written: one to three operands of any shape. -/
structure WrittenRange (T : RangeElement) where
  start : Option (WrittenOperand T)
  stop : WrittenOperand T
  step : Option (WrittenOperand T)
  start_of_step : step.isSome = true → start.isSome = true

namespace WrittenRange

/-- The expression whose operands record their evaluation. -/
def toExpression (range : WrittenRange T) : RangeExpression T (List RangePart) where
  start := range.start.map (·.toOperand .start)
  stop := range.stop.toOperand .stop
  step := range.step.map (·.toOperand .step)
  start_of_step := by
    intro h
    rw [Option.isSome_map] at h ⊢
    exact range.start_of_step h
  step_ne_zero := by
    intro value h
    obtain ⟨operand, -, hoperand⟩ := Option.map_eq_some_iff.mp h
    rw [WrittenOperand.toOperand] at hoperand
    split at hoperand <;> cases hoperand

def parts (range : WrittenRange T) : List RangePart :=
  .subject :: (range.start.map fun _ => .start).toList ++ .stop ::
    (range.step.map fun _ => .step).toList

end WrittenRange

/-- A position gives the answer, or the panic, and evaluates every part once. -/
def Answers (position : Option (Evaluation (List RangePart) Bool)) (parts : List RangePart)
    (answer : Except Exit Bool) : Prop :=
  ∃ evaluation trace, position = some evaluation ∧ evaluation [] = finishWith answer trace ∧
    trace.Perm parts

/-- The six positions give the answer. -/
structure PositionsAnswer (range : WrittenRange T) (subject : T.Value)
    (answer : Except Exit Bool) : Prop where
  inRange : Answers (some (emitInRange range.toExpression (evaluatePart .subject subject)))
    range.parts answer
  inStored : Answers (some (emitInStored range.toExpression (evaluatePart .subject subject)))
    range.parts answer
  whenRange : Answers (emitWhenRange range.toExpression (evaluatePart .subject subject))
    range.parts answer
  whenStored : Answers (some (emitWhenStored range.toExpression (evaluatePart .subject subject)))
    range.parts answer
  notInRange :
    Answers (some (emitNot (emitInRange range.toExpression (evaluatePart .subject subject))))
      range.parts (answer.map not)
  notInStored :
    Answers (some (emitNot (emitInStored range.toExpression (evaluatePart .subject subject))))
      range.parts (answer.map not)

/-- `in`, `not_in` and `is` give one answer over the range expression and over a variable that holds
the range, and evaluate the subject and the operands once each. -/
def MembershipAgrees (range : WrittenRange T) (subject : T.Value) : Prop :=
  ∃ answer, PositionsAnswer range subject answer

theorem evaluate_toOperand (operand : WrittenOperand T) (part : RangePart) :
    (operand.toOperand part).evaluate = evaluatePart part operand.value := by
  rw [WrittenOperand.toOperand]
  split <;> rfl

theorem isNegated_toOperand (operand : WrittenOperand T) (part : RangePart) :
    (operand.toOperand part).isNegated = operand.isNegated := by
  rw [WrittenOperand.toOperand]
  cases operand.isNegated <;> rfl

theorem Answers.perm {evaluation : Evaluation (List RangePart) Bool} {parts : List RangePart}
    {answer : Except Exit Bool} (result : Except Exit Bool) (trace : List RangePart) (h : Answers (some evaluation) parts answer)
    (hres : evaluation [] = finishWith result trace) : trace.Perm parts := by
  obtain ⟨evaluation', trace', heq, hans, hperm⟩ := h
  cases heq
  rw [hres] at hans
  have htrace : trace = trace' := by
    cases result with
    | ok a => cases answer with
      | ok b => simp [finishWith] at hans; exact hans.2
      | error e => simp [finishWith] at hans
    | error e => cases answer with
      | ok b => simp [finishWith] at hans
      | error e' => simp [finishWith] at hans; exact hans.2
  exact htrace ▸ hperm

/-! ### The ranges on which the positions do not agree -/

variable {range : WrittenRange T}

theorem not_agrees_of_no_start (h : range.start = none)
    (subject : T.Value) : ¬ MembershipAgrees range subject := by
  rintro ⟨answer, hans⟩
  obtain ⟨evaluation, trace, hemit, -⟩ := hans.whenRange
  simp [emitWhenRange, WrittenRange.toExpression, h] at hemit

theorem not_agrees_of_lt {start : WrittenOperand T}
    {subject : T.Value} (hst : range.start = some start) (hstep : range.step = none)
    (h : subject.1 < start.value.1) : ¬ MembershipAgrees range subject := by
  rintro ⟨answer, hans⟩
  have hwhen := hans.whenRange
  simp only [emitWhenRange, WrittenRange.toExpression, hst, hstep, map_some,
    map_none, evaluate_toOperand] at hwhen
  have hpts : range.parts = [.subject, .start, .stop] := by
    rw [WrittenRange.parts, hst, hstep]
    rfl
  rw [hpts] at hwhen
  have hperm := hwhen.perm (.ok false) [.subject, .start] (by
    simp only [evaluatePart, bind, Except.bind, any_none, Bool.false_eq_true, if_false,
      if_neg h.not_ge]
    rfl)
  exact absurd hperm (by decide)

theorem not_agrees_of_step {start step : WrittenOperand T}
    (hst : range.start = some start) (hstep : range.step = some step) (subject : T.Value) :
    ¬ MembershipAgrees range subject := by
  rintro ⟨answer, hans⟩
  have hwhen := hans.whenRange
  simp only [emitWhenRange, WrittenRange.toExpression, hst, hstep, map_some,
    Option.any_some, evaluate_toOperand, isNegated_toOperand] at hwhen
  have hpts : range.parts = [.subject, .start, .stop, .step] := by
    rw [WrittenRange.parts, hst, hstep]
    rfl
  rw [hpts] at hwhen
  by_cases hfst : if step.isNegated then subject.1 ≤ start.value.1 else start.value.1 ≤ subject.1
  · by_cases hsnd : if step.isNegated then range.stop.value.1 < subject.1
      else subject.1 < range.stop.value.1
    · have hperm := hwhen.perm (whenStepTest subject start.value step.value)
        [.subject, .start, .stop, .start, .step] (by
          simp only [evaluatePart, bind, Except.bind, if_pos hfst, if_pos hsnd]
          rfl)
      exact absurd hperm (by decide)
    · have hperm := hwhen.perm (.ok false) [.subject, .start, .stop] (by
        simp only [evaluatePart, bind, Except.bind, if_pos hfst, if_neg hsnd]
        rfl)
      exact absurd hperm (by decide)
  · have hperm := hwhen.perm (.ok false) [.subject, .start] (by
      simp only [evaluatePart, bind, Except.bind, if_neg hfst]
      rfl)
    exact absurd hperm (by decide)

theorem emitInRange_of_no_step {range : RangeExpression .i64 σ} (h : range.step = none)
    (subject : Evaluation σ RangeElement.i64.Value) :
    emitInRange range subject = emitInComparisons range subject := by
  simp only [emitInRange, h]

theorem not_agrees_of_i64 {range : WrittenRange .i64} {start : WrittenOperand .i64}
    {subject : RangeElement.i64.Value} (hst : range.start = some start)
    (hstep : range.step = none) (h : start.value.1 ≤ subject.1) :
    ¬ MembershipAgrees range subject := by
  rintro ⟨answer, hans⟩
  have hin := hans.inRange
  rw [emitInRange_of_no_step (by simp [WrittenRange.toExpression, hstep])] at hin
  have hpts : range.parts = [.subject, .start, .stop] := by
    rw [WrittenRange.parts, hst, hstep]
    rfl
  rw [hpts] at hin
  have hperm := hin.perm (.ok (decide (subject.1 < range.stop.value.1)))
    [.subject, .start, .subject, .stop] (by
      simp only [emitInComparisons, WrittenRange.toExpression, hst, map_some,
        emitRangePart, evaluate_toOperand, evaluatePart, bind, Except.bind, if_pos h]
      rfl)
  exact absurd hperm (by decide)

/-! ### The ranges on which the positions agree -/

theorem emitInRange_of_ne_i64 (h : T ≠ .i64) (range : RangeExpression T σ)
    (subject : Evaluation σ T.Value) : emitInRange range subject = emitInWideRange range subject := by
  cases T with
  | i64 => exact absurd rfl h
  | u64 | i128 | u128 | i256 | u256 => rfl

theorem contains_of_ne_i64 (h : T ≠ .i64) (range : GrayRange T) (value : T.Value) :
    range.contains value = range.containsWide value := by
  cases T with
  | i64 => exact absurd rfl h
  | u64 | i128 | u128 | i256 | u256 => rfl

theorem isOnStep_one (value start : T.Value) : isOnStep value start T.one = .ok true := by
  have hone : T.one.1 ≠ 0 := one_ne_zero
  have hmod : (T.format.wrap (value.1 - start.1)).1.tmod T.one.1 = 0 := Int.tmod_one _
  rw [isOnStep, rangeModulo, if_neg hone, hmod, IntFormat.wrap_of_contains _ T.format.contains_zero]
  rfl

theorem contains_one (h : T ≠ .i64) {start value : T.Value} (stop : T.Value)
    (hle : start.1 ≤ value.1) :
    (GrayRange.mk start stop T.one).contains value = .ok (decide (value.1 < stop.1)) := by
  have hpos : (0 : ℤ) < T.one.1 := one_pos
  rw [contains_of_ne_i64 h, GrayRange.containsWide]
  simp only [if_pos hpos, isOnStep_one, decide_eq_true hle, Bool.true_and]
  cases decide (value.1 < stop.1) <;> rfl

theorem agrees_of_le (hT : T ≠ .i64) {range : WrittenRange T} {start : WrittenOperand T}
    {subject : T.Value} (hst : range.start = some start) (hstep : range.step = none)
    (h : start.value.1 ≤ subject.1) : MembershipAgrees range subject := by
  have hpts : range.parts = [.subject, .start, .stop] := by
    rw [WrittenRange.parts, hst, hstep]
    rfl
  have hstore : emitRangeValue range.toExpression [] =
      .ok (⟨start.value, range.stop.value, T.one⟩, [.start, .stop]) := by
    simp only [emitRangeValue, WrittenRange.toExpression, hst, hstep, map_some,
      map_none, emitRangePart, evaluate_toOperand, evaluatePart, bind, Except.bind]
    rfl
  have hzero : (GrayRange.mk start.value range.stop.value T.one).hasZeroStep = false :=
    decide_eq_false one_ne_zero
  have hcontains := contains_one hT range.stop.value h
  have hin : emitInRange range.toExpression (evaluatePart .subject subject) [] =
      .ok (decide (subject.1 < range.stop.value.1), [.subject, .start, .stop]) := by
    rw [emitInRange_of_ne_i64 hT]
    simp only [emitInWideRange, WrittenRange.toExpression, hst, hstep, map_some,
      map_none, emitRangePart, evaluate_toOperand, evaluatePart, bind, Except.bind,
      decide_eq_true h, Bool.true_and]
    rfl
  have hinStored : emitInStored range.toExpression (evaluatePart .subject subject) [] =
      .ok (decide (subject.1 < range.stop.value.1), [.start, .stop, .subject]) := by
    simp only [emitInStored, hstore, emitStoredRangeMembership, evaluatePart, bind, Except.bind,
      hzero, hcontains, finishWith]
    rfl
  refine ⟨.ok (decide (subject.1 < range.stop.value.1)), ?_, ?_, ?_, ?_, ?_, ?_⟩
  · exact ⟨_, [.subject, .start, .stop], rfl, hin, hpts ▸ List.Perm.refl _⟩
  · exact ⟨_, [.start, .stop, .subject], rfl, hinStored, hpts ▸ by decide⟩
  · simp only [emitWhenRange, WrittenRange.toExpression, hst, hstep, map_some,
      map_none, evaluate_toOperand]
    refine ⟨_, [.subject, .start, .stop], rfl, ?_, hpts ▸ List.Perm.refl _⟩
    simp only [evaluatePart, bind, Except.bind, any_none, Bool.false_eq_true, if_false,
      if_pos h, finishWith]
    by_cases hlt : subject.1 < range.stop.value.1
    · rw [if_pos hlt, decide_eq_true hlt]
      rfl
    · rw [if_neg hlt, decide_eq_false hlt]
      rfl
  · refine ⟨_, [.start, .stop, .subject], rfl, ?_, hpts ▸ by decide⟩
    simp only [emitWhenStored, hstore, emitStoredRangeMembership, evaluatePart, bind, Except.bind,
      hzero, hcontains]
    rfl
  · refine ⟨_, [.subject, .start, .stop], rfl, ?_, hpts ▸ List.Perm.refl _⟩
    simp only [emitNot, hin, bind, Except.bind]
    rfl
  · refine ⟨_, [.start, .stop, .subject], rfl, ?_, hpts ▸ by decide⟩
    simp only [emitNot, hinStored, bind, Except.bind]
    rfl

/-- The positions agree on the u64 and wide ranges that have a start and no step, for the subjects
from the start on. -/
theorem membershipAgrees_iff (range : WrittenRange T) (subject : T.Value) :
    MembershipAgrees range subject ↔
      T ≠ .i64 ∧ range.step = none ∧ ∃ start, range.start = some start ∧
        start.value.1 ≤ subject.1 := by
  constructor
  · intro h
    cases hst : range.start with
    | none => exact absurd h (not_agrees_of_no_start hst subject)
    | some start =>
      cases hstep : range.step with
      | some step => exact absurd h (not_agrees_of_step hst hstep subject)
      | none =>
        by_cases hle : start.value.1 ≤ subject.1
        · refine ⟨?_, rfl, start, rfl, hle⟩
          rintro rfl
          exact not_agrees_of_i64 hst hstep hle h
        · exact absurd h (not_agrees_of_lt hst hstep (not_le.mp hle))
  · rintro ⟨hT, hstep, start, hst, hle⟩
    exact agrees_of_le hT hst hstep hle

/-- `next() in range(0, 10)` evaluates `next()` twice. -/
theorem not_membershipAgrees_zero_ten : ¬ MembershipAgrees
    (⟨some ⟨RangeElement.i64.zero, false⟩, ⟨RangeElement.i64.format.wrap 10, false⟩, none, by simp⟩ :
      WrittenRange .i64) (RangeElement.i64.format.wrap 5) := not_agrees_of_i64 rfl rfl (by decide)

end Grayscale
