import Grayscale.Library.CountedLoop
import Grayscale.Library.FixedWidth

/-!
# Ranges at run time

A range is three integers of one type, kept in a `GrayRange_<T>`. This file has the integer types,
the helpers of the runtime on stored ranges, and the value of a `range(start, end, step)`
expression.
-/

namespace Grayscale

/-- The integer types a range runs in. -/
inductive RangeElement
  | i64 | u64 | i128 | u128 | i256 | u256
  deriving DecidableEq

namespace RangeElement

def bits : RangeElement → ℕ
  | i64 | u64 => 64
  | i128 | u128 => 128
  | i256 | u256 => 256

def isSigned : RangeElement → Bool
  | i64 | i128 | i256 => true
  | u64 | u128 | u256 => false

def format (T : RangeElement) : IntFormat where
  bits := T.bits
  signed := T.isSigned
  bits_pos := by cases T <;> decide

abbrev Value (T : RangeElement) : Type := T.format.Value

/-- `gray_<T>_from_u64(0)`. -/
def zero (T : RangeElement) : T.Value := ⟨0, T.format.contains_zero⟩

/-- `gray_<T>_from_u64(1)`. -/
def one (T : RangeElement) : T.Value := ⟨1, by cases T <;> decide⟩

end RangeElement

/-! ### The helpers of the runtime -/

section Advance

variable {T : RangeElement}

/-- `gray_range_advance`: the addition that reports an overflow. -/
@[grind =] def grayRangeAdvance (value step stop : T.Value) : T.Value :=
  if h : T.format.Contains (value.1 + step.1) then ⟨value.1 + step.1, h⟩ else stop

/-- `gray_u64_range_advance`, `gray_u128_range_advance` and `gray_u256_range_advance`: a sum that
wraps around is below the value. -/
def unsignedRangeAdvance (value step stop : T.Value) : T.Value :=
  let result := T.format.wrap (value.1 + step.1)
  if result.1 < value.1 then stop else result

/-- `gray_i128_range_advance` and `gray_i256_range_advance`: the signs tell an overflow. -/
def signedRangeAdvance (value step stop : T.Value) : T.Value :=
  let result := T.format.wrap (value.1 + step.1)
  if (0 ≤ value.1 ∧ 0 ≤ step.1 ∧ result.1 < 0) ∨ (value.1 < 0 ∧ step.1 < 0 ∧ 0 ≤ result.1) then stop
  else result

end Advance

/-- The next value of a loop over a range of the type `T`. -/
def rangeAdvance (T : RangeElement) : T.Value → T.Value → T.Value → T.Value :=
  match T with
  | .i64 => grayRangeAdvance
  | .u64 | .u128 | .u256 => unsignedRangeAdvance
  | .i128 | .i256 => signedRangeAdvance

section Advance

variable {T : RangeElement}

theorem unsignedRangeAdvance_eq (hT : T.isSigned = false) (value step stop : T.Value) :
    unsignedRangeAdvance value step stop = grayRangeAdvance value step stop := by
  have hmin : T.format.min = 0 := T.format.min_of_unsigned hT
  obtain ⟨v, hv⟩ := value
  obtain ⟨s, hs⟩ := step
  have hv' := hv
  have hs' := hs
  rw [IntFormat.Contains, hmin] at hv' hs'
  simp only [unsignedRangeAdvance, grayRangeAdvance]
  by_cases hsum : T.format.Contains (v + s)
  · rw [dif_pos hsum, T.format.wrap_of_contains hsum, if_neg (by simp; omega)]
  · have hover : T.format.min + T.format.size ≤ v + s := by
      rw [IntFormat.Contains, hmin] at hsum
      omega
    have hwrap := T.format.wrap_of_ge hover (by omega)
    rw [dif_neg hsum, if_pos (by omega)]

theorem signedRangeAdvance_eq (hT : T.isSigned = true) (value step stop : T.Value) :
    signedRangeAdvance value step stop = grayRangeAdvance value step stop := by
  have hmin : 2 * T.format.min = -T.format.size := T.format.two_mul_min hT
  obtain ⟨v, hv⟩ := value
  obtain ⟨s, hs⟩ := step
  have hv' := hv
  have hs' := hs
  rw [IntFormat.Contains] at hv' hs'
  simp only [signedRangeAdvance, grayRangeAdvance]
  by_cases hsum : T.format.Contains (v + s)
  · rw [dif_pos hsum, T.format.wrap_of_contains hsum, if_neg (by simp; omega)]
  · have hsum' := hsum
    rw [IntFormat.Contains] at hsum'
    rw [dif_neg hsum]
    -- A sum that does not fit has summands of one sign, and comes back with the other.
    by_cases hlow : v + s < T.format.min
    · have hwrap := T.format.wrap_of_lt (n := v + s) (by omega) hlow
      rw [if_pos (by omega)]
    · have hwrap := T.format.wrap_of_ge (n := v + s) (by omega) (by omega)
      rw [if_pos (by omega)]

theorem rangeAdvance_eq (value step stop : T.Value) :
    rangeAdvance T value step stop = grayRangeAdvance value step stop := by
  cases T with
  | i64 => rfl
  | u64 => exact unsignedRangeAdvance_eq rfl value step stop
  | u128 => exact unsignedRangeAdvance_eq rfl value step stop
  | u256 => exact unsignedRangeAdvance_eq rfl value step stop
  | i128 => exact signedRangeAdvance_eq rfl value step stop
  | i256 => exact signedRangeAdvance_eq rfl value step stop

theorem rangeAdvance_of_contains {value step : T.Value} (stop : T.Value)
    (h : T.format.Contains (value.1 + step.1)) :
    rangeAdvance T value step stop = ⟨value.1 + step.1, h⟩ := by
  rw [rangeAdvance_eq, grayRangeAdvance, dif_pos h]

theorem rangeAdvance_of_not_contains {value step : T.Value} (stop : T.Value)
    (h : ¬ T.format.Contains (value.1 + step.1)) : rangeAdvance T value step stop = stop := by
  rw [rangeAdvance_eq, grayRangeAdvance, dif_neg h]

end Advance

/-- `GrayRange_<T>`: a stored range. -/
structure GrayRange (T : RangeElement) where
  start : T.Value
  stop : T.Value
  step : T.Value

namespace GrayRange

variable {T : RangeElement} (range : GrayRange T)

/-- `GrayRange_<T>_has_zero_step`. -/
def hasZeroStep : Bool := range.step.1 = 0

/-- `GrayRange_<T>_continues`. -/
def continues (value : T.Value) : Bool :=
  if 0 < range.step.1 then value.1 < range.stop.1 else range.stop.1 < value.1

/-- The header of a loop over a stored range. -/
def loop : ForLoop T.Value where
  first := range.start
  continues := range.continues
  advance value := rangeAdvance T value range.step range.stop

theorem continues_of_pos (h : 0 < range.step.1) (value : T.Value) :
    range.continues value = decide (value.1 < range.stop.1) := by
  rw [continues, if_pos h]

theorem continues_of_neg (h : range.step.1 < 0) (value : T.Value) :
    range.continues value = decide (range.stop.1 < value.1) := by
  rw [continues, if_neg (by omega)]

def distance (value : T.Value) : ℕ := (range.stop.1 - value.1).natAbs

theorem advance_lower (h : range.step.1 ≠ 0) (value : T.Value)
    (hc : range.continues value = true) :
    (if range.continues (rangeAdvance T value range.step range.stop) then
      range.distance (rangeAdvance T value range.step range.stop) + 1 else 0) <
    range.distance value + 1 := by
  by_cases hsum : T.format.Contains (value.1 + range.step.1)
  · rw [rangeAdvance_of_contains range.stop hsum]
    rcases lt_or_gt_of_ne h with hneg | hpos
    · simp only [continues_of_neg range hneg, decide_eq_true_eq, distance] at hc ⊢
      split <;> omega
    · simp only [continues_of_pos range hpos, decide_eq_true_eq, distance] at hc ⊢
      split <;> omega
  · rw [rangeAdvance_of_not_contains range.stop hsum]
    simp [continues]

theorem loop_terminates {σ ε : Type*} (h : range.step.1 ≠ 0) (body : T.Value → σ → Except ε σ)
    (s : σ) : ∃ fuel result, range.loop.run body fuel s = some result := by
  refine range.loop.exists_run (fun v => if range.continues v then range.distance v + 1 else 0)
    (fun v hv => ?_) body s
  have hlower := range.advance_lower h v hv
  have hgo : range.continues v = true := hv
  rw [if_pos hgo]
  exact hlower

end GrayRange

/-! ### Range expressions -/

/-- A way a statement is left before its end: a panic with its code, a `break`, a `return`, a run
that does not end, or an operation whose behaviour C leaves undefined. -/
inductive Exit
  | panic (code : String)
  | breaks
  | returns
  | diverges
  | undefined
  deriving DecidableEq

/-- The evaluation of an expression in the state `σ`. -/
abbrev Evaluation (σ α : Type*) := σ → Except (Exit × σ) (α × σ)

/-- An operand of a range as the emitter tells it apart: a `NODE_INTEGER_LITERAL`, a
`NODE_PREFIX_EXPRESSION` with a minus, or another expression. -/
inductive RangeOperand (T : RangeElement) (σ : Type*)
  | literal (value : T.Value)
  | negated (evaluate : Evaluation σ T.Value)
  | other (evaluate : Evaluation σ T.Value)

namespace RangeOperand

variable {T : RangeElement} {σ : Type*}

/-- `emit_expression` of an operand, coerced to the type of the range. -/
def evaluate : RangeOperand T σ → Evaluation σ T.Value
  | literal value, s => .ok (value, s)
  | negated evaluate, s => evaluate s
  | other evaluate, s => evaluate s

end RangeOperand

/-- A `NODE_RANGE_EXPRESSION` that the type checker accepts: the parser reads one to three operands,
and a literal step of zero is E3206. -/
structure RangeExpression (T : RangeElement) (σ : Type*) where
  start : Option (RangeOperand T σ)
  stop : RangeOperand T σ
  step : Option (RangeOperand T σ)
  start_of_step : step.isSome = true → start.isSome = true
  step_ne_zero : ∀ value, step = some (.literal value) → value.1 ≠ 0

variable {T : RangeElement} {σ : Type*}

/-- An operand that may be left out, with its default value. -/
def emitRangePart (operand : Option (RangeOperand T σ)) (defaultValue : T.Value) :
    Evaluation σ T.Value := fun s =>
  match operand with
  | none => .ok (defaultValue, s)
  | some operand => operand.evaluate s

/-- `emit_range_value`: start, end and step in order, and the range of them. -/
def emitRangeValue (range : RangeExpression T σ) : Evaluation σ (GrayRange T) := fun s => do
  let (start, s) ← emitRangePart range.start T.zero s
  let (stop, s) ← range.stop.evaluate s
  let (step, s) ← emitRangePart range.step T.one s
  return (⟨start, stop, step⟩, s)

end Grayscale
