import Grayscale.Codegen.Ranges

/-!
# Loops over a range

A `for` loop over a range expression has its own emission for each shape of the step; a loop over a
variable that holds the range reads the direction from the value of the step.
-/

namespace Grayscale

variable {T : RangeElement} {σ : Type*}

/-! ### The emissions -/

/-- `hoist_range_start`: a start that is not a literal, evaluated ahead of the loop. -/
def hoistRangeStart (start : Option (RangeOperand T σ)) : Evaluation σ (Option T.Value) := fun s =>
  match start with
  | none | some (.literal _) => .ok (none, s)
  | some start => do
    let (value, s) ← start.evaluate s
    return (some value, s)

def emitLoopStart (hoisted : Option T.Value) (start : Option (RangeOperand T σ)) :
    Evaluation σ T.Value := fun s =>
  match hoisted with
  | some value => .ok (value, s)
  | none => emitRangePart start T.zero s

/-- The header for a u64 or wide range. -/
def emitForWide (range : RangeExpression T σ) : Evaluation σ (ForLoop T.Value) := fun s => do
  let (hoisted, s) ← hoistRangeStart range.start s
  let (stop, s) ← range.stop.evaluate s
  let (step, s) ← emitRangePart range.step T.one s
  if range.step.isSome ∧ step.1 = 0 then throw (.panic "P0090", s)
  let (first, s) ← emitLoopStart hoisted range.start s
  return ({
    first := first
    continues := fun value =>
      -- An unsigned step is never negative.
      if range.step.isSome ∧ T.isSigned then
        if 0 < step.1 then value.1 < stop.1 else stop.1 < value.1
      else value.1 < stop.1
    advance := fun value => rangeAdvance T value step stop }, s)

/-- The header for an i64 range with a step of unknown direction. -/
def emitForVariableStep (range : RangeExpression .i64 σ) (stepOperand : RangeOperand .i64 σ) :
    Evaluation σ (ForLoop RangeElement.i64.Value) := fun s => do
  let (hoisted, s) ← hoistRangeStart range.start s
  let (stop, s) ← range.stop.evaluate s
  let (step, s) ← stepOperand.evaluate s
  if step.1 = 0 then throw (.panic "P0090", s)
  let (first, s) ← emitLoopStart hoisted range.start s
  return ({
    first := first
    continues := fun value => if 0 < step.1 then value.1 < stop.1 else stop.1 < value.1
    advance := fun value => grayRangeAdvance value step stop }, s)

/-- The header for an i64 range whose direction is read from the text of the step. -/
def emitForKnownStep (range : RangeExpression .i64 σ) (isNegativeStep : Bool) :
    Evaluation σ (ForLoop RangeElement.i64.Value) := fun s => do
  let (hoisted, s) ← hoistRangeStart range.start s
  let (stop, s) ← range.stop.evaluate s
  let (step, s) ← emitRangePart range.step RangeElement.i64.one s
  let (first, s) ← emitLoopStart hoisted range.start s
  return ({
    first := first
    continues := fun value => if isNegativeStep then stop.1 < value.1 else value.1 < stop.1
    advance := fun value =>
      match range.step with
      | some _ => grayRangeAdvance value step stop
      | none => RangeElement.i64.format.wrap (value.1 + 1) }, s)

/-- The header for an i64 range with an end only. -/
def emitForEnd (range : RangeExpression .i64 σ) : Evaluation σ (ForLoop RangeElement.i64.Value) :=
  fun s => do
    let (stop, s) ← range.stop.evaluate s
    return ({
      first := RangeElement.i64.zero
      continues := fun value => value.1 < stop.1
      advance := fun value => RangeElement.i64.format.wrap (value.1 + 1) }, s)

/-- The header of `emit_for_statement` for an i64 range. -/
def emitForI64 (range : RangeExpression .i64 σ) : Evaluation σ (ForLoop RangeElement.i64.Value) :=
  fun s =>
    match range.start, range.step with
    | some _, some (.literal value) =>
      -- A literal zero panics ahead of a loop that never runs.
      if value.1 = 0 then throw (.panic "P0090", s) else emitForKnownStep range (value.1 < 0) s
    | some _, some (.negated _) => emitForKnownStep range true s
    | some _, some (.other evaluate) => emitForVariableStep range (.other evaluate) s
    | some _, none => emitForKnownStep range false s
    | none, _ => emitForEnd range s

/-- The header of `emit_for_statement` for a range expression. -/
def emitForRange : {T : RangeElement} → RangeExpression T σ → Evaluation σ (ForLoop T.Value)
  | .i64, range => emitForI64 range
  | .u64, range | .i128, range | .u128, range | .i256, range | .u256, range => emitForWide range

/-- The header for a variable that was assigned the range: the range is copied, and a step of zero
panics before the first round. -/
def emitForStored (range : RangeExpression T σ) : Evaluation σ (ForLoop T.Value) := fun s => do
  let (stored, s) ← emitRangeValue range s
  if stored.hasZeroStep then throw (.panic "P0090", s)
  return (stored.loop, s)

abbrev LoopBody (T : RangeElement) (σ : Type*) := T.Value → σ → Except (Exit × σ) σ

/-- A run of at most `fuel` rounds of a loop with an emitted header. -/
def runLoop (header : Evaluation σ (ForLoop T.Value)) (body : LoopBody T σ) (fuel : ℕ) (s : σ) :
    Option (Except (Exit × σ) σ) :=
  match header s with
  | .error exit => some (.error exit)
  | .ok (loop, s) => loop.run body fuel s

/-- In the state `s` the loop over the range expression and the one over a variable that holds the
range do the same with every body, and end. A body sees the values in order and may record them. -/
def LoopsAgree (range : RangeExpression T σ) (s : σ) : Prop := ∀ body : LoopBody T σ,
    (∀ fuel, runLoop (emitForRange range) body fuel s = runLoop (emitForStored range) body fuel s) ∧
      ∃ fuel result, runLoop (emitForRange range) body fuel s = some result

/-! ### The loops as functions of the range -/

/-- The header that evaluates the range, checks it, and loops over it as `make` says. -/
def headerOf (check : GrayRange T → Bool) (make : GrayRange T → ForLoop T.Value)
    (range : RangeExpression T σ) : Evaluation σ (ForLoop T.Value) := fun s => do
  let (stored, s) ← emitRangeValue range s
  if check stored then throw (.panic "P0090", s)
  return (make stored, s)

theorem emitForStored_eq (range : RangeExpression T σ) :
    emitForStored range = headerOf GrayRange.hasZeroStep GrayRange.loop range := rfl

theorem hoistRangeStart_cases (start : Option (RangeOperand T σ)) (s : σ) :
    (∃ hoisted first s', hoistRangeStart start s = .ok (hoisted, s') ∧
        emitRangePart start T.zero s = .ok (first, s') ∧
        ∀ s'', emitLoopStart hoisted start s'' = .ok (first, s'')) ∨
      ∃ exit, hoistRangeStart start s = .error exit ∧
        emitRangePart start T.zero s = .error exit := by
  match start with
  | none => exact .inl ⟨none, T.zero, s, rfl, rfl, fun _ => rfl⟩
  | some (.literal value) => exact .inl ⟨none, value, s, rfl, rfl, fun _ => rfl⟩
  | some (.negated evaluate) | some (.other evaluate) =>
    cases h : evaluate s with
    | error exit =>
      refine .inr ⟨exit, ?_, h⟩
      simp [hoistRangeStart, RangeOperand.evaluate, h, bind, Except.bind]
    | ok result =>
      refine .inl ⟨some result.1, result.1, result.2, ?_, h, fun _ => rfl⟩
      simp [hoistRangeStart, RangeOperand.evaluate, h, bind, Except.bind, pure, Except.pure]

theorem inlineHeader_eq (range : RangeExpression T σ) (check : T.Value → Bool)
    (make : GrayRange T → ForLoop T.Value) (s : σ) : (do
      let (hoisted, s) ← hoistRangeStart range.start s
      let (stop, s) ← range.stop.evaluate s
      let (step, s) ← emitRangePart range.step T.one s
      if check step then throw (.panic "P0090", s)
      let (first, s) ← emitLoopStart hoisted range.start s
      return (make ⟨first, stop, step⟩, s) : Except (Exit × σ) (ForLoop T.Value × σ)) =
      headerOf (fun stored => check stored.step) make range s := by
  rw [headerOf, emitRangeValue]
  rcases hoistRangeStart_cases range.start s with ⟨hoisted, first, s₁, hhoist, hpart, hfst⟩ |
    ⟨exit, hhoist, hpart⟩
  · cases hstop : range.stop.evaluate s₁ with
    | error exit => simp [hhoist, hpart, hstop, bind, Except.bind]
    | ok stop =>
      cases hstep : emitRangePart range.step T.one stop.2 with
      | error exit => simp [hhoist, hpart, hstop, hstep, bind, Except.bind]
      | ok step =>
        cases hchk : check step.1 <;>
          simp [hhoist, hpart, hfst, hstop, hstep, hchk, bind, Except.bind, pure, Except.pure,
            throw, throwThe, MonadExceptOf.throw]
  · rw [hhoist, hpart]
    rfl

/-- The loop with a direction of its own: down if `down value` holds of the step. -/
def directedLoop (down : T.Value → Bool) (advance : GrayRange T → T.Value → T.Value)
    (stored : GrayRange T) : ForLoop T.Value where
  first := stored.start
  continues value :=
    if down stored.step then stored.stop.1 < value.1 else value.1 < stored.stop.1
  advance := advance stored

theorem directedLoop_run {stored : GrayRange T} {down : T.Value → Bool}
    {advance : GrayRange T → T.Value → T.Value} (hstep : stored.step.1 ≠ 0)
    (hdown : down stored.step = decide (stored.step.1 < 0))
    (hadvance : ∀ value, stored.continues value = true →
      advance stored value = rangeAdvance T value stored.step stored.stop)
    {ε : Type*} (body : T.Value → σ → Except ε σ) (fuel : ℕ) (s : σ) :
    (directedLoop down advance stored).run body fuel s = stored.loop.run body fuel s := by
  have hgo : ∀ value,
      (directedLoop down advance stored).continues value = stored.continues value := by
    intro value
    simp only [directedLoop, hdown, GrayRange.continues, decide_eq_true_eq]
    by_cases hneg : stored.step.1 < 0
    · rw [if_pos hneg, if_neg (by omega)]
    · rw [if_neg hneg, if_pos (by omega)]
  exact ForLoop.run_congr (a := directedLoop down advance stored) (b := stored.loop)
    (fun _ => True) rfl (fun value _ => hgo value)
    (fun value _ h => hadvance value ((hgo value).symm.trans h)) (fun _ _ _ => trivial)
    body fuel trivial s

theorem runLoop_headerOf {range : RangeExpression T σ} {check : GrayRange T → Bool}
    {make : GrayRange T → ForLoop T.Value} {s : σ}
    (h : ∀ stored s', emitRangeValue range s = .ok (stored, s') →
      check stored = stored.hasZeroStep ∧ (stored.step.1 ≠ 0 →
        ∀ (body : LoopBody T σ) fuel, (make stored).run body fuel s' =
          stored.loop.run body fuel s'))
    (body : LoopBody T σ) (fuel : ℕ) : runLoop (headerOf check make range) body fuel s =
      runLoop (emitForStored range) body fuel s := by
  rw [emitForStored_eq, runLoop, runLoop, headerOf, headerOf]
  cases hval : emitRangeValue range s with
  | error exit => rfl
  | ok result =>
    obtain ⟨stored, s'⟩ := result
    obtain ⟨hchk, hrun⟩ := h stored s' hval
    simp only [bind, Except.bind, hchk]
    cases hzero : stored.hasZeroStep with
    | true => rfl
    | false => exact hrun (by simpa [GrayRange.hasZeroStep] using hzero) body fuel

/-! ### One lemma for each emission -/

theorem rangeValue_ok {range : RangeExpression T σ} {s s' : σ} {stored : GrayRange T}
    (h : emitRangeValue range s = .ok (stored, s')) :
    ∃ s₁ s₂, emitRangePart range.start T.zero s = .ok (stored.start, s₁) ∧
      range.stop.evaluate s₁ = .ok (stored.stop, s₂) ∧
      emitRangePart range.step T.one s₂ = .ok (stored.step, s') := by
  cases hst : emitRangePart range.start T.zero s with
  | error exit => simp [emitRangeValue, hst, bind, Except.bind] at h
  | ok start =>
    cases hstop : range.stop.evaluate start.2 with
    | error exit => simp [emitRangeValue, hst, hstop, bind, Except.bind] at h
    | ok stop =>
      cases hstep : emitRangePart range.step T.one stop.2 with
      | error exit => simp [emitRangeValue, hst, hstop, hstep, bind, Except.bind] at h
      | ok step =>
        simp only [emitRangeValue, hst, hstop, hstep, bind, Except.bind, pure, Except.pure,
          Except.ok.injEq, Prod.mk.injEq] at h
        obtain ⟨rfl, rfl⟩ := h
        exact ⟨start.2, stop.2, rfl, hstop, hstep⟩

theorem step_of_rangeValue {range : RangeExpression T σ} {s s' : σ} {stored : GrayRange T}
    (h : emitRangeValue range s = .ok (stored, s')) (hstep : range.step = none) :
    stored.step = T.one := by
  obtain ⟨s₁, s₂, -, -, hpart⟩ := rangeValue_ok h
  rw [hstep] at hpart
  exact (Prod.mk.inj (Except.ok.inj hpart)).1.symm

theorem step_of_literal {range : RangeExpression T σ} {s s' : σ} {stored : GrayRange T}
    {value : T.Value} (h : emitRangeValue range s = .ok (stored, s'))
    (hstep : range.step = some (.literal value)) : stored.step = value := by
  obtain ⟨s₁, s₂, -, -, hpart⟩ := rangeValue_ok h
  rw [hstep] at hpart
  exact (Prod.mk.inj (Except.ok.inj hpart)).1.symm

/-- The loop for a u64 or wide range. -/
def wideLoop (hasStep : Bool) (stored : GrayRange T) : ForLoop T.Value :=
  directedLoop (fun step => hasStep && T.isSigned && decide (step.1 ≤ 0))
    (fun stored value => rangeAdvance T value stored.step stored.stop) stored

theorem emitForWide_eq (range : RangeExpression T σ) (s : σ) : emitForWide range s =
      headerOf (fun stored => range.step.isSome && decide (stored.step.1 = 0))
        (wideLoop range.step.isSome) range s := by
  rw [← inlineHeader_eq range (fun step => range.step.isSome && decide (step.1 = 0)), emitForWide]
  have hloop : ∀ first stop step : T.Value,
      ({ first := first
         continues := fun value =>
           if range.step.isSome = true ∧ T.isSigned = true then
             if 0 < step.1 then decide (value.1 < stop.1) else decide (stop.1 < value.1)
           else decide (value.1 < stop.1)
         advance := fun value => rangeAdvance T value step stop } : ForLoop T.Value) =
        wideLoop range.step.isSome ⟨first, stop, step⟩ := by
    intro first stop step
    simp only [wideLoop, directedLoop, ForLoop.mk.injEq, true_and, and_true]
    funext value
    cases range.step.isSome <;> cases T.isSigned <;> by_cases hpos : 0 < step.1 <;>
      simp [hpos, not_le.mpr, not_lt.mp]
  simp only [hloop, Bool.and_eq_true, decide_eq_true_eq]

theorem emitForWide_run (range : RangeExpression T σ) (body : LoopBody T σ) (fuel : ℕ) (s : σ) :
    runLoop (emitForWide range) body fuel s = runLoop (emitForStored range) body fuel s := by
  rw [runLoop, emitForWide_eq, ← runLoop]
  refine runLoop_headerOf (fun stored s' hval => ⟨?_, fun hstep body fuel => ?_⟩) body fuel
  · cases hsome : range.step with
    | some step => simp [GrayRange.hasZeroStep]
    | none => simp [GrayRange.hasZeroStep, step_of_rangeValue hval hsome, RangeElement.one]
  · refine directedLoop_run hstep ?_ (fun _ _ => rfl) body fuel s'
    have hle : decide (stored.step.1 ≤ 0) = decide (stored.step.1 < 0) := by
      simp only [decide_eq_decide]
      omega
    rw [hle]
    cases hsome : range.step with
    | none => simp [step_of_rangeValue hval hsome, RangeElement.one]
    | some step =>
      cases hsig : T.isSigned with
      | true => rfl
      | false =>
        have hmin := stored.step.2.1
        rw [T.format.min_of_unsigned hsig] at hmin
        simp [hmin]

theorem emitForVariableStep_run (range : RangeExpression .i64 σ) {stepOperand : RangeOperand .i64 σ}
    (hstep : range.step = some stepOperand) (body : LoopBody .i64 σ) (fuel : ℕ) (s : σ) :
    runLoop (emitForVariableStep range stepOperand) body fuel s =
      runLoop (emitForStored range) body fuel s := by
  have heq : emitForVariableStep range stepOperand s =
      headerOf GrayRange.hasZeroStep GrayRange.loop range s := by
    refine Eq.trans ?_ (inlineHeader_eq range (fun step => decide (step.1 = 0)) GrayRange.loop s)
    simp only [emitForVariableStep, hstep, emitRangePart, decide_eq_true_eq]
    rfl
  rw [runLoop, heq, emitForStored_eq, runLoop]

/-- The loop of an i64 range whose direction is known from the text. -/
def knownStepLoop (isNegativeStep hasStep : Bool) : GrayRange .i64 → ForLoop RangeElement.i64.Value :=
  directedLoop (fun _ => isNegativeStep) fun stored value =>
    if hasStep then grayRangeAdvance value stored.step stored.stop
    else RangeElement.i64.format.wrap (value.1 + 1)

theorem knownStep_eq (range : RangeExpression .i64 σ) (isNegativeStep : Bool) (s : σ) :
    emitForKnownStep range isNegativeStep s =
      headerOf (fun _ => false) (knownStepLoop isNegativeStep range.step.isSome) range s := by
  rw [← inlineHeader_eq range (fun _ => false), emitForKnownStep]
  cases hstep : range.step with
  | none => simp [knownStepLoop, directedLoop]
  | some operand => simp [knownStepLoop, directedLoop]

theorem increment_eq {stored : GrayRange .i64} (hstep : stored.step = RangeElement.i64.one)
    {value : RangeElement.i64.Value} (h : stored.continues value = true) :
    RangeElement.i64.format.wrap (value.1 + 1) =
      rangeAdvance .i64 value stored.step stored.stop := by
  have hpos : 0 < stored.step.1 := by
    rw [hstep]
    decide
  rw [stored.continues_of_pos hpos, decide_eq_true_eq] at h
  have hin : RangeElement.i64.format.Contains (value.1 + 1) := by
    have hval := value.2
    have hstop := stored.stop.2
    rw [IntFormat.Contains] at hval hstop ⊢
    omega
  rw [IntFormat.wrap_of_contains _ hin, hstep, rangeAdvance_eq, grayRangeAdvance]
  exact (dif_pos hin).symm

variable {range : RangeExpression .i64 σ}

theorem knownStep_run {isNegativeStep : Bool} {s : σ}
    (h : ∀ stored s', emitRangeValue range s = .ok (stored, s') →
      (stored.step.1 < 0 ∧ isNegativeStep = true) ∨ (0 < stored.step.1 ∧ isNegativeStep = false))
    (body : LoopBody .i64 σ) (fuel : ℕ) :
    runLoop (emitForKnownStep range isNegativeStep) body fuel s =
      runLoop (emitForStored range) body fuel s := by
  rw [runLoop, knownStep_eq, ← runLoop]
  refine runLoop_headerOf (fun stored s' hval => ?_) body fuel
  have hdirection := h stored s' hval
  have hne : stored.step.1 ≠ 0 := by omega
  refine ⟨by simp [GrayRange.hasZeroStep, hne], fun _ body fuel => ?_⟩
  refine directedLoop_run hne ?_ (fun value hgo => ?_) body fuel s'
  · rcases hdirection with ⟨hneg, hflag⟩ | ⟨hpos, hflag⟩
    · simp [hflag, hneg]
    · simp [hflag, hpos.le]
  · cases hstep : range.step with
    | none => exact increment_eq (step_of_rangeValue hval hstep) hgo
    | some operand => rfl

theorem emitForEnd_run (hst : range.start = none)
    (body : LoopBody .i64 σ) (fuel : ℕ) (s : σ) :
    runLoop (emitForEnd range) body fuel s = runLoop (emitForStored range) body fuel s := by
  have hstep : range.step = none := by
    cases hstep : range.step with
    | none => rfl
    | some operand => simpa [hst] using range.start_of_step (by rw [hstep]; rfl)
  have heq : emitForEnd range s = emitForKnownStep range false s := by
    simp only [emitForEnd, emitForKnownStep, hst, hstep, hoistRangeStart, emitLoopStart,
      emitRangePart, bind, Except.bind, pure, Except.pure]
    cases range.stop.evaluate s with
    | error exit => rfl
    | ok stop => simp
  rw [runLoop, heq, ← runLoop]
  refine knownStep_run (fun stored s' hval => .inr ⟨?_, rfl⟩) body fuel
  rw [step_of_rangeValue hval hstep]
  decide

/-! ### When the loops agree -/

def RangeExpression.hasNegatedStep (range : RangeExpression T σ) : Bool :=
  match range.step with
  | some (.negated _) => true
  | _ => false

/-- A step with a minus in front has the direction that the emission for i64 takes it to have, or
does not matter. -/
def GrayRange.GoesDown (stored : GrayRange T) : Prop :=
  stored.step.1 < 0 ∨ (0 < stored.step.1 ∧ stored.start.1 = stored.stop.1)

theorem emitForStored_terminates (range : RangeExpression T σ) (body : LoopBody T σ) (s : σ) :
    ∃ fuel result, runLoop (emitForStored range) body fuel s = some result := by
  rw [emitForStored_eq]
  simp only [runLoop, headerOf]
  cases hval : emitRangeValue range s with
  | error exit => exact ⟨0, _, rfl⟩
  | ok result =>
    cases hzero : result.1.hasZeroStep with
    | true => exact ⟨0, .error (.panic "P0090", result.2), by simp [bind, Except.bind, hzero, throw,
        throwThe, MonadExceptOf.throw]⟩
    | false =>
      have hstep : result.1.step.1 ≠ 0 := by simpa [GrayRange.hasZeroStep] using hzero
      simpa [bind, Except.bind, hzero, pure, Except.pure] using
        result.1.loop_terminates hstep body result.2

theorem knownStepLoop_run_of_eq {stored : GrayRange .i64} (hpos : 0 < stored.step.1)
    (heq : stored.start.1 = stored.stop.1) (hasStep : Bool) (body : LoopBody .i64 σ) (fuel : ℕ)
    (s : σ) : (knownStepLoop true hasStep stored).run body fuel s = stored.loop.run body fuel s := by
  cases fuel with
  | zero => rfl
  | succ fuel =>
    rw [ForLoop.run, ForLoop.run, ForLoop.runFrom_stop, ForLoop.runFrom_stop]
    · exact (stored.continues_of_pos hpos stored.start).trans (decide_eq_false (by omega))
    · simpa [knownStepLoop, directedLoop] using heq.le

theorem knownStep_run_of_goesDown {s : σ}
    (h : ∀ stored s', emitRangeValue range s = .ok (stored, s') → stored.GoesDown)
    (body : LoopBody .i64 σ) (fuel : ℕ) (hsome : range.step.isSome = true) :
    runLoop (emitForKnownStep range true) body fuel s =
      runLoop (emitForStored range) body fuel s := by
  rw [runLoop, knownStep_eq, ← runLoop]
  refine runLoop_headerOf (fun stored s' hval => ?_) body fuel
  rcases h stored s' hval with hneg | ⟨hpos, heq⟩
  · refine ⟨by simp [GrayRange.hasZeroStep, hneg.ne], fun hne body fuel => ?_⟩
    refine directedLoop_run hne (by simp [hneg]) (fun value _ => ?_) body fuel s'
    rw [if_pos hsome]
    rfl
  · exact ⟨by simp [GrayRange.hasZeroStep, hpos.ne'],
      fun _ body fuel => knownStepLoop_run_of_eq hpos heq _ body fuel s'⟩

/-- A body that tells whether a round is run. -/
def revealingBody : LoopBody T σ := fun _ s => .error (.diverges, s)

/-- With a minus in front of the step, the i64 loop does not agree on a range that goes up, or that
has a step of zero. -/
theorem goesDown_of_run {s s' : σ} {stored : GrayRange .i64}
    (hval : emitRangeValue range s = .ok (stored, s'))
    (h : runLoop (emitForKnownStep range true) revealingBody 1 s =
      runLoop (emitForStored range) revealingBody 1 s) : stored.GoesDown := by
  have hinline : runLoop (emitForKnownStep range true) revealingBody 1 s =
      some (if stored.stop.1 < stored.start.1 then .error (.diverges, s') else .ok s') := by
    rw [runLoop, knownStep_eq, headerOf, hval]
    simp only [bind, Except.bind, pure, Except.pure, Bool.false_eq_true, if_false, ForLoop.run,
      ForLoop.runFrom, knownStepLoop, directedLoop, if_true, decide_eq_true_eq, revealingBody]
    split <;> rfl
  have hstore : runLoop (emitForStored range) revealingBody 1 s =
      some (if stored.step.1 = 0 then .error (.panic "P0090", s')
        else if stored.continues stored.start then .error (.diverges, s') else .ok s') := by
    rw [runLoop, emitForStored_eq, headerOf, hval]
    by_cases hzero : stored.step.1 = 0
    · simp [bind, Except.bind, GrayRange.hasZeroStep, hzero, throw, throwThe, MonadExceptOf.throw]
    · simp only [bind, Except.bind, GrayRange.hasZeroStep, hzero, decide_false, Bool.false_eq_true,
        if_false, pure, Except.pure, ForLoop.run, ForLoop.runFrom, GrayRange.loop, revealingBody]
      split <;> rfl
  rw [hinline, hstore] at h
  rcases lt_trichotomy stored.step.1 0 with hneg | hzero | hpos
  · exact .inl hneg
  · rw [if_pos hzero] at h
    split_ifs at h
    · simp at h
    · simp at h
  · refine .inr ⟨hpos, ?_⟩
    rw [if_neg hpos.ne', stored.continues_of_pos hpos] at h
    by_contra hne
    rcases lt_or_gt_of_ne hne with hlt | hgt
    · simp [hlt, hlt.le.not_gt] at h
    · simp [hgt, hgt.le.not_gt] at h

theorem runLoop_of_hasNegatedStep
    (h : range.hasNegatedStep = true) (body : LoopBody .i64 σ) (fuel : ℕ) (s : σ) :
    runLoop (emitForRange range) body fuel s = runLoop (emitForKnownStep range true) body fuel s := by
  match hstep : range.step with
  | none | some (.literal _) | some (.other _) => simp [RangeExpression.hasNegatedStep, hstep] at h
  | some (.negated evaluate) =>
    obtain ⟨start, hst⟩ := Option.isSome_iff_exists.mp
      (range.start_of_step (by rw [hstep]; rfl))
    simp only [emitForRange, runLoop, emitForI64, hst, hstep]

theorem goesDown_of_loopsAgree {s s' : σ} {stored : GrayRange .i64}
    (hneg : range.hasNegatedStep = true) (hval : emitRangeValue range s = .ok (stored, s'))
    (h : LoopsAgree range s) : stored.GoesDown :=
  goesDown_of_run hval ((runLoop_of_hasNegatedStep hneg _ _ _).symm.trans ((h revealingBody).1 1))

/-- The loop over a range expression agrees with the loop over the stored range, except for an i64
range whose step has a minus in front and does not go down. -/
theorem loopsAgree_iff (range : RangeExpression T σ) (s : σ) : LoopsAgree range s ↔
      (T = .i64 → range.hasNegatedStep = true → ∀ stored s',
        emitRangeValue range s = .ok (stored, s') → stored.GoesDown) := by
  have hof : (∀ body fuel, runLoop (emitForRange range) body fuel s =
      runLoop (emitForStored range) body fuel s) → LoopsAgree range s := by
    intro h body
    obtain ⟨fuel, result, hrun⟩ := emitForStored_terminates range body s
    exact ⟨h body, fuel, result, (h body fuel).trans hrun⟩
  have hwide : (∀ body fuel, runLoop (emitForWide range) body fuel s =
      runLoop (emitForStored range) body fuel s) := fun body fuel =>
    emitForWide_run range body fuel s
  cases T with
  | u64 => exact iff_of_true (hof hwide) (fun h => by cases h)
  | i128 => exact iff_of_true (hof hwide) (fun h => by cases h)
  | u128 => exact iff_of_true (hof hwide) (fun h => by cases h)
  | i256 => exact iff_of_true (hof hwide) (fun h => by cases h)
  | u256 => exact iff_of_true (hof hwide) (fun h => by cases h)
  | i64 =>
    cases hstep : range.step with
    | none =>
      refine iff_of_true (hof fun body fuel => ?_) (fun _ h => ?_)
      · cases hst : range.start with
        | none => simpa only [emitForRange, runLoop, emitForI64, hst] using
            emitForEnd_run hst body fuel s
        | some start =>
          have hdirection : ∀ stored s', emitRangeValue range s = .ok (stored, s') →
              (stored.step.1 < 0 ∧ false = true) ∨ (0 < stored.step.1 ∧ false = false) :=
            fun stored s' hval => .inr ⟨by rw [step_of_rangeValue hval hstep]; decide, rfl⟩
          have hrun := knownStep_run hdirection body fuel
          simpa only [emitForRange, runLoop, emitForI64, hst, hstep] using hrun
      · simp [RangeExpression.hasNegatedStep, hstep] at h
    | some operand =>
      obtain ⟨start, hst⟩ := Option.isSome_iff_exists.mp
        (range.start_of_step (by rw [hstep]; rfl))
      cases operand with
      | literal value =>
        have hne := range.step_ne_zero value hstep
        refine iff_of_true (hof fun body fuel => ?_) (fun _ h => ?_)
        · have hdirection : ∀ stored s', emitRangeValue range s = .ok (stored, s') →
              (stored.step.1 < 0 ∧ decide (value.1 < 0) = true) ∨
                (0 < stored.step.1 ∧ decide (value.1 < 0) = false) := by
            intro stored s' hval
            rw [step_of_literal hval hstep, decide_eq_true_eq, decide_eq_false_iff_not]
            omega
          have hrun := knownStep_run hdirection body fuel
          simpa only [emitForRange, runLoop, emitForI64, hst, hstep, if_neg hne] using hrun
        · simp [RangeExpression.hasNegatedStep, hstep] at h
      | other evaluate =>
        refine iff_of_true (hof fun body fuel => ?_) (fun _ h => ?_)
        · simpa only [emitForRange, runLoop, emitForI64, hst, hstep] using
            emitForVariableStep_run range hstep body fuel s
        · simp [RangeExpression.hasNegatedStep, hstep] at h
      | negated evaluate =>
        have hneg : range.hasNegatedStep = true := by simp [RangeExpression.hasNegatedStep, hstep]
        constructor
        · intro h _ _ stored s' hval
          exact goesDown_of_loopsAgree hneg hval h
        · intro h
          refine hof fun body fuel => (runLoop_of_hasNegatedStep hneg body fuel s).trans ?_
          exact knownStep_run_of_goesDown (h rfl hneg) body fuel (by rw [hstep]; rfl)

/-- `range(0, 3, -s)` with variables, in a state that is the value of `s`. -/
def countWithNegatedStep : RangeExpression .i64 ℤ where
  start := some (.other fun s => .ok (RangeElement.i64.zero, s))
  stop := .other fun s => .ok (RangeElement.i64.format.wrap 3, s)
  step := some (.negated fun s => .ok (RangeElement.i64.format.wrap (-s), s))
  start_of_step _ := rfl
  step_ne_zero _ h := by cases h

/-- A minus in front of a negative step stops the loop over the range expression before its first
round. -/
theorem not_loopsAgree_countWithNegatedStep : ¬ LoopsAgree countWithNegatedStep (-1) := by
  intro h
  have hval : emitRangeValue countWithNegatedStep (-1) = .ok (⟨RangeElement.i64.zero,
      RangeElement.i64.format.wrap 3, RangeElement.i64.format.wrap 1⟩, -1) := rfl
  rcases goesDown_of_loopsAgree rfl hval h with hneg | ⟨-, heq⟩
  · exact absurd hneg (by decide)
  · exact absurd heq (by decide)

end Grayscale
