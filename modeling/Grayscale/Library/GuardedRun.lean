import Mathlib.Tactic.Common

/-!
# Runs whose steps are guarded

A machine with a partial step function. A property holds in every state of a run if, and only if,
every step of the run meets a condition, when the condition is what keeps an invariant.
-/

namespace Grayscale.GuardedRun

variable {State Op : Type*} (step : State → Op → Option State)

/-- The property holds in every state that a run reaches; a run ends where a step has no result. -/
def AllStates (property : State → Prop) : State → List Op → Prop
  | s, [] => property s
  | s, op :: ops => property s ∧ ∀ t, step s op = some t → AllStates property t ops

/-- Every step of a run that has a result meets the condition. -/
def AllSteps (condition : State → Op → Prop) : State → List Op → Prop
  | _, [] => True
  | s, op :: ops => ∀ t, step s op = some t → condition s op ∧ AllSteps condition t ops

variable {step} {inv property : State → Prop} {condition : State → Op → Prop}

theorem allStates_iff (hproperty : ∀ s, inv s → property s)
    (hkeep : ∀ s op t, inv s → step s op = some t → condition s op → inv t)
    (hbreak : ∀ s op t, inv s → step s op = some t → ¬ condition s op → ¬ property t)
    {s : State} (hs : inv s) (ops : List Op) :
    AllStates step property s ops ↔ AllSteps step condition s ops := by
  induction ops generalizing s with
  | nil => exact iff_of_true (hproperty s hs) trivial
  | cons op ops ih =>
    constructor
    · intro h t ht
      have hstates := h.2 t ht
      have hmt : condition s op := by
        by_contra hnot
        refine hbreak s op t hs ht hnot ?_
        cases ops with
        | nil => exact hstates
        | cons op' ops => exact hstates.1
      exact ⟨hmt, (ih (hkeep s op t hs ht hmt)).mp hstates⟩
    · intro h
      refine ⟨hproperty s hs, fun t ht => ?_⟩
      obtain ⟨hmt, hsts⟩ := h t ht
      exact (ih (hkeep s op t hs ht hmt)).mpr hsts

end Grayscale.GuardedRun
