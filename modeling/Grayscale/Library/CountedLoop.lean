import Mathlib.Algebra.Order.Group.Nat
import Mathlib.Tactic.Common

/-!
# Counted loops

A `for` loop with a header: the value it starts at, the test before each round and the step after
it. The body may leave the loop with an exit.
-/

namespace Grayscale

/-- The header of a `for` loop over the values `V`. -/
structure ForLoop (V : Type*) where
  first : V
  continues : V → Bool
  advance : V → V

namespace ForLoop

variable {V σ ε : Type*}

/-- The rounds from the value `v` on, at most `fuel` of them; `none` if the loop goes on. -/
@[grind =]
def runFrom (loop : ForLoop V) (body : V → σ → Except ε σ) : ℕ → V → σ → Option (Except ε σ)
  | 0, _, _ => none
  | fuel + 1, v, s =>
    if loop.continues v then
      match body v s with
      | .error exit => some (.error exit)
      | .ok s' => loop.runFrom body fuel (loop.advance v) s'
    else some (.ok s)

def run (loop : ForLoop V) (body : V → σ → Except ε σ) (fuel : ℕ) (s : σ) : Option (Except ε σ) :=
  loop.runFrom body fuel loop.first s

variable (loop : ForLoop V)

theorem runFrom_stop (body : V → σ → Except ε σ) (fuel : ℕ) {v : V}
    (h : loop.continues v = false) (s : σ) : loop.runFrom body (fuel + 1) v s = some (.ok s) := by
  simp [runFrom, h]

theorem runFrom_exit {body : V → σ → Except ε σ} (fuel : ℕ) {v : V} {s : σ}
    {exit : ε} (h : loop.continues v = true) (hbody : body v s = .error exit) :
    loop.runFrom body (fuel + 1) v s = some (.error exit) := by
  simp [runFrom, h, hbody]

theorem runFrom_congr {a b : ForLoop V} (P : V → Prop)
    (hgo : ∀ v, P v → a.continues v = b.continues v)
    (hadvance : ∀ v, P v → a.continues v = true → a.advance v = b.advance v)
    (hkeep : ∀ v, P v → a.continues v = true → P (a.advance v))
    (body : V → σ → Except ε σ) (fuel : ℕ) {v : V} (hv : P v) (s : σ) :
    a.runFrom body fuel v s = b.runFrom body fuel v s := by
  induction fuel generalizing v s with
  | zero => rfl
  | succ fuel ih =>
    rw [runFrom, runFrom, ← hgo v hv]
    by_cases hc : a.continues v = true
    · rw [if_pos hc, if_pos hc, ← hadvance v hv hc]
      cases body v s with
      | error exit => rfl
      | ok s' => exact ih (hkeep v hv hc) s'
    · rw [if_neg hc, if_neg hc]

theorem run_congr {a b : ForLoop V} (P : V → Prop) (hfst : a.first = b.first)
    (hgo : ∀ v, P v → a.continues v = b.continues v)
    (hadvance : ∀ v, P v → a.continues v = true → a.advance v = b.advance v)
    (hkeep : ∀ v, P v → a.continues v = true → P (a.advance v))
    (body : V → σ → Except ε σ) (fuel : ℕ) (h : P a.first) (s : σ) :
    a.run body fuel s = b.run body fuel s := by
  rw [run, run, ← hfst]
  exact runFrom_congr P hgo hadvance hkeep body fuel h s

theorem runFrom_add (body : V → σ → Except ε σ) {fuel : ℕ} (more : ℕ) {v : V}
    {s : σ} {result : Except ε σ} (h : loop.runFrom body fuel v s = some result) :
    loop.runFrom body (fuel + more) v s = some result := by
  induction fuel generalizing v s with
  | zero => cases h
  | succ fuel ih =>
    rw [Nat.succ_add, runFrom]
    rw [runFrom] at h
    by_cases hc : loop.continues v = true
    · rw [if_pos hc] at h ⊢
      cases hbody : body v s with
      | error exit =>
        rw [hbody] at h
        exact h
      | ok s' =>
        rw [hbody] at h
        exact ih h
    · rw [if_neg hc] at h ⊢
      exact h

theorem exists_runFrom (measure : V → ℕ)
    (hlower : ∀ v, loop.continues v = true → measure (loop.advance v) < measure v)
    (body : V → σ → Except ε σ) (v : V) (s : σ) :
    ∃ result, loop.runFrom body (measure v + 1) v s = some result := by
  induction hn : measure v using Nat.strong_induction_on generalizing v s with
  | _ n ih =>
    subst hn
    by_cases hc : loop.continues v = true
    · cases hbody : body v s with
      | error exit => exact ⟨_, runFrom_exit loop _ hc hbody⟩
      | ok s' =>
        have hlt := hlower v hc
        obtain ⟨result, hres⟩ := ih _ hlt (loop.advance v) s' rfl
        obtain ⟨more, hmore⟩ := Nat.exists_eq_add_of_lt hlt
        refine ⟨result, ?_⟩
        rw [runFrom, if_pos hc, hbody, hmore, Nat.add_right_comm _ more 1]
        exact runFrom_add loop body more hres
    · exact ⟨_, runFrom_stop loop body _ (Bool.eq_false_iff.mpr hc) s⟩

theorem exists_run (measure : V → ℕ)
    (hlower : ∀ v, loop.continues v = true → measure (loop.advance v) < measure v)
    (body : V → σ → Except ε σ) (s : σ) : ∃ fuel result, loop.run body fuel s = some result :=
  ⟨_, exists_runFrom loop measure hlower body loop.first s⟩

end ForLoop

end Grayscale
