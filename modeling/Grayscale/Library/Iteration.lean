import Mathlib.Algebra.Order.Group.Nat
import Mathlib.Data.Finite.Prod
import Mathlib.Data.Set.Finite.Lattice

/-!
# Iteration of a step

A step that is repeated until there is none ends if it lowers a measure, and keeps what each step
keeps.
-/

namespace Grayscale

section Iteration

variable {σ : Type*}

/-- At most `fuel` steps; `none` if the iteration goes on. -/
def runUntil (step : σ → Option σ) : ℕ → σ → Option σ
  | 0, _ => none
  | fuel + 1, s =>
    match step s with
    | none => some s
    | some s' => runUntil step fuel s'

variable {step : σ → Option σ}

theorem runUntil_of_none {s : σ} (h : step s = none) (fuel : ℕ) :
    runUntil step (fuel + 1) s = some s := by
  simp [runUntil, h]

theorem runUntil_of_some {s s' : σ} (h : step s = some s') (fuel : ℕ) :
    runUntil step (fuel + 1) s = runUntil step fuel s' := by
  simp [runUntil, h]

theorem exists_runUntil (inv : σ → Prop) (measure : σ → ℕ)
    (hstep : ∀ s s', inv s → step s = some s' → inv s' ∧ measure s' < measure s) {s : σ}
    (hs : inv s) : ∃ fuel result, runUntil step fuel s = some result := by
  induction hn : measure s using Nat.strong_induction_on generalizing s with
  | _ n ih =>
    subst hn
    cases hnext : step s with
    | none => exact ⟨1, s, runUntil_of_none hnext 0⟩
    | some s' =>
      obtain ⟨hs', hlt⟩ := hstep s s' hs hnext
      obtain ⟨fuel, result, hrun⟩ := ih _ hlt hs' rfl
      exact ⟨fuel + 1, result, by rwa [runUntil_of_some hnext]⟩

theorem runUntil_keeps (inv : σ → Prop)
    (hstep : ∀ s s', inv s → step s = some s' → inv s') {fuel : ℕ} {s result : σ} (hs : inv s)
    (h : runUntil step fuel s = some result) : inv result ∧ step result = none := by
  induction fuel generalizing s with
  | zero => cases h
  | succ fuel ih =>
    cases hnext : step s with
    | none =>
      rw [runUntil_of_none hnext] at h
      cases h
      exact ⟨hs, hnext⟩
    | some s' =>
      rw [runUntil_of_some hnext] at h
      exact ih (hstep s s' hs hnext) h

end Iteration

theorem finite_lists_length {α : Type*} {items : Set α} (h : items.Finite) :
    ∀ n : ℕ, {l : List α | l.length = n ∧ ∀ x ∈ l, x ∈ items}.Finite
  | 0 => (Set.finite_singleton []).subset fun l hl => List.length_eq_zero_iff.1 hl.1
  | n + 1 => by
    refine (Set.Finite.image2 List.cons h (finite_lists_length h n)).subset ?_
    rintro (_ | ⟨x, l⟩) ⟨hlen, hits⟩
    · cases hlen
    · exact ⟨x, hits x List.mem_cons_self, l,
        ⟨Nat.succ.inj hlen, fun y hy => hits y (List.mem_cons_of_mem _ hy)⟩, rfl⟩

theorem finite_lists {α : Type*} {items : Set α} (h : items.Finite) (bound : ℕ) :
    {l : List α | l.length ≤ bound ∧ ∀ x ∈ l, x ∈ items}.Finite := by
  refine (Set.Finite.biUnion (Set.finite_le_nat bound) fun n _ => finite_lists_length h n).subset ?_
  rintro l ⟨hlen, hits⟩
  exact Set.mem_biUnion (show l.length ∈ {n | n ≤ bound} from hlen) ⟨rfl, hits⟩

end Grayscale
