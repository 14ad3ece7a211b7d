import Mathlib.Algebra.Order.Ring.Int
import Mathlib.Data.List.Basic

/-!
# Repetition

A relation repeated between a minimum and a maximum of times, and the ends of the repetitions in
the order in which a greedy search with backtracking finds them.
-/

namespace Grayscale.Repetition

variable {α : Type}

/-- That many steps of a relation. -/
inductive Steps (R : α → α → Prop) : ℕ → α → α → Prop
  | zero (s : α) : Steps R 0 s s
  | succ {n : ℕ} {s u t : α} (hstep : R s u) (hrest : Steps R n u t) : Steps R (n + 1) s t

/-- A number of steps between the bounds; a negative maximum is no bound. -/
def Repeats (R : α → α → Prop) (minimum : ℕ) (maximum : ℤ) (s t : α) : Prop :=
  ∃ n : ℕ, minimum ≤ n ∧ (maximum < 0 ∨ (n : ℤ) ≤ maximum) ∧ Steps R n s t

section Steps

variable {R R' : α → α → Prop} {s u t : α} {m n : ℕ}

theorem Steps.trans (h : Steps R m s u) (h' : Steps R n u t) : Steps R (m + n) s t := by
  induction h with
  | zero s => rwa [Nat.zero_add]
  | succ hstep _ ih =>
    rw [Nat.add_right_comm]
    exact .succ hstep (ih h')

theorem steps_self (h : R s s) (n : ℕ) : Steps R n s s := by
  induction n with
  | zero => exact .zero s
  | succ n ih => exact .succ h ih

theorem repeats_one_iff : Repeats R 1 1 s t ↔ R s t := by
  constructor
  · rintro ⟨n, hlow, hhigh, hsts⟩
    obtain rfl : n = 1 := by omega
    cases hsts with
    | succ hstep hrest =>
      cases hrest
      exact hstep
  · exact fun h => ⟨1, le_rfl, .inr le_rfl, .succ h (.zero t)⟩

end Steps

section Ends

variable [DecidableEq α] {one : α → List α}

/-- The ends of the repetitions, those of more steps first. A step on the spot stands for as many of
them as are wanted. -/
def repeatEnds (one : α → List α) : ℕ → ℕ → ℤ → α → List α
  | 0, _, _, _ => []
  | fuel + 1, minimum, maximum, s =>
    let wanted := if s ∈ one s then 0 else minimum
    (if maximum = 0 then []
      else ((one s).filter (· ≠ s)).flatMap (repeatEnds one fuel (wanted - 1) (maximum - 1))) ++
    if wanted = 0 then [s] else []

theorem mem_repeatEnds_succ {fuel minimum : ℕ} {maximum : ℤ} {s t : α} :
    t ∈ repeatEnds one (fuel + 1) minimum maximum s ↔
      (maximum ≠ 0 ∧ ∃ u ∈ one s, u ≠ s ∧ t ∈ repeatEnds one fuel
        ((if s ∈ one s then 0 else minimum) - 1) (maximum - 1) u) ∨
      (s ∈ one s ∨ minimum = 0) ∧ t = s := by
  rw [repeatEnds, List.mem_append]
  refine or_congr ?_ ?_
  · by_cases hmax : maximum = 0
    · simp [hmax]
    · simp [hmax, and_assoc]
  · by_cases hself : s ∈ one s
    · simp [hself]
    · by_cases hminimum : minimum = 0 <;> simp [hself, hminimum]

theorem mem_repeatEnds_iff (size : α → ℕ) (hsize : ∀ u, ∀ v ∈ one u, v ≠ u → size v < size u)
    {fuel minimum : ℕ} {maximum : ℤ} {s t : α} (hfuel : size s < fuel)
    (hbnd : maximum < 0 ∨ (minimum : ℤ) ≤ maximum) : t ∈ repeatEnds one fuel minimum maximum s ↔
      Repeats (fun u v => v ∈ one u) minimum maximum s t := by
  constructor
  · intro h
    induction fuel generalizing s minimum maximum with
    | zero => omega
    | succ fuel ih =>
      rcases mem_repeatEnds_succ.mp h with ⟨hmax, u, hu, hne, ht⟩ | ⟨hstop, rfl⟩
      · have hless := hsize s u hu hne
        obtain ⟨n, hlow, hhigh, hsts⟩ := ih (by omega) (by split_ifs <;> omega) ht
        by_cases hself : s ∈ one s
        · -- Steps on the spot fill up to the minimum.
          refine ⟨minimum - (n + 1) + (n + 1), by omega, by omega, ?_⟩
          exact (steps_self hself _).trans (.succ hu hsts)
        · rw [if_neg hself] at hlow
          exact ⟨n + 1, by omega, by omega, .succ hu hsts⟩
      · rcases hstop with hself | rfl
        · exact ⟨minimum, le_rfl, hbnd, steps_self hself _⟩
        · exact ⟨0, le_rfl, hbnd.imp_right id, .zero t⟩
  · rintro ⟨n, hlow, hhigh, hsts⟩
    -- Induction on the steps; those on the spot are left out.
    induction hsts generalizing fuel minimum maximum with
    | zero s =>
      obtain ⟨fuel, rfl⟩ := Nat.exists_eq_add_of_lt hfuel
      exact mem_repeatEnds_succ.mpr (.inr ⟨.inr (by omega), rfl⟩)
    | @succ n s u t hstep hrest ih =>
      obtain ⟨fuel, rfl⟩ := Nat.exists_eq_add_of_lt hfuel
      by_cases hu : u = s
      · subst hu
        have hless : t ∈ repeatEnds one (size u + fuel + 1) 0 maximum u :=
          ih hfuel (by omega) (Nat.zero_le _) (by omega)
        rw [mem_repeatEnds_succ] at hless ⊢
        simp only [hstep, if_true, true_or, true_and] at hless ⊢
        exact hless
      · have hless := hsize s u hstep hu
        refine mem_repeatEnds_succ.mpr (.inl ⟨by omega, u, hstep, hu, ?_⟩)
        exact ih (by omega) (by split_ifs <;> omega) (by split_ifs <;> omega) (by omega)

end Ends

end Grayscale.Repetition
