import Mathlib.Data.List.Basic

/-!
# Agreement of a list

A scan for the one value that all members of a list have, which stops at the first member that
differs from what was found before. What it finds depends on the set of members only.
-/

namespace Grayscale

open List

variable {α : Type*} [DecidableEq α]

/-- The value that the members have in common with `found`, or the first member that differs. -/
def agree : Option α → List α → Option α × Option α
  | found, [] => (found, none)
  | none, x :: l => agree (some x) l
  | some y, x :: l => if x = y then agree (some y) l else (none, some x)

theorem agree_some (y : α) (l : List α) : (∀ x ∈ l, x = y) ∧ agree (some y) l = (some y, none) ∨
      ∃ x ∈ l, x ≠ y ∧ agree (some y) l = (none, some x) := by
  induction l with
  | nil => exact .inl ⟨forall_mem_nil _, rfl⟩
  | cons x l ih =>
    rw [agree]
    by_cases hx : x = y
    · rw [if_pos hx]
      refine ih.imp (fun ⟨hall, heq⟩ => ⟨forall_mem_cons.mpr ⟨hx, hall⟩, heq⟩) ?_
      rintro ⟨z, hz, hne, heq⟩
      exact ⟨z, mem_cons_of_mem x hz, hne, heq⟩
    · rw [if_neg hx]
      exact .inr ⟨x, mem_cons_self .., hx, rfl⟩

theorem agree_cases (l : List α) : l = [] ∧ agree none l = (none, none) ∨
      (∃ y ∈ l, (∀ x ∈ l, x = y) ∧ agree none l = (some y, none)) ∨
      ∃ y ∈ l, ∃ x ∈ l, x ≠ y ∧ agree none l = (none, some x) := by
  cases l with
  | nil => exact .inl ⟨rfl, rfl⟩
  | cons y l =>
    rw [agree]
    rcases agree_some y l with ⟨hall, heq⟩ | ⟨x, hx, hne, heq⟩
    · exact .inr (.inl ⟨y, mem_cons_self .., forall_mem_cons.mpr ⟨rfl, hall⟩, heq⟩)
    · exact .inr (.inr ⟨y, mem_cons_self .., x, mem_cons_of_mem y hx, hne, heq⟩)

theorem agree_eq_some_iff {l : List α} {y : α} :
    (agree none l).1 = some y ↔ y ∈ l ∧ ∀ x ∈ l, x = y := by
  rcases agree_cases l with ⟨rfl, heq⟩ | ⟨z, hz, hall, heq⟩ | ⟨z, hz, x, hx, hne, heq⟩
  · simp [heq]
  · rw [heq, Option.some_inj]
    constructor
    · rintro rfl
      exact ⟨hz, hall⟩
    · exact fun h => h.2 z hz
  · rw [heq]
    refine ⟨nofun, fun h => absurd ((h.2 x hx).trans (h.2 z hz).symm) hne⟩

theorem agree_conflict_iff {l : List α} : (agree none l).2.isSome ↔ ∃ x ∈ l, ∃ y ∈ l, x ≠ y := by
  rcases agree_cases l with ⟨rfl, heq⟩ | ⟨z, hz, hall, heq⟩ | ⟨z, hz, x, hx, hne, heq⟩
  · simp [heq]
  · rw [heq]
    refine ⟨nofun, ?_⟩
    rintro ⟨x, hx, y, hy, hne⟩
    exact absurd ((hall x hx).trans (hall y hy).symm) hne
  · rw [heq]
    exact ⟨fun _ => ⟨x, hx, z, hz, hne⟩, fun _ => rfl⟩

theorem agree_congr {l m : List α} (h : ∀ x, x ∈ l ↔ x ∈ m) : (agree none l).1 = (agree none m).1 ∧
      (agree none l).2.isSome = (agree none m).2.isSome := by
  constructor
  · refine Option.ext fun y => ?_
    rw [agree_eq_some_iff, agree_eq_some_iff]
    simp only [h]
  · rw [Bool.eq_iff_iff, agree_conflict_iff, agree_conflict_iff]
    simp only [h]

end Grayscale
