import Mathlib.Data.Fintype.Card

/-!
# Descent with labels

A recursion whose arguments get shorter, except where it starts again at a label, ends if the labels
go down. On finitely many labels it is enough that none of them comes back to itself.
-/

namespace Grayscale

section Descent

variable {α : Type*} {r : α → α → Prop}

theorem not_transGen_self {a : α} (h : Acc r a) : ¬ Relation.TransGen r a a := by
  have htrans := h.transGen
  clear h
  induction htrans with
  | intro a _ ih => exact fun hself => ih a hself hself

theorem acc_of_smaller (size : α → ℕ) (P : α → Prop)
    (hstep : ∀ a b, P a → r b a → (P b ∧ size b < size a) ∨ Acc r b) {a : α} (ha : P a) :
    Acc r a := by
  induction hsize : size a using Nat.strong_induction_on generalizing a with
  | _ n ih =>
    subst hsize
    refine ⟨a, fun b hb => ?_⟩
    rcases hstep a b ha hb with ⟨hP, hlt⟩ | hacc
    · exact ih (size b) hlt hP rfl
    · exact hacc

theorem acc_of_labels {ι : Type*} {lt : ι → ι → Prop} (hlt : WellFounded lt) (size : α → ℕ)
    (holds : ι → α → Prop)
    (hstep : ∀ i a b, holds i a → r b a →
      (holds i b ∧ size b < size a) ∨ ∃ j, lt j i ∧ holds j b) {i : ι} {a : α} (ha : holds i a) :
    Acc r a := by
  induction i using hlt.induction generalizing a with
  | _ i ih =>
    refine acc_of_smaller size (holds i) (fun a b ha hb => ?_) ha
    rcases hstep i a b ha hb with hless | ⟨j, hj, hb⟩
    · exact .inl hless
    · exact .inr (ih j hj hb)

end Descent

theorem wellFounded_of_acyclic {ι : Type*} [Finite ι] {r : ι → ι → Prop}
    (h : ∀ i, ¬ Relation.TransGen r i i) : WellFounded (flip (Relation.TransGen r)) := by
  have htrans : IsTrans ι (flip (Relation.TransGen r)) := ⟨fun _ _ _ hab hbc => hbc.trans hab⟩
  have hirrefl : Std.Irrefl (flip (Relation.TransGen r)) := ⟨fun i hi => h i hi⟩
  exact Finite.wellFounded_of_trans_of_irrefl _

end Grayscale
