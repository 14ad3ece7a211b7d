import Mathlib.Data.List.Nodup
import Mathlib.Logic.Equiv.Basic

/-!
# Sorting in place

A memory of values as a function of the index, the values of a range rearranged, and the order that
a strict weak order gives.
-/

namespace Grayscale

variable {α : Type*}

/-! ### The order -/

/-- The value may stand before the other: it is not greater. -/
def AtMost (less : α → α → Bool) (x y : α) : Prop := less y x = false

section WeakOrder

variable {less : α → α → Bool} [IsStrictWeakOrder α fun x y => less x y = true]

theorem AtMost.refl (x : α) : AtMost less x x :=
  Bool.eq_false_iff.mpr (irrefl_of (fun x y => less x y = true) x)

theorem atMost_of_less {x y : α} (h : less x y = true) : AtMost less x y := by
  refine Bool.eq_false_iff.mpr fun hback => ?_
  exact irrefl_of (fun x y => less x y = true) x (trans_of (fun x y => less x y = true) h hback)

theorem AtMost.trans {x y z : α} (hxy : AtMost less x y) (hyz : AtMost less y z) :
    AtMost less x z := by
  refine Bool.eq_false_iff.mpr fun hzx => ?_
  have hnyx : ¬ less y x = true := Bool.eq_false_iff.mp hxy
  have hnzy : ¬ less z y = true := Bool.eq_false_iff.mp hyz
  have hnxy : ¬ less x y = true := fun h => hnzy (trans_of (fun x y => less x y = true) hzx h)
  have hnyz : ¬ less y z = true := fun h => hnyx (trans_of (fun x y => less x y = true) h hzx)
  exact (@IsStrictWeakOrder.incomp_trans α (fun x y => less x y = true) _ x y z
    ⟨hnxy, hnyx⟩ ⟨hnyz, hnzy⟩).2 hzx

end WeakOrder

/-! ### Rearranged ranges -/

/-- The values from `a` up to `b` are permuted, all others stay. -/
def Rearranged (a b : ℕ) (v v' : ℕ → α) : Prop :=
  ∃ σ : Equiv.Perm ℕ, (∀ i, i < a ∨ b ≤ i → σ i = i) ∧ v' = v ∘ σ

namespace Rearranged

variable {a b : ℕ} {v v' v'' : ℕ → α}

theorem refl (a b : ℕ) (v : ℕ → α) : Rearranged a b v v := ⟨Equiv.refl ℕ, fun _ _ => rfl, rfl⟩

theorem trans (h : Rearranged a b v v') (h' : Rearranged a b v' v'') : Rearranged a b v v'' := by
  obtain ⟨σ, hσ, rfl⟩ := h
  obtain ⟨τ, hτ, rfl⟩ := h'
  refine ⟨τ.trans σ, fun i hi => ?_, rfl⟩
  rw [Equiv.trans_apply, hτ i hi, hσ i hi]

theorem mono (h : Rearranged a b v v') {a' b' : ℕ} (ha : a' ≤ a) (hb : b ≤ b') :
    Rearranged a' b' v v' := by
  obtain ⟨σ, hσ, hv⟩ := h
  exact ⟨σ, fun i hi => hσ i (by omega), hv⟩

theorem swap (v : ℕ → α) {i j : ℕ} (hi : a ≤ i ∧ i < b) (hj : a ≤ j ∧ j < b) :
    Rearranged a b v (v ∘ Equiv.swap i j) :=
  ⟨Equiv.swap i j, fun k hk => Equiv.swap_apply_of_ne_of_ne (by omega) (by omega), rfl⟩

theorem outside (h : Rearranged a b v v') {i : ℕ} (hi : i < a ∨ b ≤ i) : v' i = v i := by
  obtain ⟨σ, hσ, rfl⟩ := h
  rw [Function.comp_apply, hσ i hi]

theorem inside (h : Rearranged a b v v') {i : ℕ} (ha : a ≤ i) (hb : i < b) :
    ∃ k, a ≤ k ∧ k < b ∧ v' i = v k := by
  obtain ⟨σ, hσ, rfl⟩ := h
  refine ⟨σ i, ?_, ?_, rfl⟩ <;>
    · by_contra hout
      have hfix : σ (σ i) = σ i := hσ _ (by omega)
      have := σ.injective hfix
      omega

theorem forall_mem (h : Rearranged a b v v') {P : α → Prop}
    (hP : ∀ k, a ≤ k → k < b → P (v k)) {i : ℕ} (ha : a ≤ i) (hb : i < b) : P (v' i) := by
  obtain ⟨k, hak, hkb, hk⟩ := h.inside ha hb
  exact hk ▸ hP k hak hkb

theorem perm {n : ℕ} (h : Rearranged 0 n v v') :
    ((List.range n).map v').Perm ((List.range n).map v) := by
  obtain ⟨σ, hσ, rfl⟩ := h
  rw [← List.map_map]
  refine List.Perm.map v ((List.perm_ext_iff_of_nodup ?_ List.nodup_range).mpr fun k => ?_)
  · exact List.Nodup.map σ.injective List.nodup_range
  · simp only [List.mem_map, List.mem_range]
    constructor
    · rintro ⟨i, hi, rfl⟩
      by_contra hout
      have hfix := σ.injective (hσ (σ i) (.inr (Nat.le_of_not_lt hout)))
      omega
    · intro hk
      refine ⟨σ.symm k, ?_, σ.apply_symm_apply k⟩
      by_contra hout
      have hfix := hσ _ (.inr (Nat.le_of_not_lt hout))
      rw [σ.apply_symm_apply] at hfix
      omega

end Rearranged

/-! ### Sorted ranges -/

/-- The values from `a` up to `b` are in order. -/
def SortedOn (less : α → α → Bool) (a b : ℕ) (v : ℕ → α) : Prop :=
  ∀ p q, a ≤ p → p < q → q < b → AtMost less (v p) (v q)

variable {less : α → α → Bool}

theorem sortedOn_of_le {a b : ℕ} (h : b ≤ a + 1) (v : ℕ → α) :
    SortedOn less a b v := fun p q hp hpq hq => by omega

theorem SortedOn.congr {a b : ℕ} {v v' : ℕ → α} (h : SortedOn less a b v)
    (heq : ∀ k, a ≤ k → k < b → v' k = v k) : SortedOn less a b v' := by
  intro p q hp hpq hq
  rw [heq p hp (by omega), heq q (by omega) hq]
  exact h p q hp hpq hq

theorem SortedOn.join [IsStrictWeakOrder α fun x y => less x y = true]
    {a m b : ℕ} {v : ℕ → α} (pivot : α) (hleft : SortedOn less a m v)
    (hrgt : SortedOn less m b v) (hlow : ∀ p, a ≤ p → p < m → AtMost less (v p) pivot)
    (hhigh : ∀ q, m ≤ q → q < b → AtMost less pivot (v q)) : SortedOn less a b v := by
  intro p q hp hpq hq
  rcases Nat.lt_or_ge q m with hqm | hqm
  · exact hleft p q hp hpq hqm
  rcases Nat.lt_or_ge p m with hpm | hpm
  · exact (hlow p hp hpm).trans (hhigh q hqm hq)
  · exact hrgt p q hpm hpq hq

end Grayscale
