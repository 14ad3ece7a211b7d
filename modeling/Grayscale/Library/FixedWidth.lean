import Mathlib.Data.Int.ModEq
import Mathlib.Tactic.Linarith
import Mathlib.Tactic.Ring

/-!
# Integers of a fixed width

The integers of a two's complement or unsigned format, and the arithmetic that wraps around.
-/

namespace Grayscale

structure IntFormat where
  bits : ℕ
  signed : Bool
  bits_pos : 0 < bits
  deriving DecidableEq

namespace IntFormat

variable (T : IntFormat)

/-- The number of integers of a format. -/
def size : ℤ := 2 ^ T.bits

/-- The least integer of a format. -/
def min : ℤ := if T.signed then -(2 ^ (T.bits - 1)) else 0

/-- The integer `n` is one of the format. -/
def Contains (n : ℤ) : Prop := T.min ≤ n ∧ n < T.min + T.size

instance (n : ℤ) : Decidable (T.Contains n) := inferInstanceAs (Decidable (_ ∧ _))

/-- The integers of a format. -/
abbrev Value : Type := {n : ℤ // T.Contains n}

theorem size_pos : 0 < T.size := Int.pow_pos (by decide)

theorem min_of_unsigned (h : T.signed = false) : T.min = 0 := by
  simp [min, h]

theorem two_mul_min (h : T.signed = true) : 2 * T.min = -T.size := by
  have hbits : T.size = 2 ^ (T.bits - 1) * 2 := by
    rw [size, ← pow_succ, Nat.sub_add_cancel T.bits_pos]
  rw [min, if_pos h, hbits]
  ring

theorem min_le_zero : T.min ≤ 0 := by
  cases h : T.signed with
  | false => rw [min_of_unsigned T h]
  | true =>
    have := two_mul_min T h
    have := T.size_pos
    omega

theorem contains_zero : T.Contains 0 := by
  refine ⟨T.min_le_zero, ?_⟩
  cases h : T.signed with
  | false => rw [min_of_unsigned T h, zero_add]; exact T.size_pos
  | true =>
    have := two_mul_min T h
    have := T.size_pos
    omega

/-- The integer of the format congruent to `n` modulo its size. -/
def wrap (n : ℤ) : T.Value where
  val := T.min + (n - T.min) % T.size
  property := by
    have hnonneg := Int.emod_nonneg (n - T.min) T.size_pos.ne'
    have hlt := Int.emod_lt_of_pos (n - T.min) T.size_pos
    exact ⟨by omega, by omega⟩

theorem wrap_val (n : ℤ) : (T.wrap n).1 = T.min + (n - T.min) % T.size := rfl

variable {n : ℤ}

theorem wrap_of_contains (h : T.Contains n) : T.wrap n = ⟨n, h⟩ := by
  obtain ⟨hmin, hmax⟩ := h
  apply Subtype.ext
  rw [wrap_val, Int.emod_eq_of_lt (by omega) (by omega)]
  exact add_sub_cancel _ _

theorem wrap_of_ge (hlow : T.min + T.size ≤ n) (hhigh : n < T.min + 2 * T.size) :
    (T.wrap n).1 = n - T.size := by
  have hmod : (n - T.min) % T.size = (n - T.min - T.size) % T.size := by
    rw [Int.sub_emod_right]
  rw [wrap_val, hmod, Int.emod_eq_of_lt (by omega) (by omega)]
  omega

theorem wrap_of_lt (hlow : T.min - T.size ≤ n) (hhigh : n < T.min) : (T.wrap n).1 = n + T.size := by
  have hmod : (n - T.min) % T.size = (n - T.min + T.size) % T.size := by
    rw [Int.add_emod_right]
  rw [wrap_val, hmod, Int.emod_eq_of_lt (by omega) (by omega)]
  omega

/-! ### Congruence -/

theorem wrap_modEq (n : ℤ) : (T.wrap n).1 ≡ n [ZMOD T.size] := by
  have h : T.min + (n - T.min) % T.size ≡ T.min + (n - T.min) [ZMOD T.size] :=
    (Int.ModEq.refl _).add (Int.mod_modEq _ _)
  rwa [add_sub_cancel] at h

theorem wrap_congr {m n : ℤ} (h : m ≡ n [ZMOD T.size]) : T.wrap m = T.wrap n := by
  apply Subtype.ext
  rw [wrap_val, wrap_val, (h.sub_right T.min : _ % _ = _ % _)]

variable {T}

theorem wrap_val_of_contains (h : T.Contains n) : (T.wrap n).1 = n := by
  rw [T.wrap_of_contains h]

/-! ### Tests for overflow -/

theorem contains_add_iff (hsig : T.signed = true) {m n : ℤ} (hm : T.Contains m)
    (hn : T.Contains n) : T.Contains (m + n) ↔ ¬ (0 ≤ m ∧ 0 ≤ n ∧ (T.wrap (m + n)).1 < 0 ∨
      m < 0 ∧ n < 0 ∧ 0 ≤ (T.wrap (m + n)).1) := by
  have hmin := T.two_mul_min hsig
  obtain ⟨hm₁, hm₂⟩ := hm
  obtain ⟨hn₁, hn₂⟩ := hn
  by_cases h : T.Contains (m + n)
  · rw [wrap_val_of_contains h]
    exact iff_of_true h (by rintro (⟨_, _, _⟩ | ⟨_, _, _⟩) <;> omega)
  · refine iff_of_false h (not_not.mpr ?_)
    rcases not_and_or.mp h with hlow | hhigh
    · rw [T.wrap_of_lt (by omega) (by omega)]
      exact .inr ⟨by omega, by omega, by omega⟩
    · rw [T.wrap_of_ge (by omega) (by omega)]
      exact .inl ⟨by omega, by omega, by omega⟩

theorem contains_sub_iff (hsig : T.signed = true) {m n : ℤ} (hm : T.Contains m)
    (hn : T.Contains n) : T.Contains (m - n) ↔ ¬ (0 ≤ m ∧ n < 0 ∧ (T.wrap (m - n)).1 < 0 ∨
      m < 0 ∧ 0 ≤ n ∧ 0 ≤ (T.wrap (m - n)).1) := by
  have hmin := T.two_mul_min hsig
  obtain ⟨hm₁, hm₂⟩ := hm
  obtain ⟨hn₁, hn₂⟩ := hn
  by_cases h : T.Contains (m - n)
  · rw [wrap_val_of_contains h]
    exact iff_of_true h (by rintro (⟨_, _, _⟩ | ⟨_, _, _⟩) <;> omega)
  · refine iff_of_false h (not_not.mpr ?_)
    rcases not_and_or.mp h with hlow | hhigh
    · rw [T.wrap_of_lt (by omega) (by omega)]
      exact .inr ⟨by omega, by omega, by omega⟩
    · rw [T.wrap_of_ge (by omega) (by omega)]
      exact .inl ⟨by omega, by omega, by omega⟩

theorem contains_add_iff_of_unsigned (hsig : T.signed = false) {m n : ℤ} (hm : T.Contains m)
    (hn : T.Contains n) : T.Contains (m + n) ↔ ¬ (T.wrap (m + n)).1 < m := by
  have hmin := T.min_of_unsigned hsig
  obtain ⟨hm₁, hm₂⟩ := hm
  obtain ⟨hn₁, hn₂⟩ := hn
  by_cases h : T.Contains (m + n)
  · rw [wrap_val_of_contains h]
    exact iff_of_true h (by omega)
  · rcases not_and_or.mp h with hlow | hhigh
    · omega
    · rw [T.wrap_of_ge (by omega) (by omega)]
      exact iff_of_false h (by omega)

theorem contains_sub_iff_of_unsigned (hsig : T.signed = false) {m n : ℤ} (hm : T.Contains m)
    (hn : T.Contains n) : T.Contains (m - n) ↔ ¬ m < n := by
  have hmin := T.min_of_unsigned hsig
  obtain ⟨hm₁, hm₂⟩ := hm
  obtain ⟨hn₁, hn₂⟩ := hn
  exact ⟨fun h => by have := h.1; omega, fun h => ⟨by omega, by omega⟩⟩

theorem contains_mul_iff_of_unsigned (hsig : T.signed = false) {m n : ℤ} (hm : T.Contains m)
    (hn : T.Contains n) (hzero : n ≠ 0) : T.Contains (m * n) ↔ (T.wrap (m * n)).1.tdiv n = m := by
  have hmin := T.min_of_unsigned hsig
  have hn₁ := hn.1
  have hm₁ := hm.1
  constructor
  · intro h
    rw [wrap_val_of_contains h]
    exact Int.mul_tdiv_cancel m hzero
  · intro h
    have hwrap := (T.wrap (m * n)).2
    have hnn : 0 ≤ (T.wrap (m * n)).1 := hmin ▸ hwrap.1
    have hle : m * n ≤ (T.wrap (m * n)).1 := by
      rw [Int.tdiv_eq_ediv_of_nonneg hnn] at h
      have := Int.ediv_mul_le (T.wrap (m * n)).1 hzero
      rwa [h] at this
    have hprod : 0 ≤ m * n := mul_nonneg (hmin ▸ hm₁) (hmin ▸ hn₁)
    exact ⟨by omega, lt_of_le_of_lt hle hwrap.2⟩

theorem contains_tdiv (hsig : T.signed = true) {m n : ℤ} (hm : T.Contains m)
    (h : ¬ (m = T.min ∧ n = -1)) : T.Contains (m.tdiv n) := by
  have hmin := T.two_mul_min hsig
  have hpos := T.size_pos
  obtain ⟨hm₁, hm₂⟩ := hm
  have habs : (m.tdiv n).natAbs = m.natAbs / n.natAbs := Int.natAbs_tdiv m n
  have hle : (m.tdiv n).natAbs ≤ m.natAbs := habs ▸ Nat.div_le_self _ _
  by_cases hone : n.natAbs ≤ 1
  · rcases (show n = 0 ∨ n = 1 ∨ n = -1 by omega) with rfl | rfl | rfl
    · rw [Int.tdiv_zero]
      exact T.contains_zero
    · rw [Int.tdiv_one]
      exact ⟨hm₁, hm₂⟩
    · rw [Int.tdiv_neg, Int.tdiv_one]
      exact ⟨by omega, by omega⟩
  · have hhalf : 2 * (m.tdiv n).natAbs ≤ m.natAbs := by
      rw [habs]
      have := Nat.div_le_div_left (show 2 ≤ n.natAbs by omega) (by decide) (a := m.natAbs)
      omega
    exact ⟨by omega, by omega⟩

/-- A wrapped product of a signed format divides back if it did not wrap, and for the least integer
by minus one. -/
theorem contains_mul_iff (hsig : T.signed = true) {m n : ℤ} (hm : T.Contains m)
    (hn : T.Contains n) (hzero : n ≠ 0) : (T.wrap ((T.wrap (m * n)).1.tdiv n)).1 = m ↔
      T.Contains (m * n) ∨ m = T.min ∧ n = -1 := by
  have hmin := T.two_mul_min hsig
  have hpos := T.size_pos
  constructor
  · intro h
    by_cases hleast : (T.wrap (m * n)).1 = T.min ∧ n = -1
    · right
      rw [hleast.1, hleast.2, Int.tdiv_neg, Int.tdiv_one] at h
      rw [T.wrap_of_ge (by omega) (by omega)] at h
      exact ⟨by omega, hleast.2⟩
    · left
      rw [wrap_val_of_contains (contains_tdiv hsig (T.wrap (m * n)).2 hleast)] at h
      have hspl := Int.mul_tdiv_add_tmod (T.wrap (m * n)).1 n
      rw [h, mul_comm] at hspl
      -- the remainder is a multiple of the size and less than half of it
      have hdvd : T.size ∣ (T.wrap (m * n)).1.tmod n := by
        have := (T.wrap_modEq (m * n)).symm.dvd
        rwa [← hspl, add_sub_cancel_left] at this
      have hlt : ((T.wrap (m * n)).1.tmod n).natAbs < n.natAbs := by
        rw [Int.natAbs_tmod]
        exact Nat.mod_lt _ (Int.natAbs_pos.mpr hzero)
      have hn₁ := hn.1
      have hn₂ := hn.2
      have hrest : (T.wrap (m * n)).1.tmod n = 0 :=
        Int.eq_zero_of_abs_lt_dvd hdvd (by rw [Int.abs_eq_natAbs]; omega)
      rw [hrest, add_zero] at hspl
      rw [hspl]
      exact (T.wrap (m * n)).2
  · rintro (h | ⟨rfl, rfl⟩)
    · rw [wrap_val_of_contains h, Int.mul_tdiv_cancel m hzero, wrap_val_of_contains hm]
    · have hwrap : (T.wrap (-T.min)).1 = T.min := by
        rw [T.wrap_of_ge (by omega) (by omega)]
        omega
      rw [mul_neg_one, hwrap, Int.tdiv_neg, Int.tdiv_one, hwrap]

end IntFormat

end Grayscale
