import Mathlib.Data.Nat.Bitwise
import Mathlib.Tactic.Ring

/-!
# Long division in base two

The division that brings the bits of the dividend in one by one, from the highest on, and takes the
divisor off the remainder where it fits.
-/

namespace Grayscale.LongDivision

/-- One round: the next bit of the dividend comes in, and the divisor is taken off if it fits. -/
def round (dividend divisor bit : ℕ) (s : ℕ × ℕ) : ℕ × ℕ :=
  let next := 2 * s.2 + (dividend.testBit bit).toNat
  if divisor ≤ next then (s.1 + 2 ^ bit, next - divisor) else (s.1, next)

/-- A quotient and a remainder once the dividend has been seen down to bit `bit`. -/
structure DividesTo (dividend divisor bit : ℕ) (s : ℕ × ℕ) : Prop where
  quotient : s.1 = dividend / 2 ^ bit / divisor * 2 ^ bit
  remainder : s.2 = dividend / 2 ^ bit % divisor

variable {dividend divisor bit : ℕ} {s : ℕ × ℕ}

theorem div_two_pow (dividend bit : ℕ) :
    dividend / 2 ^ bit = 2 * (dividend / 2 ^ (bit + 1)) + (dividend.testBit bit).toNat := by
  rw [Nat.toNat_testBit, Nat.pow_succ, ← Nat.div_div_eq_div_mul]
  omega

theorem round_of_le (h : divisor ≤ 2 * s.2 + (dividend.testBit bit).toNat) :
    round dividend divisor bit s =
      (s.1 + 2 ^ bit, 2 * s.2 + (dividend.testBit bit).toNat - divisor) := if_pos h

theorem round_of_not_le (h : ¬ divisor ≤ 2 * s.2 + (dividend.testBit bit).toNat) :
    round dividend divisor bit s = (s.1, 2 * s.2 + (dividend.testBit bit).toNat) := if_neg h

namespace DividesTo

theorem start {bits : ℕ} (h : dividend < 2 ^ bits) : DividesTo dividend divisor bits (0, 0) := by
  constructor
  · rw [Nat.div_eq_of_lt h, Nat.zero_div, Nat.zero_mul]
  · rw [Nat.div_eq_of_lt h, Nat.zero_mod]

theorem quotient_mod (h : DividesTo dividend divisor (bit + 1) s) : s.1 % 2 ^ (bit + 1) = 0 := by
  rw [h.quotient, Nat.mul_mod_left]

theorem next_le (h : DividesTo dividend divisor (bit + 1) s) :
    2 * s.2 + (dividend.testBit bit).toNat ≤ dividend / 2 ^ bit := by
  have hle : s.2 ≤ dividend / 2 ^ (bit + 1) := h.remainder ▸ Nat.mod_le _ _
  rw [div_two_pow]
  omega

theorem round (h : DividesTo dividend divisor (bit + 1) s) (hpos : 0 < divisor) :
    DividesTo dividend divisor bit (round dividend divisor bit s) := by
  have hlt : s.2 < divisor := h.remainder ▸ Nat.mod_lt _ hpos
  have hbit : (dividend.testBit bit).toNat ≤ 1 := Bool.toNat_le _
  have hdivide : dividend / 2 ^ bit = divisor * (2 * (dividend / 2 ^ (bit + 1) / divisor)) +
      (2 * s.2 + (dividend.testBit bit).toNat) := by
    have hmod := Nat.div_add_mod (dividend / 2 ^ (bit + 1)) divisor
    rw [← h.remainder] at hmod
    rw [div_two_pow, ← hmod, Nat.mul_add_div hpos, Nat.div_eq_of_lt hlt, Nat.add_zero]
    ring
  have hnext : 2 * s.2 + (dividend.testBit bit).toNat < 2 * divisor := by omega
  by_cases hge : divisor ≤ 2 * s.2 + (dividend.testBit bit).toNat
  · rw [round_of_le hge]
    generalize 2 * s.2 + (dividend.testBit bit).toNat = next at *
    have hrest : next - divisor < divisor := by omega
    have hdivided : dividend / 2 ^ bit = divisor *
        (2 * (dividend / 2 ^ (bit + 1) / divisor) + 1) + (next - divisor) := by
      rw [hdivide, Nat.mul_succ]
      omega
    constructor
    · rw [h.quotient, hdivided, Nat.mul_add_div hpos, Nat.div_eq_of_lt hrest, Nat.pow_succ]
      ring
    · rw [hdivided, Nat.mul_add_mod, Nat.mod_eq_of_lt hrest]
  · rw [round_of_not_le hge]
    generalize 2 * s.2 + (dividend.testBit bit).toNat = next at *
    have hrest : next < divisor := by omega
    constructor
    · rw [h.quotient, hdivide, Nat.mul_add_div hpos, Nat.div_eq_of_lt hrest, Nat.pow_succ]
      ring
    · rw [hdivide, Nat.mul_add_mod, Nat.mod_eq_of_lt hrest]

end DividesTo

/-- The rounds of a program: the bits are counted down. -/
def loop {σ : Type*} (step : ℕ → σ → σ) : ℕ → σ → σ
  | 0, s => s
  | bit + 1, s => loop step bit (step bit s)

theorem DividesTo.rounds {σ : Type*} {view : σ → ℕ × ℕ} {step : ℕ → σ → σ} {bits : ℕ}
    (hpos : 0 < divisor)
    (hstep : ∀ bit < bits, ∀ s, DividesTo dividend divisor (bit + 1) (view s) →
      view (step bit s) = LongDivision.round dividend divisor bit (view s))
    (bit rounds : ℕ) (hbits : rounds + bit ≤ bits) {s : σ}
    (h : DividesTo dividend divisor (rounds + bit) (view s)) : DividesTo dividend divisor bit
      (view (LongDivision.loop (fun b => step (b + bit)) rounds s)) := by
  induction rounds generalizing s with
  | zero => rwa [Nat.zero_add] at h
  | succ rounds ih =>
    rw [Nat.succ_add] at h
    refine ih (by omega) ?_
    rw [hstep (rounds + bit) (by omega) s h]
    exact h.round hpos

theorem DividesTo.loop {σ : Type*} {view : σ → ℕ × ℕ} {step : ℕ → σ → σ} {bits : ℕ}
    (hpos : 0 < divisor)
    (hstep : ∀ bit < bits, ∀ s, DividesTo dividend divisor (bit + 1) (view s) →
      view (step bit s) = LongDivision.round dividend divisor bit (view s))
    {s : σ} (h : DividesTo dividend divisor bits (view s)) :
    view (loop step bits s) = (dividend / divisor, dividend % divisor) := by
  have hend := DividesTo.rounds hpos hstep 0 bits le_rfl h
  have hquot := hend.quotient
  have hrem := hend.remainder
  rw [Nat.pow_zero, Nat.div_one, Nat.mul_one] at hquot
  rw [Nat.pow_zero, Nat.div_one] at hrem
  exact Prod.ext hquot hrem

end Grayscale.LongDivision
