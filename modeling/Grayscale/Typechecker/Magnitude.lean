import Grayscale.Library.Limbs
import Mathlib.Data.Nat.Size

/-!
# Magnitudes of folded literals

The type checker folds number literals on magnitudes of ten 32-bit limbs. This file has the
`magnitude_` functions and what each of them computes.
-/

namespace Grayscale

open Limbs List
open Nat (div_eq_of_lt eq_of_testBit_eq lt_size mod_eq_of_lt mod_lt mul_succ mul_zero
  pow_le_pow_right size_le testBit_lt_two_pow testBit_mod_two_pow testBit_or two_pow_pos
  zero_testBit)

def literalLimbs : ℕ := 10

/-- The number of bits of a magnitude. -/
def literalBits : ℕ := literalLimbs * 32

/-- A magnitude: limbs of 32 bits, the lowest first. -/
structure Magnitude where
  limbs : List ℕ
  length_eq : limbs.length = literalLimbs
  fits : Fits 32 limbs

def Magnitude.toNat (m : Magnitude) : ℕ := number 32 m.limbs

/-- One limb of a magnitude; zero past the end. -/
def Magnitude.limb (m : Magnitude) (i : ℕ) : ℕ := m.limbs.getD i 0

/-- The magnitude whose limbs are `f i` as `uint32_t`. -/
def Magnitude.ofLimbs (f : ℕ → ℕ) : Magnitude where
  limbs := (List.range literalLimbs).map fun i => f i % 2 ^ 32
  length_eq := by rw [length_map, length_range]
  fits := by
    intro d hd
    obtain ⟨i, -, rfl⟩ := mem_map.mp hd
    exact mod_lt _ (two_pow_pos 32)

def Magnitude.zero : Magnitude := .ofLimbs fun _ => 0

def Magnitude.single (value : ℕ) : Magnitude := .ofLimbs fun i => if i = 0 then value else 0

/-! ### The functions -/

def magnitudeIsZero (magnitude : Magnitude) : Bool := magnitude.limbs.all (· == 0)

/-- `magnitude_compare`: one, zero or minus one. -/
def magnitudeCompare (left right : Magnitude) : ℤ :=
  compareHigh left.limbs.reverse right.limbs.reverse

/-- The highest set bit among the lowest `bits` bits of a limb, counted from one. -/
def limbBitLength (limb : ℕ) : ℕ → ℕ
  | 0 => 0
  | bits + 1 => if limb.testBit bits then bits + 1 else limbBitLength limb bits

/-- The bit length of limbs that are given from the highest down. -/
def bitLengthHigh : List ℕ → ℕ
  | [] => 0
  | limb :: l => if limb = 0 then bitLengthHigh l else l.length * 32 + limbBitLength limb 32

def magnitudeBitLength (magnitude : Magnitude) : ℕ := bitLengthHigh magnitude.limbs.reverse

/-- `magnitude_add`: the sum, and whether it fits. -/
def magnitudeAdd (accumulator addend : Magnitude) : Magnitude × Bool :=
  (⟨(addCarry 32 accumulator.limbs addend.limbs 0).1,
    (addCarry_length (accumulator.length_eq.trans addend.length_eq.symm) 0).trans
      accumulator.length_eq, fits_addCarry _ _ 0⟩,
    (addCarry 32 accumulator.limbs addend.limbs 0).2 == 0)

def magnitudeSubtract (accumulator subtrahend : Magnitude) : Magnitude :=
  ⟨(subBorrow 32 accumulator.limbs subtrahend.limbs 0).1,
    (subBorrow_length (accumulator.length_eq.trans subtrahend.length_eq.symm) 0).trans
      accumulator.length_eq, fits_subBorrow accumulator.fits subtrahend.fits (Nat.zero_le 1)⟩

def productLimbs (left right : Magnitude) : List ℕ :=
  mulRows 32 left.limbs right.limbs Magnitude.zero.limbs

theorem productLimbs_length (left right : Magnitude) :
    (productLimbs left right).length = literalLimbs + literalLimbs := by
  rw [productLimbs, mulRows_length _ (right.length_eq.trans Magnitude.zero.length_eq.symm),
    left.length_eq, Magnitude.zero.length_eq]

theorem fits_productLimbs (left right : Magnitude) : Fits 32 (productLimbs left right) :=
  fits_mulRows left.fits right.fits Magnitude.zero.fits

/-- `magnitude_multiply`: the product, when it fits. -/
def magnitudeMultiply (left right : Magnitude) : Option Magnitude :=
  if ((productLimbs left right).drop literalLimbs).all (· == 0) then
    some ⟨(productLimbs left right).take literalLimbs, by
      rw [length_take, productLimbs_length]
      omega, fun d hd => fits_productLimbs left right d (mem_of_mem_take hd)⟩
  else none

/-- `magnitude_shift_left`: the shifted magnitude, unless a set bit is shifted out. -/
def magnitudeShiftLeft (magnitude : Magnitude) (bits : ℕ) : Option Magnitude :=
  if magnitudeIsZero magnitude then some magnitude
  else if bits ≥ literalBits ∨ magnitudeBitLength magnitude + bits > literalBits then none
  else
    let limbs := bits / 32
    let rest := bits % 32
    some (.ofLimbs fun i =>
      let high := if i ≥ limbs then magnitude.limb (i - limbs) else 0
      let limbValue := if i ≥ limbs + 1 then magnitude.limb (i - limbs - 1) else 0
      if rest ≠ 0 then high <<< rest ||| limbValue >>> (32 - rest) else high)

/-- `magnitude_shift_right`: the shifted magnitude, and whether a set bit is shifted out. -/
def magnitudeShiftRight (magnitude : Magnitude) (bits : ℕ) : Magnitude × Bool :=
  if bits ≥ literalBits then (.zero, !magnitudeIsZero magnitude)
  else
    let limbs := bits / 32
    let rest := bits % 32
    let lost := (List.range limbs).any (fun i => magnitude.limb i != 0) ||
      (rest != 0 && magnitude.limb limbs &&& (1 <<< rest - 1) != 0)
    (.ofLimbs fun i =>
      let limbValue := if i + limbs < literalLimbs then magnitude.limb (i + limbs) else 0
      let high := if i + limbs + 1 < literalLimbs then magnitude.limb (i + limbs + 1) else 0
      if rest ≠ 0 then limbValue >>> rest ||| high <<< (32 - rest) else limbValue, lost)

/-- Set one bit: `limbs[bit / 32] |= 1 << (bit % 32)`. -/
def Magnitude.setBit (m : Magnitude) (bit : ℕ) : Magnitude :=
  .ofLimbs fun i => if i = bit / 32 then m.limb i ||| 1 <<< (bit % 32) else m.limb i

/-- One round of the loop of `magnitude_divide`. -/
def divideStep (dividend divisor : Magnitude) (bit : ℕ) (s : Magnitude × Magnitude) :
    Magnitude × Magnitude :=
  let remainder := (magnitudeShiftLeft s.2 1).getD s.2
  let remainder := if (dividend.limb (bit / 32)).testBit (bit % 32) then remainder.setBit 0
    else remainder
  if magnitudeCompare remainder divisor ≥ 0 then
    (s.1.setBit bit, magnitudeSubtract remainder divisor)
  else (s.1, remainder)

/-- The loop of `magnitude_divide`, over the lowest `bits` bits of the dividend. -/
def divideLoop (dividend divisor : Magnitude) : ℕ → Magnitude × Magnitude → Magnitude × Magnitude
  | 0, s => s
  | bit + 1, s => divideLoop dividend divisor bit (divideStep dividend divisor bit s)

/-- `magnitude_divide`: the quotient and the remainder. -/
def magnitudeDivide (dividend divisor : Magnitude) : Magnitude × Magnitude :=
  divideLoop dividend divisor (magnitudeBitLength dividend) (.zero, .zero)

def magnitudeIsPowerOfTwo (magnitude : Magnitude) (exponent : ℕ) : Bool :=
  (List.range literalLimbs).all fun i =>
    magnitude.limb i == if i = exponent / 32 then 1 <<< (exponent % 32) else 0

/-! ### Numbers -/

theorem literalBits_eq : literalBits = 32 * literalLimbs := Nat.mul_comm _ _

variable (m : Magnitude)

theorem Magnitude.toNat_lt : m.toNat < 2 ^ literalBits := by
  have h := number_lt m.fits
  rwa [m.length_eq, ← literalBits_eq] at h

theorem Magnitude.ext_toNat {m n : Magnitude} (h : m.toNat = n.toNat) : m = n := by
  have hlimbs := number_injective (m.length_eq.trans n.length_eq.symm) m.fits n.fits h
  cases m
  cases n
  exact (Magnitude.mk.injEq ..).mpr hlimbs

theorem Magnitude.testBit_toNat (n : ℕ) : m.toNat.testBit n = (m.limb (n / 32)).testBit (n % 32) :=
  testBit_number (by decide) m.fits n

theorem Magnitude.limb_of_ge {i : ℕ} (h : literalLimbs ≤ i) : m.limb i = 0 := by
  rw [limb, getD_eq_getElem?_getD, getElem?_eq_none (by rw [m.length_eq]; exact h)]
  rfl

theorem Magnitude.limb_lt (i : ℕ) : m.limb i < 2 ^ 32 := by
  rw [limb, getD_eq_getElem?_getD]
  cases h : m.limbs[i]? with
  | none => exact two_pow_pos 32
  | some d => exact m.fits d (mem_of_getElem? h)

theorem Magnitude.limb_ofLimbs (f : ℕ → ℕ) {i : ℕ} (h : i < literalLimbs) :
    (ofLimbs f).limb i = f i % 2 ^ 32 := by
  rw [limb, ofLimbs, getD_eq_getElem?_getD, getElem?_map, getElem?_range h]
  rfl

theorem Magnitude.testBit_ofLimbs (f : ℕ → ℕ) (n : ℕ) :
    (ofLimbs f).toNat.testBit n = (decide (n < literalBits) && (f (n / 32)).testBit (n % 32)) := by
  rw [testBit_toNat]
  by_cases hn : n < literalBits
  · have hi : n / 32 < literalLimbs := by
      rw [Nat.div_lt_iff_lt_mul (by decide)]
      exact hn
    rw [limb_ofLimbs f hi, testBit_mod_two_pow, decide_eq_true hn,
      decide_eq_true (mod_lt n (by decide)), Bool.true_and]
  · have hi : literalLimbs ≤ n / 32 := by
      rw [Nat.le_div_iff_mul_le (by decide)]
      exact Nat.le_of_not_lt hn
    rw [limb_of_ge _ hi, zero_testBit, decide_eq_false hn, Bool.false_and]

@[simp] theorem Magnitude.toNat_zero : Magnitude.zero.toNat = 0 := by decide

theorem Magnitude.toNat_single {value : ℕ} (h : value < 2 ^ 32) : (single value).toNat = value := by
  refine eq_of_testBit_eq fun n => ?_
  rw [single, testBit_ofLimbs]
  by_cases hn : n < 32
  · rw [div_eq_of_lt hn, mod_eq_of_lt hn, if_pos rfl,
      decide_eq_true (Nat.lt_of_lt_of_le hn (by decide)), Bool.true_and]
  · rw [if_neg (by omega), zero_testBit, Bool.and_false,
      testBit_lt_two_pow (Nat.lt_of_lt_of_le h (pow_le_pow_right (by decide) (by omega)))]

theorem magnitudeIsZero_iff : magnitudeIsZero m = true ↔ m.toNat = 0 := number_eq_zero_iff m.limbs

theorem magnitudeCompare_eq (m n : Magnitude) : magnitudeCompare m n =
    if m.toNat = n.toNat then 0 else if m.toNat > n.toNat then 1 else -1 := by
  have hfits : ∀ m : Magnitude, Fits 32 m.limbs.reverse := fun m d hd =>
    m.fits d (mem_reverse.mp hd)
  have h := compareHigh_eq (w := 32) (l := m.limbs.reverse) (m := n.limbs.reverse)
    (by rw [length_reverse, length_reverse, m.length_eq, n.length_eq]) (hfits m) (hfits n)
  rw [numberHigh, numberHigh, reverse_reverse, reverse_reverse] at h
  exact h

theorem limbBitLength_eq {limb bits : ℕ} (h : limb < 2 ^ bits) :
    limbBitLength limb bits = limb.size := by
  induction bits with
  | zero =>
    have hzero : limb = 0 := by simpa using h
    rw [hzero]
    rfl
  | succ bits ih =>
    rw [limbBitLength]
    split_ifs with hbit
    · have hge : 2 ^ bits ≤ limb := Nat.ge_two_pow_of_testBit hbit
      have hlow := lt_size.mpr hge
      have hhigh := size_le.mpr h
      omega
    · refine ih (Nat.lt_pow_two_of_testBit _ fun i hi => ?_)
      rcases Nat.lt_or_eq_of_le hi with hlt | rfl
      · exact testBit_lt_two_pow (Nat.lt_of_lt_of_le h (pow_le_pow_right (by decide) hlt))
      · simpa using hbit

theorem bitLengthHigh_eq {l : List ℕ} (h : Fits 32 l) :
    bitLengthHigh l = (numberHigh 32 l).size := by
  induction l with
  | nil => rfl
  | cons limb l ih =>
    have hlt : numberHigh 32 l < 2 ^ (32 * l.length) := by
      have := number_lt (w := 32) (l := l.reverse) fun d hd => h.tail d (mem_reverse.mp hd)
      rwa [length_reverse] at this
    rw [bitLengthHigh, numberHigh_cons]
    split_ifs with hzero
    · rw [hzero, mul_zero, Nat.add_zero, ih h.tail]
    · rw [limbBitLength_eq h.head]
      have hsize : 0 < limb.size := lt_size.mpr (Nat.pos_of_ne_zero hzero)
      have hlow : 2 ^ (limb.size - 1) ≤ limb := lt_size.mp (by omega)
      have hhigh : limb < 2 ^ limb.size := Nat.lt_size_self limb
      refine Nat.le_antisymm ?_ ?_
      · have hmul := Nat.mul_le_mul_left (2 ^ (32 * l.length)) hlow
        rw [← Nat.pow_add] at hmul
        have := lt_size.mpr (Nat.le_trans hmul (Nat.le_add_left _ (numberHigh 32 l)))
        omega
      · refine size_le.mpr ?_
        have hmul := Nat.mul_le_mul_left (2 ^ (32 * l.length)) (Nat.succ_le_of_lt hhigh)
        rw [← Nat.pow_add, mul_succ, Nat.mul_comm 32 l.length] at hmul
        rw [Nat.mul_comm 32 l.length] at hlt ⊢
        omega

theorem bitLength_eq : magnitudeBitLength m = m.toNat.size := by
  rw [magnitudeBitLength, bitLengthHigh_eq fun d hd => m.fits d (mem_reverse.mp hd),
    numberHigh, reverse_reverse]
  rfl
/-! ### What the functions compute -/

theorem magnitudeAdd_spec (m n : Magnitude) :
    ((magnitudeAdd m n).2 = true ↔ m.toNat + n.toNat < 2 ^ literalBits) ∧
      ((magnitudeAdd m n).2 = true → (magnitudeAdd m n).1.toNat = m.toNat + n.toNat) := by
  have h := number_addCarry (w := 32) (m.length_eq.trans n.length_eq.symm) 0
  rw [m.length_eq, ← literalBits_eq, Nat.add_zero] at h
  have hlt := (magnitudeAdd m n).1.toNat_lt
  change (magnitudeAdd m n).1.toNat + 2 ^ literalBits * (addCarry 32 m.limbs n.limbs 0).2 =
    m.toNat + n.toNat at h
  have hfits : (magnitudeAdd m n).2 = true ↔ (addCarry 32 m.limbs n.limbs 0).2 = 0 := beq_iff_eq
  rw [hfits]
  generalize (addCarry 32 m.limbs n.limbs 0).2 = carry at h
  generalize (2 : ℕ) ^ literalBits = base at *
  cases carry with
  | zero =>
    rw [mul_zero, Nat.add_zero] at h
    exact ⟨iff_of_true rfl (by omega), fun _ => h⟩
  | succ carry =>
    rw [mul_succ] at h
    refine ⟨iff_of_false (Nat.succ_ne_zero _) (by omega), fun h => absurd h (Nat.succ_ne_zero _)⟩

theorem toNat_magnitudeSubtract {m n : Magnitude} (hle : n.toNat ≤ m.toNat) :
    (magnitudeSubtract m n).toNat = m.toNat - n.toNat := by
  have h := number_subBorrow (w := 32) (m.length_eq.trans n.length_eq.symm) m.fits n.fits
    (Nat.zero_le 1)
  rw [m.length_eq, ← literalBits_eq, Nat.add_zero] at h
  change (magnitudeSubtract m n).toNat + n.toNat =
    m.toNat + 2 ^ literalBits * (subBorrow 32 m.limbs n.limbs 0).2 at h
  have hlt := (magnitudeSubtract m n).toNat_lt
  generalize (subBorrow 32 m.limbs n.limbs 0).2 = borrow at h
  generalize (2 : ℕ) ^ literalBits = base at *
  cases borrow with
  | zero =>
    rw [mul_zero, Nat.add_zero] at h
    omega
  | succ borrow =>
    rw [mul_succ] at h
    omega

theorem magnitudeMultiply_spec (m n : Magnitude) :
    (∀ product, magnitudeMultiply m n = some product → product.toNat = m.toNat * n.toNat) ∧
      (magnitudeMultiply m n = none → 2 ^ literalBits ≤ m.toNat * n.toNat) := by
  have hprod : number 32 (productLimbs m n) = m.toNat * n.toNat := by
    rw [productLimbs, number_mulRows _ (n.length_eq.trans Magnitude.zero.length_eq.symm)]
    change Magnitude.zero.toNat + m.toNat * n.toNat = _
    rw [Magnitude.toNat_zero, Nat.zero_add]
  have hspl : number 32 ((productLimbs m n).take literalLimbs) +
      2 ^ literalBits * number 32 ((productLimbs m n).drop literalLimbs) = m.toNat * n.toNat := by
    rw [← hprod]
    conv_rhs => rw [← take_append_drop literalLimbs (productLimbs m n)]
    rw [number_append, length_take, productLimbs_length]
    rfl
  unfold magnitudeMultiply
  split_ifs with h
  · rw [(number_eq_zero_iff _).mp h, mul_zero, Nat.add_zero] at hspl
    refine ⟨fun product hprod => ?_, fun h => by cases h⟩
    rw [← Option.some.inj hprod]
    exact hspl
  · refine ⟨fun _ h => by (cases h), fun _ => ?_⟩
    have hpos : number 32 ((productLimbs m n).drop literalLimbs) ≠ 0 :=
      fun hzero => h ((number_eq_zero_iff _).mpr hzero)
    obtain ⟨high, hhigh⟩ := Nat.exists_eq_succ_of_ne_zero hpos
    rw [hhigh, mul_succ] at hspl
    omega
theorem Magnitude.testBit_shiftLeft_limb (bits n : ℕ) : (if bits % 32 ≠ 0 then
        (if n / 32 ≥ bits / 32 then m.limb (n / 32 - bits / 32) else 0) <<< (bits % 32) |||
          (if n / 32 ≥ bits / 32 + 1 then m.limb (n / 32 - bits / 32 - 1) else 0) >>>
            (32 - bits % 32)
      else if n / 32 ≥ bits / 32 then m.limb (n / 32 - bits / 32) else 0).testBit (n % 32) =
      (decide (n ≥ bits) && m.toNat.testBit (n - bits)) := by
  rw [testBit_toNat]
  have hhigh : ∀ i k, 32 ≤ k → (m.limb i).testBit k = false := fun i k hk =>
    testBit_lt_two_pow (Nat.lt_of_lt_of_le (m.limb_lt i) (pow_le_pow_right (by decide) hk))
  by_cases hrest : bits % 32 = 0
  · rw [if_neg (not_not.mpr hrest)]
    by_cases hn : n / 32 ≥ bits / 32
    · rw [if_pos hn, decide_eq_true (by omega), Bool.true_and,
        show (n - bits) / 32 = n / 32 - bits / 32 by omega, show (n - bits) % 32 = n % 32 by omega]
    · rw [if_neg hn, zero_testBit, decide_eq_false (by omega), Bool.false_and]
  · rw [if_pos hrest, testBit_or, Nat.testBit_shiftLeft, Nat.testBit_shiftRight]
    rcases Nat.lt_or_ge (n % 32) (bits % 32) with hr | hr
    · rw [decide_eq_false (show ¬ n % 32 ≥ bits % 32 by omega), Bool.false_and, Bool.false_or]
      by_cases hn : n / 32 ≥ bits / 32 + 1
      · rw [if_pos hn, decide_eq_true (by omega), Bool.true_and,
          show (n - bits) / 32 = n / 32 - bits / 32 - 1 by omega,
          show (n - bits) % 32 = 32 - bits % 32 + n % 32 by omega]
      · rw [if_neg hn, zero_testBit, decide_eq_false (by omega), Bool.false_and]
    · have hlow : (if n / 32 ≥ bits / 32 + 1 then m.limb (n / 32 - bits / 32 - 1) else 0).testBit
          (32 - bits % 32 + n % 32) = false := by
        split_ifs
        · exact hhigh _ _ (by omega)
        · exact zero_testBit _
      rw [hlow, Bool.or_false, decide_eq_true hr, Bool.true_and]
      by_cases hn : n / 32 ≥ bits / 32
      · rw [if_pos hn, decide_eq_true (by omega), Bool.true_and,
          show (n - bits) / 32 = n / 32 - bits / 32 by omega,
          show (n - bits) % 32 = n % 32 - bits % 32 by omega]
      · rw [if_neg hn, zero_testBit, decide_eq_false (by omega), Bool.false_and]

variable (bits : ℕ)

theorem magnitudeShiftLeft_spec :
    (∀ shifted, magnitudeShiftLeft m bits = some shifted → shifted.toNat = m.toNat * 2 ^ bits) ∧
      (magnitudeShiftLeft m bits = none → 2 ^ literalBits ≤ m.toNat * 2 ^ bits) := by
  unfold magnitudeShiftLeft
  split_ifs with hzero hlarge
  · rw [magnitudeIsZero_iff] at hzero
    refine ⟨fun shifted h => ?_, fun h => by cases h⟩
    rw [← Option.some.inj h, hzero, Nat.zero_mul]
  · refine ⟨fun _ h => by (cases h), fun _ => ?_⟩
    rw [magnitudeIsZero_iff] at hzero
    rw [bitLength_eq] at hlarge
    rcases hlarge with hlarge | hlarge
    · exact Nat.le_trans (pow_le_pow_right (by decide) hlarge)
        (Nat.le_mul_of_pos_left _ (Nat.pos_of_ne_zero hzero))
    · have hsize : 0 < m.toNat.size := lt_size.mpr (Nat.pos_of_ne_zero hzero)
      have hlow : 2 ^ (m.toNat.size - 1) ≤ m.toNat := lt_size.mp (by omega)
      have hmul := Nat.mul_le_mul_right (2 ^ bits) hlow
      rw [← Nat.pow_add] at hmul
      exact Nat.le_trans (pow_le_pow_right (by decide) (by omega)) hmul
  · refine ⟨fun shifted h => ?_, fun h => by cases h⟩
    rw [← Option.some.inj h]
    rw [not_or, bitLength_eq] at hlarge
    have hsize : m.toNat < 2 ^ m.toNat.size := Nat.lt_size_self _
    have hlt : m.toNat * 2 ^ bits < 2 ^ literalBits := by
      have hmul := Nat.mul_lt_mul_of_pos_right hsize (two_pow_pos bits)
      rw [← Nat.pow_add] at hmul
      exact Nat.lt_of_lt_of_le hmul (pow_le_pow_right (by decide) (by omega))
    refine eq_of_testBit_eq fun n => ?_
    rw [Magnitude.testBit_ofLimbs, Nat.testBit_mul_two_pow]
    by_cases hn : n < literalBits
    swap
    · have hhigh := testBit_lt_two_pow (Nat.lt_of_lt_of_le hlt
        (pow_le_pow_right (by decide) (Nat.le_of_not_lt hn)))
      rw [Nat.testBit_mul_two_pow] at hhigh
      rw [hhigh, decide_eq_false hn, Bool.false_and]
    rw [decide_eq_true hn, Bool.true_and]
    exact m.testBit_shiftLeft_limb bits n

theorem Magnitude.mod_two_pow_eq_zero_iff :
    m.toNat % 2 ^ bits = 0 ↔ (∀ i < bits / 32, m.limb i = 0) ∧
      m.limb (bits / 32) % 2 ^ (bits % 32) = 0 := by
  have hbit : m.toNat % 2 ^ bits = 0 ↔ ∀ n < bits, m.toNat.testBit n = false := by
    constructor
    · intro h n hn
      have := congrArg (Nat.testBit · n) h
      simpa [testBit_mod_two_pow, hn] using this
    · intro h
      refine eq_of_testBit_eq fun n => ?_
      rw [testBit_mod_two_pow, zero_testBit, Bool.and_eq_false_iff]
      by_cases hn : n < bits
      · exact .inr (h n hn)
      · exact .inl (decide_eq_false hn)
  rw [hbit]
  constructor
  · intro h
    refine ⟨fun i hi => eq_of_testBit_eq fun k => ?_, eq_of_testBit_eq fun k => ?_⟩
    · rw [zero_testBit]
      rcases Nat.lt_or_ge k 32 with hk | hk
      · have := h (32 * i + k) (by omega)
        rwa [m.testBit_toNat, show (32 * i + k) / 32 = i by omega,
          show (32 * i + k) % 32 = k by omega] at this
      · exact testBit_lt_two_pow (Nat.lt_of_lt_of_le (m.limb_lt i)
          (pow_le_pow_right (by decide) hk))
    · rw [testBit_mod_two_pow, zero_testBit, Bool.and_eq_false_iff]
      by_cases hk : k < bits % 32
      · have := h (32 * (bits / 32) + k) (by omega)
        rw [m.testBit_toNat, show (32 * (bits / 32) + k) / 32 = bits / 32 by omega,
          show (32 * (bits / 32) + k) % 32 = k by omega] at this
        exact .inr this
      · exact .inl (decide_eq_false hk)
  · rintro ⟨hlimbs, hlast⟩ n hn
    rw [m.testBit_toNat]
    rcases Nat.lt_or_ge (n / 32) (bits / 32) with hi | hi
    · rw [hlimbs _ hi, zero_testBit]
    · have hi : n / 32 = bits / 32 := by omega
      have := congrArg (Nat.testBit · (n % 32)) hlast
      rw [hi]
      simpa [testBit_mod_two_pow, show n % 32 < bits % 32 by omega] using this

theorem Magnitude.testBit_shiftRight_limb (bits n : ℕ) : (if bits % 32 ≠ 0 then
        (if n / 32 + bits / 32 < literalLimbs then m.limb (n / 32 + bits / 32) else 0) >>>
            (bits % 32) |||
          (if n / 32 + bits / 32 + 1 < literalLimbs then m.limb (n / 32 + bits / 32 + 1) else 0) <<<
            (32 - bits % 32)
      else if n / 32 + bits / 32 < literalLimbs then m.limb (n / 32 + bits / 32) else 0).testBit
        (n % 32) = m.toNat.testBit (bits + n) := by
  have hlimb : ∀ i, (if i < literalLimbs then m.limb i else 0) = m.limb i := by
    intro i
    split_ifs with hi
    · rfl
    · exact (m.limb_of_ge (Nat.le_of_not_lt hi)).symm
  rw [testBit_toNat, hlimb, hlimb]
  by_cases hrest : bits % 32 = 0
  · rw [if_neg (not_not.mpr hrest), show (bits + n) / 32 = n / 32 + bits / 32 by omega,
      show (bits + n) % 32 = n % 32 by omega]
  · rw [if_pos hrest, testBit_or, Nat.testBit_shiftLeft, Nat.testBit_shiftRight]
    rcases Nat.lt_or_ge (bits % 32 + n % 32) 32 with hr | hr
    · rw [decide_eq_false (show ¬ n % 32 ≥ 32 - bits % 32 by omega), Bool.false_and,
        Bool.or_false, show (bits + n) / 32 = n / 32 + bits / 32 by omega,
        show (bits + n) % 32 = bits % 32 + n % 32 by omega]
    · rw [testBit_lt_two_pow (Nat.lt_of_lt_of_le (m.limb_lt _)
          (pow_le_pow_right (by decide) hr)), Bool.false_or,
        decide_eq_true (show n % 32 ≥ 32 - bits % 32 by omega), Bool.true_and,
        show (bits + n) / 32 = n / 32 + bits / 32 + 1 by omega,
        show (bits + n) % 32 = n % 32 - (32 - bits % 32) by omega]

theorem magnitudeShiftRight_spec : (magnitudeShiftRight m bits).1.toNat = m.toNat / 2 ^ bits ∧
      ((magnitudeShiftRight m bits).2 = true ↔ m.toNat % 2 ^ bits ≠ 0) := by
  unfold magnitudeShiftRight
  split_ifs with hbits
  · have hlt : m.toNat < 2 ^ bits :=
      Nat.lt_of_lt_of_le m.toNat_lt (pow_le_pow_right (by decide) hbits)
    rw [div_eq_of_lt hlt, mod_eq_of_lt hlt, Magnitude.toNat_zero]
    refine ⟨rfl, ?_⟩
    rw [Bool.not_eq_true', ← Bool.not_eq_true, magnitudeIsZero_iff]
  · refine ⟨?_, ?_⟩
    · refine eq_of_testBit_eq fun n => ?_
      rw [Magnitude.testBit_ofLimbs, Nat.testBit_div_two_pow]
      dsimp only
      rw [m.testBit_shiftRight_limb bits n]
      by_cases hn : n < literalBits
      · rw [decide_eq_true hn, Bool.true_and, Nat.add_comm]
      · rw [decide_eq_false hn, Bool.false_and]
        exact (testBit_lt_two_pow (Nat.lt_of_lt_of_le m.toNat_lt
          (pow_le_pow_right (by decide) (by omega)))).symm
    · rw [Ne, m.mod_two_pow_eq_zero_iff]
      simp only [Bool.or_eq_true, any_eq_true, mem_range, bne_iff_ne, Bool.and_eq_true,
        Nat.one_shiftLeft, Nat.and_two_pow_sub_one_eq_mod]
      constructor
      · rintro (⟨i, hi, hlimb⟩ | ⟨-, hlast⟩) ⟨hzero, hmod⟩
        · exact hlimb (hzero i hi)
        · exact hlast hmod
      · intro h
        by_cases hzero : ∀ i < bits / 32, m.limb i = 0
        · have hmod : m.limb (bits / 32) % 2 ^ (bits % 32) ≠ 0 := fun hmod => h ⟨hzero, hmod⟩
          refine .inr ⟨fun hrest => hmod ?_, hmod⟩
          rw [hrest, Nat.pow_zero, Nat.mod_one]
        · simp only [not_forall] at hzero
          obtain ⟨i, hi, hlimb⟩ := hzero
          exact .inl ⟨i, hi, hlimb⟩
theorem Magnitude.toNat_setBit {m : Magnitude} {bit : ℕ} (hbit : bit < literalBits)
    (h : m.toNat % 2 ^ (bit + 1) < 2 ^ bit) : (m.setBit bit).toNat = m.toNat + 2 ^ bit := by
  have hclear : m.toNat.testBit bit = false := by
    have := testBit_lt_two_pow h
    simpa [testBit_mod_two_pow] using this
  have hor : (m.setBit bit).toNat = m.toNat ||| 2 ^ bit := by
    refine eq_of_testBit_eq fun n => ?_
    rw [setBit, testBit_ofLimbs, testBit_or, m.testBit_toNat, Nat.testBit_two_pow]
    by_cases hn : n < literalBits
    · rw [decide_eq_true hn, Bool.true_and]
      by_cases hi : n / 32 = bit / 32
      · rw [if_pos hi, hi, testBit_or, Nat.one_shiftLeft, Nat.testBit_two_pow]
        congr 1
        exact decide_eq_decide.mpr (by omega)
      · rw [if_neg hi, decide_eq_false (show ¬ bit = n by rintro rfl; exact hi rfl), Bool.or_false]
    · rw [decide_eq_false hn, Bool.false_and, m.limb_of_ge (by rw [literalBits] at hn; omega),
        zero_testBit, decide_eq_false (by omega), Bool.or_self]
  have hspl := Nat.div_add_mod m.toNat (2 ^ (bit + 1))
  have hlow : m.toNat % 2 ^ (bit + 1) + 2 ^ bit < 2 ^ (bit + 1) := by
    rw [Nat.pow_succ] at h ⊢
    omega
  rw [hor, ← hspl, Nat.two_pow_add_eq_or_of_lt (mod_lt _ (two_pow_pos _)), Nat.or_assoc,
    Nat.or_two_pow_eq_add_of_lt h, ← Nat.two_pow_add_eq_or_of_lt hlow,
    ← Nat.two_pow_add_eq_or_of_lt (mod_lt _ (two_pow_pos _)), Nat.add_assoc]

/-- What the loop of `magnitude_divide` knows once it has seen the dividend down to bit `bit`. -/
structure DividesTo (dividend divisor : Magnitude) (bit : ℕ) (s : Magnitude × Magnitude) : Prop where
  quotient : s.1.toNat = dividend.toNat / 2 ^ bit / divisor.toNat * 2 ^ bit
  remainder : s.2.toNat = dividend.toNat / 2 ^ bit % divisor.toNat

variable {dividend divisor : Magnitude}

theorem DividesTo.step {bit : ℕ} {s : Magnitude × Magnitude}
    (h : DividesTo dividend divisor (bit + 1) s) (hbit : bit < literalBits)
    (hpos : 0 < divisor.toNat) :
    DividesTo dividend divisor bit (divideStep dividend divisor bit s) := by
  have hhalf : dividend.toNat / 2 ^ bit = 2 * (dividend.toNat / 2 ^ (bit + 1)) +
      (dividend.toNat.testBit bit).toNat := by
    rw [Nat.toNat_testBit, Nat.pow_succ, ← Nat.div_div_eq_div_mul]
    omega
  have hle : s.2.toNat ≤ dividend.toNat / 2 ^ (bit + 1) := h.remainder ▸ Nat.mod_le _ _
  have htop : dividend.toNat / 2 ^ (bit + 1) < 2 ^ (literalBits - 1) := by
    rw [Nat.div_lt_iff_lt_mul (two_pow_pos _), ← Nat.pow_add]
    exact Nat.lt_of_lt_of_le dividend.toNat_lt (pow_le_pow_right (by decide) (by omega))
  have hlt : s.2.toNat < divisor.toNat := h.remainder ▸ mod_lt _ hpos
  -- the doubled remainder with the next bit of the dividend
  obtain ⟨shifted, hshifted⟩ : ∃ shifted, magnitudeShiftLeft s.2 1 = some shifted := by
    cases hshf : magnitudeShiftLeft s.2 1 with
    | some shifted => exact ⟨shifted, rfl⟩
    | none =>
      have hlarge := (magnitudeShiftLeft_spec s.2 1).2 hshf
      have hpow : 2 ^ literalBits = 2 ^ (literalBits - 1) * 2 := by
        rw [← Nat.pow_succ]
        rfl
      rw [hpow, Nat.pow_one] at hlarge
      omega
  have hdbl : shifted.toNat = 2 * s.2.toNat := by
    rw [(magnitudeShiftLeft_spec s.2 1).1 shifted hshifted, Nat.pow_one, Nat.mul_comm]
  unfold divideStep
  rw [hshifted, Option.getD_some, ← dividend.testBit_toNat bit]
  dsimp only
  generalize hnext : (if dividend.toNat.testBit bit = true then shifted.setBit 0 else shifted) = next
  have hval : next.toNat = 2 * s.2.toNat + (dividend.toNat.testBit bit).toNat := by
    rw [← hnext]
    split_ifs with hset
    · rw [Magnitude.toNat_setBit (by decide) (by rw [hdbl]; omega), hdbl, hset]
      rfl
    · have hclear : dividend.toNat.testBit bit = false := by simpa using hset
      rw [hdbl, hclear]
      rfl
  have hdivide : dividend.toNat / 2 ^ bit =
      divisor.toNat * (2 * (dividend.toNat / 2 ^ (bit + 1) / divisor.toNat)) + next.toNat := by
    have hmod := Nat.div_add_mod (dividend.toNat / 2 ^ (bit + 1)) divisor.toNat
    rw [← h.remainder] at hmod
    rw [hhalf, hval, ← hmod, Nat.mul_add_div hpos, div_eq_of_lt hlt, Nat.add_zero]
    ring
  have hbitLe : (dividend.toNat.testBit bit).toNat ≤ 1 := Bool.toNat_le _
  have hquot : s.1.toNat % 2 ^ (bit + 1) < 2 ^ bit := by
    rw [h.quotient, Nat.mul_mod_left]
    exact two_pow_pos _
  rw [magnitudeCompare_eq]
  by_cases hge : divisor.toNat ≤ next.toNat
  · have hcompare : (if next.toNat = divisor.toNat then 0
        else if next.toNat > divisor.toNat then 1 else -1 : ℤ) ≥ 0 := by
      split_ifs <;> omega
    rw [if_pos hcompare]
    have hrest : next.toNat - divisor.toNat < divisor.toNat := by omega
    have hdivided : dividend.toNat / 2 ^ bit = divisor.toNat *
        (2 * (dividend.toNat / 2 ^ (bit + 1) / divisor.toNat) + 1) +
          (next.toNat - divisor.toNat) := by
      rw [hdivide, mul_succ]
      omega
    constructor
    · rw [Magnitude.toNat_setBit hbit hquot, h.quotient, hdivided, Nat.mul_add_div hpos,
        div_eq_of_lt hrest, Nat.pow_succ]
      ring
    · rw [toNat_magnitudeSubtract hge, hdivided, Nat.mul_add_mod, mod_eq_of_lt hrest]
  · have hcompare : ¬ (if next.toNat = divisor.toNat then 0
        else if next.toNat > divisor.toNat then 1 else -1 : ℤ) ≥ 0 := by
      split_ifs <;> omega
    rw [if_neg hcompare]
    have hrest : next.toNat < divisor.toNat := by omega
    constructor
    · rw [h.quotient, hdivide, Nat.mul_add_div hpos, div_eq_of_lt hrest, Nat.pow_succ]
      ring
    · rw [hdivide, Nat.mul_add_mod, mod_eq_of_lt hrest]

theorem DividesTo.loop {bits : ℕ} {s : Magnitude × Magnitude}
    (h : DividesTo dividend divisor bits s) (hbits : bits ≤ literalBits)
    (hpos : 0 < divisor.toNat) :
    DividesTo dividend divisor 0 (divideLoop dividend divisor bits s) := by
  induction bits generalizing s with
  | zero => exact h
  | succ bit ih => exact ih (h.step hbits hpos) (Nat.le_of_succ_le hbits)

theorem magnitudeDivide_spec (hpos : 0 < divisor.toNat) :
    (magnitudeDivide dividend divisor).1.toNat = dividend.toNat / divisor.toNat ∧
      (magnitudeDivide dividend divisor).2.toNat = dividend.toNat % divisor.toNat := by
  have hsize : dividend.toNat / 2 ^ magnitudeBitLength dividend = 0 := by
    rw [bitLength_eq]
    exact div_eq_of_lt (Nat.lt_size_self _)
  have hst : DividesTo dividend divisor (magnitudeBitLength dividend) (.zero, .zero) := by
    constructor
    · rw [hsize, Nat.zero_div, Nat.zero_mul, Magnitude.toNat_zero]
    · rw [hsize, Nat.zero_mod, Magnitude.toNat_zero]
  have hbits : magnitudeBitLength dividend ≤ literalBits := by
    rw [bitLength_eq]
    exact size_le.mpr dividend.toNat_lt
  have h := hst.loop hbits hpos
  constructor
  · rw [magnitudeDivide, h.quotient, Nat.pow_zero, Nat.div_one, Nat.mul_one]
  · rw [magnitudeDivide, h.remainder, Nat.pow_zero, Nat.div_one]

theorem magnitudeIsPowerOfTwo_iff {exponent : ℕ} (h : exponent < literalBits) :
    magnitudeIsPowerOfTwo m exponent = true ↔ m.toNat = 2 ^ exponent := by
  have hpower : (Magnitude.zero.setBit exponent).toNat = 2 ^ exponent := by
    rw [Magnitude.toNat_setBit h (by rw [Magnitude.toNat_zero, Nat.zero_mod]; exact two_pow_pos _),
      Magnitude.toNat_zero, Nat.zero_add]
  have hlimb : ∀ i < literalLimbs, (Magnitude.zero.setBit exponent).limb i =
      if i = exponent / 32 then 1 <<< (exponent % 32) else 0 := by
    intro i hi
    have hzero : Magnitude.zero.limb i = 0 := Magnitude.limb_ofLimbs (fun _ => 0) hi
    rw [Magnitude.setBit, Magnitude.limb_ofLimbs _ hi, hzero, Nat.zero_or]
    split_ifs
    · refine mod_eq_of_lt ?_
      rw [Nat.one_shiftLeft]
      exact Nat.pow_lt_pow_right (by decide) (mod_lt _ (by decide))
    · rfl
  rw [magnitudeIsPowerOfTwo, all_eq_true]
  simp only [mem_range, beq_iff_eq]
  constructor
  · intro hall
    rw [← hpower]
    refine eq_of_testBit_eq fun n => ?_
    rw [Magnitude.testBit_toNat, Magnitude.testBit_toNat]
    rcases Nat.lt_or_ge (n / 32) literalLimbs with hi | hi
    · rw [hall _ hi, hlimb _ hi]
    · rw [m.limb_of_ge hi, Magnitude.limb_of_ge _ hi]
  · intro heq i hi
    rw [Magnitude.ext_toNat (heq.trans hpower.symm), hlimb i hi]

end Grayscale
