import Grayscale.Runtime.WideInteger

/-!
# The numbers that words hold

What each operation on words does to the number that the words hold: sums, differences and products
up to the size, order, and division.
-/

namespace Grayscale

open List
open BitVec (lt_def toNat_and toNat_not toNat_or toNat_udiv toNat_umod toNat_ushiftRight)
open Nat (le_pred_of_lt modEq_one mod_eq_of_lt mod_lt mul_zero)

/-! ### Words -/

theorem toNat_carryBit (b : Bool) : (carryBit b).toNat = if b then 1 else 0 := by
  cases b <;> rfl

theorem toNat_carryBit_le (b : Bool) : (carryBit b).toNat ≤ 1 := by
  cases b <;> decide

theorem toNat_zeroWord : (0 : Word).toNat = 0 := rfl

theorem word_eq_iff {a b : Word} : a = b ↔ a.toNat = b.toNat := BitVec.toNat_inj.symm

variable (a : Word)

theorem toNat_low32Mask : (a &&& low32Mask).toNat = a.toNat % 2 ^ 32 := by
  rw [toNat_and]
  exact Nat.and_two_pow_sub_one_eq_mod _ 32

theorem toNat_half : (a >>> 32).toNat = a.toNat / 2 ^ 32 := by
  rw [toNat_ushiftRight, Nat.shiftRight_eq_div_pow]

theorem half_mul_half {a b : ℕ} (ha : a < 2 ^ 32) (hb : b < 2 ^ 32) :
    a * b ≤ (2 ^ 32 - 1) * (2 ^ 32 - 1) := Nat.mul_le_mul (le_pred_of_lt ha) (le_pred_of_lt hb)

theorem toNat_productHigh (left right : Word) :
    (productHigh left right).toNat = left.toNat * right.toNat / 2 ^ 64 := by
  have hleft := left.isLt
  have hrgt := right.isLt
  have hal : left.toNat % 2 ^ 32 < 2 ^ 32 := mod_lt _ (by decide)
  have hbl : right.toNat % 2 ^ 32 < 2 ^ 32 := mod_lt _ (by decide)
  have hah : left.toNat / 2 ^ 32 < 2 ^ 32 := by omega
  have hbh : right.toNat / 2 ^ 32 < 2 ^ 32 := by omega
  have hprod : left.toNat * right.toNat = left.toNat % 2 ^ 32 * (right.toNat % 2 ^ 32) +
        2 ^ 32 * (left.toNat % 2 ^ 32 * (right.toNat / 2 ^ 32) +
          left.toNat / 2 ^ 32 * (right.toNat % 2 ^ 32)) +
        2 ^ 64 * (left.toNat / 2 ^ 32 * (right.toNat / 2 ^ 32)) := by
    conv_lhs => rw [← Nat.mod_add_div left.toNat (2 ^ 32), ← Nat.mod_add_div right.toNat (2 ^ 32)]
    ring
  have hll := half_mul_half hal hbl
  have hlh := half_mul_half hal hbh
  have hhl := half_mul_half hah hbl
  have hhh := half_mul_half hah hbh
  rw [hprod]
  simp only [productHigh, BitVec.toNat_add, BitVec.toNat_mul, toNat_low32Mask, toNat_half]
  generalize left.toNat % 2 ^ 32 * (right.toNat % 2 ^ 32) = lowLow at *
  generalize left.toNat % 2 ^ 32 * (right.toNat / 2 ^ 32) = lowHigh at *
  generalize left.toNat / 2 ^ 32 * (right.toNat % 2 ^ 32) = highLow at *
  generalize left.toNat / 2 ^ 32 * (right.toNat / 2 ^ 32) = highHigh at *
  -- no sum of the halves overflows
  rw [mod_eq_of_lt (show lowLow < 2 ^ 64 by omega), mod_eq_of_lt (show lowHigh < 2 ^ 64 by omega),
    mod_eq_of_lt (show highLow < 2 ^ 64 by omega), mod_eq_of_lt (show highHigh < 2 ^ 64 by omega)]
  obtain ⟨middle, hmid⟩ : ∃ middle, middle = lowHigh + lowLow / 2 ^ 32 := ⟨_, rfl⟩
  rw [← hmid, mod_eq_of_lt (show middle < 2 ^ 64 by omega)]
  have hlow : middle % 2 ^ 32 + highLow < 2 ^ 64 := by omega
  rw [mod_eq_of_lt hlow]
  have hhigh : highHigh + middle / 2 ^ 32 < 2 ^ 64 := by omega
  rw [mod_eq_of_lt hhigh]
  clear hlow hhigh hleft hrgt hal hbl hah hbh hprod
  omega

theorem wordsNumber_cons (d : Word) (l : List Word) :
    wordsNumber (d :: l) = d.toNat + 2 ^ 64 * wordsNumber l := by
  rw [wordsNumber, map_cons, Limbs.number_cons]
  rfl

variable (l : List Word)

theorem fits_words : Limbs.Fits 64 (l.map BitVec.toNat) := by
  intro d hd
  obtain ⟨a, -, rfl⟩ := mem_map.mp hd
  exact a.isLt

theorem wordsNumber_lt : wordsNumber l < 2 ^ (64 * l.length) := by
  have := Limbs.number_lt (fits_words l)
  rwa [length_map] at this

theorem wordsNumber_injective {l m : List Word} (hlen : l.length = m.length)
    (h : wordsNumber l = wordsNumber m) : l = m := by
  refine map_injective_iff.mpr (fun _ _ => BitVec.eq_of_toNat_eq) ?_
  exact Limbs.number_injective (by simpa using hlen) (fits_words l) (fits_words m) h

/-! ### Sums and differences -/

theorem addWords_word (a b carry : Word) (hcarry : carry.toNat ≤ 1) :
    (a + b + carry).toNat = (a.toNat + b.toNat + carry.toNat) % 2 ^ 64 ∧
      (carryBit (a + b + carry < a || (carry != 0 && a + b + carry == a))).toNat =
        (a.toNat + b.toNat + carry.toNat) / 2 ^ 64 := by
  have ha := a.isLt
  have hb := b.isLt
  have hsum : (a + b + carry).toNat = (a.toNat + b.toNat + carry.toNat) % 2 ^ 64 := by
    rw [BitVec.toNat_add, BitVec.toNat_add, Nat.mod_add_mod]
  refine ⟨hsum, ?_⟩
  rw [toNat_carryBit]
  simp only [Bool.or_eq_true, Bool.and_eq_true, decide_eq_true_eq, bne_iff_ne, beq_iff_eq, ne_eq,
    word_eq_iff, lt_def, hsum, toNat_zeroWord]
  split_ifs <;> omega

theorem map_addWords (l m : List Word) {carry : Word} (hcarry : carry.toNat ≤ 1) :
    (addWords l m carry).map BitVec.toNat =
      (Limbs.addCarry 64 (l.map BitVec.toNat) (m.map BitVec.toNat) carry.toNat).1 := by
  induction l generalizing m carry with
  | nil => rfl
  | cons a l ih =>
    cases m with
    | nil => rfl
    | cons b m =>
      obtain ⟨hsum, hnext⟩ := addWords_word a b carry hcarry
      have hone : (a.toNat + b.toNat + carry.toNat) / 2 ^ 64 ≤ 1 := by
        have ha := a.isLt
        have hb := b.isLt
        omega
      simp only [addWords, map_cons, Limbs.addCarry, hsum]
      rw [ih m (hnext ▸ hone), hnext]

theorem wordsNumber_addWords {l m : List Word} (h : l.length = m.length) :
    wordsNumber (addWords l m 0) ≡ wordsNumber l + wordsNumber m [MOD 2 ^ (64 * l.length)] := by
  have hadd := Limbs.number_addCarry (w := 64) (l := l.map BitVec.toNat) (m := m.map BitVec.toNat)
    (by simpa using h) 0
  rw [length_map, Nat.add_zero] at hadd
  rw [wordsNumber, map_addWords l m (by decide), toNat_zeroWord, wordsNumber, wordsNumber, ← hadd]
  exact (Nat.add_mul_mod_self_left _ _ _).symm

theorem subWords_word (a b borrow : Word) (hborrow : borrow.toNat ≤ 1) :
    (a - b - borrow).toNat + b.toNat + borrow.toNat =
      a.toNat + 2 ^ 64 * (carryBit (a < b || a - b < borrow)).toNat := by
  have ha := a.isLt
  have hb := b.isLt
  rw [toNat_carryBit]
  simp only [Bool.or_eq_true, decide_eq_true_eq, lt_def, BitVec.toNat_sub]
  split_ifs <;> omega

theorem wordsNumber_subWords {l m : List Word} (h : l.length = m.length) {borrow : Word}
    (hborrow : borrow.toNat ≤ 1) :
    wordsNumber (subWords l m borrow) + wordsNumber m + borrow.toNat ≡ wordsNumber l
      [MOD 2 ^ (64 * l.length)] := by
  induction l generalizing m borrow with
  | nil => exact modEq_one
  | cons a l ih =>
    cases m with
    | nil => cases h
    | cons b m =>
      have hword := subWords_word a b borrow hborrow
      have hrest := ih (Nat.succ.inj h) (toNat_carryBit_le (a < b || a - b < borrow))
      rw [subWords, wordsNumber_cons, wordsNumber_cons, wordsNumber_cons, length_cons,
        Limbs.two_pow_mul_succ]
      generalize carryBit (a < b || a - b < borrow) = next at *
      calc (a - b - borrow).toNat + 2 ^ 64 * wordsNumber (subWords l m next) +
            (b.toNat + 2 ^ 64 * wordsNumber m) + borrow.toNat
          = (a - b - borrow).toNat + b.toNat + borrow.toNat +
            2 ^ 64 * (wordsNumber (subWords l m next) + wordsNumber m) := by ring
        _ = a.toNat + 2 ^ 64 * (wordsNumber (subWords l m next) + wordsNumber m + next.toNat) := by
            rw [hword]; ring
        _ ≡ _ [MOD 2 ^ 64 * 2 ^ (64 * l.length)] := (hrest.mul_left' _).add_left _

theorem negWords_word (a carry : Word) (hcarry : carry.toNat ≤ 1) :
    (~~~a + carry).toNat + a.toNat + 1 + 2 ^ 64 * (carryBit (~~~a + carry < ~~~a)).toNat =
      2 ^ 64 + carry.toNat := by
  have ha := a.isLt
  rw [toNat_carryBit]
  simp only [decide_eq_true_eq, lt_def, BitVec.toNat_add, toNat_not]
  split_ifs <;> omega

theorem wordsNumber_negWords {carry : Word} (hcarry : carry.toNat ≤ 1) :
    wordsNumber (negWords l carry) + wordsNumber l + 1 ≡ carry.toNat
      [MOD 2 ^ (64 * l.length)] := by
  induction l generalizing carry with
  | nil => exact modEq_one
  | cons a l ih =>
    have hword := negWords_word a carry hcarry
    have hrest := ih (toNat_carryBit_le (~~~a + carry < ~~~a))
    rw [negWords, wordsNumber_cons, wordsNumber_cons, length_cons, Limbs.two_pow_mul_succ]
    generalize carryBit (~~~a + carry < ~~~a) = next at *
    have hsum : (~~~a + carry).toNat + 2 ^ 64 * wordsNumber (negWords l next) +
          (a.toNat + 2 ^ 64 * wordsNumber l) + 1 + 2 ^ 64 * next.toNat =
        carry.toNat + 2 ^ 64 * (wordsNumber (negWords l next) + wordsNumber l + 1) := by
      calc (~~~a + carry).toNat + 2 ^ 64 * wordsNumber (negWords l next) +
            (a.toNat + 2 ^ 64 * wordsNumber l) + 1 + 2 ^ 64 * next.toNat
          = (~~~a + carry).toNat + a.toNat + 1 + 2 ^ 64 * next.toNat +
            2 ^ 64 * (wordsNumber (negWords l next) + wordsNumber l) := by ring
        _ = _ := by rw [hword]; ring
    refine Nat.ModEq.add_right_cancel' (2 ^ 64 * next.toNat) ?_
    rw [hsum]
    exact (hrest.mul_left' _).add_left _

/-! ### Products -/

theorem toNat_add_carryBit (a b : Word) :
    (a + b).toNat + 2 ^ 64 * (carryBit (a + b < a)).toNat = a.toNat + b.toNat := by
  have ha := a.isLt
  have hb := b.isLt
  simp only [toNat_carryBit, decide_eq_true_eq, lt_def, BitVec.toNat_add]
  split_ifs <;> omega

theorem mulWords_word (factor b previous carry : Word) : (previous + b * factor + carry).toNat =
        (previous.toNat + factor.toNat * b.toNat + carry.toNat) % 2 ^ 64 ∧
      (productHigh b factor + carryBit (previous + b * factor + carry < previous + b * factor) +
          carryBit (previous + b * factor < previous)).toNat =
        (previous.toNat + factor.toNat * b.toNat + carry.toNat) / 2 ^ 64 := by
  have hlt := (previous + b * factor + carry).isLt
  have hfst := toNat_add_carryBit previous (b * factor)
  have hsnd := toNat_add_carryBit (previous + b * factor) carry
  have hprod : (b * factor).toNat + 2 ^ 64 * (productHigh b factor).toNat =
      factor.toNat * b.toNat := by
    rw [BitVec.toNat_mul, toNat_productHigh, Nat.mod_add_div, Nat.mul_comm]
  have hbnd : factor.toNat * b.toNat ≤ (2 ^ 64 - 1) * (2 ^ 64 - 1) :=
    Nat.mul_le_mul (le_pred_of_lt factor.isLt) (le_pred_of_lt b.isLt)
  have hprev := previous.isLt
  have hcarry := carry.isLt
  have hhigh : (productHigh b factor +
        carryBit (previous + b * factor + carry < previous + b * factor) +
        carryBit (previous + b * factor < previous)).toNat = (productHigh b factor).toNat +
        (carryBit (previous + b * factor + carry < previous + b * factor)).toNat +
        (carryBit (previous + b * factor < previous)).toNat := by
    rw [BitVec.toNat_add, BitVec.toNat_add, mod_eq_of_lt (by omega), mod_eq_of_lt (by omega)]
  -- the word and what is carried out of it make up the sum
  have htot : previous.toNat + factor.toNat * b.toNat + carry.toNat =
      (previous + b * factor + carry).toNat + 2 ^ 64 * (productHigh b factor +
        carryBit (previous + b * factor + carry < previous + b * factor) +
        carryBit (previous + b * factor < previous)).toNat := by
    rw [hhigh]
    omega
  rw [htot, Nat.add_mul_mod_self_left, Nat.add_mul_div_left _ _ (by decide), Nat.div_eq_of_lt hlt,
    mod_eq_of_lt hlt, Nat.zero_add]
  exact ⟨rfl, rfl⟩

theorem map_mulWordsRow (factor : Word) (m result : List Word) (carry : Word) :
    (mulWordsRow factor m result carry).map BitVec.toNat =
      (Limbs.mulAdd 64 factor.toNat (m.map BitVec.toNat) (result.map BitVec.toNat) carry.toNat).1 := by
  induction m generalizing result carry with
  | nil => rfl
  | cons b m ih =>
    cases result with
    | nil => rfl
    | cons previous result =>
      obtain ⟨hlimb, hnext⟩ := mulWords_word factor b previous carry
      simp only [mulWordsRow, map_cons, Limbs.mulAdd, hlimb, ih, hnext]

theorem map_mulWords (left right result : List Word) :
    (mulWords left right result).map BitVec.toNat =
      Limbs.mulLow 64 (left.map BitVec.toNat) (right.map BitVec.toNat)
        (result.map BitVec.toNat) := by
  induction right generalizing result with
  | nil => rfl
  | cons factor right ih =>
    rw [mulWords, map_cons, Limbs.mulLow, ← toNat_zeroWord, ← map_mulWordsRow]
    cases mulWordsRow factor left result 0 with
    | nil => rfl
    | cons limb rest => exact congrArg (limb.toNat :: ·) (ih rest)

/-! ### Two words -/

namespace Words128

theorem toNat_lt (x : Words128) : x.toNat < 2 ^ 128 := by
  have hlow := x.low.isLt
  have hhigh := x.high.isLt
  rw [toNat]
  omega

theorem toNat_injective {x y : Words128} (h : x.toNat = y.toNat) : x = y := by
  have hx := x.low.isLt
  have hy := y.low.isLt
  rw [toNat, toNat] at h
  obtain ⟨low, high⟩ := x
  obtain ⟨low', high'⟩ := y
  rw [Words128.mk.injEq, word_eq_iff, word_eq_iff]
  dsimp only at *
  exact ⟨by omega, by omega⟩

variable (x y : Words128)

theorem toNat_add : (x.add y).toNat ≡ x.toNat + y.toNat [MOD 2 ^ 128] := by
  have hx := x.low.isLt
  have hy := y.low.isLt
  simp only [Nat.ModEq, toNat, add, BitVec.toNat_add, toNat_carryBit, decide_eq_true_eq, lt_def]
  split_ifs <;> omega

theorem toNat_sub : (x.sub y).toNat + y.toNat ≡ x.toNat [MOD 2 ^ 128] := by
  have hx := x.low.isLt
  have hy := y.low.isLt
  have hhigh := y.high.isLt
  simp only [Nat.ModEq, toNat, sub, BitVec.toNat_sub, toNat_carryBit, decide_eq_true_eq, lt_def]
  split_ifs <;> omega

theorem toNat_mul : (x.mul y).toNat ≡ x.toNat * y.toNat [MOD 2 ^ 128] := by
  have hprod : x.toNat * y.toNat = x.low.toNat * y.low.toNat +
      2 ^ 64 * (x.low.toNat * y.high.toNat + x.high.toNat * y.low.toNat) +
      2 ^ 128 * (x.high.toNat * y.high.toNat) := by
    rw [toNat, toNat]
    ring
  rw [hprod]
  simp only [Nat.ModEq, toNat, mul, BitVec.toNat_add, BitVec.toNat_mul, toNat_productHigh]
  generalize x.low.toNat * y.low.toNat = lowLow
  generalize x.low.toNat * y.high.toNat = lowHigh
  generalize x.high.toNat * y.low.toNat = highLow
  generalize x.high.toNat * y.high.toNat = highHigh
  omega

end Words128

theorem toNat_i128Neg (x : I128) : (i128Neg x).toNat + x.toNat ≡ 0 [MOD 2 ^ 128] := by
  have hlow := x.low.isLt
  have hhigh := x.high.isLt
  simp only [Nat.ModEq, Words128.toNat, i128Neg, BitVec.toNat_add, toNat_not, toNat_carryBit,
    beq_iff_eq, word_eq_iff, toNat_zeroWord, show (1 : Word).toNat = 1 from rfl]
  split_ifs <;> omega

theorem u128Lt_iff (x y : U128) : u128Lt x y = true ↔ x.toNat < y.toNat := by
  have hx := x.low.isLt
  have hy := y.low.isLt
  simp only [u128Lt, Bool.or_eq_true, Bool.and_eq_true, decide_eq_true_eq, beq_iff_eq,
    lt_def, word_eq_iff, Words128.toNat]
  omega

theorem Words128.isZero_iff (x : Words128) : x.isZero = true ↔ x.toNat = 0 := by
  simp only [isZero, Bool.and_eq_true, beq_iff_eq, word_eq_iff, toNat_zeroWord, toNat]
  omega

theorem i128IsNeg_iff (x : I128) : i128IsNeg x = true ↔ 2 ^ 127 ≤ x.toNat := by
  have hlow := x.low.isLt
  rw [i128IsNeg, BitVec.msb_eq_decide, decide_eq_true_eq, Words128.toNat]
  omega

/-! ### Four words -/

namespace Words256

theorem toNat_lt (x : Words256) : x.toNat < 2 ^ 256 := by
  have := wordsNumber_lt x.w
  rwa [x.length_w] at this

theorem toNat_injective {x y : Words256} (h : x.toNat = y.toNat) : x = y := by
  have hw := wordsNumber_injective (x.length_w.trans y.length_w.symm) h
  cases x
  cases y
  exact (Words256.mk.injEq ..).mpr hw

variable (x y : Words256)

theorem toNat_add : (x.add y).toNat ≡ x.toNat + y.toNat [MOD 2 ^ 256] := by
  have := wordsNumber_addWords (x.length_w.trans y.length_w.symm)
  rwa [x.length_w] at this

theorem toNat_sub : (x.sub y).toNat + y.toNat ≡ x.toNat [MOD 2 ^ 256] := by
  have := wordsNumber_subWords (x.length_w.trans y.length_w.symm) (show (0 : Word).toNat ≤ 1 by decide)
  rwa [x.length_w, toNat_zeroWord, Nat.add_zero] at this

theorem toNat_mul : (x.mul y).toNat ≡ x.toNat * y.toNat [MOD 2 ^ 256] := by
  have hzero : Limbs.number 64 (u256Zero.w.map BitVec.toNat) = 0 := by decide
  have hmul := Limbs.number_mulLow (w := 64) (y.w.map BitVec.toNat) (m := x.w.map BitVec.toNat)
    (show (u256Zero.w.map BitVec.toNat).length ≤ _ by simp [x.length_w, u256Zero.length_w])
  rw [hzero, Nat.zero_add, ← map_mulWords, length_map, u256Zero.length_w,
    Nat.mul_comm (Limbs.number _ _)] at hmul
  exact hmul

theorem isZero_iff (x : Words256) : x.isZero = true ↔ x.toNat = 0 := by
  rw [toNat, wordsNumber, ← Limbs.number_eq_zero_iff, isZero, all_map]
  refine iff_of_eq (congrArg (List.all x.w · = true) (funext fun a => ?_))
  rw [Function.comp_apply, Bool.eq_iff_iff, beq_iff_eq, beq_iff_eq, word_eq_iff, toNat_zeroWord]

theorem exists_words (x : Words256) : ∃ a b c d : Word, x.w = [a, b, c, d] :=
  length_eq_four.mp x.length_w

theorem toNat_of_words {x : Words256} {a b c d : Word} (h : x.w = [a, b, c, d]) :
    x.toNat = a.toNat + 2 ^ 64 * b.toNat + 2 ^ 128 * c.toNat + 2 ^ 192 * d.toNat := by
  simp only [toNat, h, wordsNumber_cons, show wordsNumber [] = 0 from rfl]
  ring

end Words256

theorem toNat_i256Neg (x : I256) : (i256Neg x).toNat + x.toNat ≡ 0 [MOD 2 ^ 256] := by
  have := wordsNumber_negWords x.w (show (1 : Word).toNat ≤ 1 by decide)
  rw [x.length_w] at this
  exact Nat.ModEq.add_right_cancel' 1 this

theorem i256IsNeg_iff (x : I256) : i256IsNeg x = true ↔ 2 ^ 255 ≤ x.toNat := by
  obtain ⟨a, b, c, d, h⟩ := x.exists_words
  have ha := a.isLt
  have hb := b.isLt
  have hc := c.isLt
  rw [i256IsNeg, h, Words256.toNat_of_words h, BitVec.msb_eq_decide, decide_eq_true_eq]
  change 2 ^ 63 ≤ d.toNat ↔ _
  omega

theorem u256Lt_iff (x y : U256) : u256Lt x y = true ↔ x.toNat < y.toNat := by
  obtain ⟨a, b, c, d, h⟩ := x.exists_words
  obtain ⟨a', b', c', d', h'⟩ := y.exists_words
  have ha := a.isLt
  have hb := b.isLt
  have hc := c.isLt
  have ha' := a'.isLt
  have hb' := b'.isLt
  have hc' := c'.isLt
  rw [Words256.toNat_of_words h, Words256.toNat_of_words h', u256Lt, h, h']
  simp only [getD_cons_zero, getD_cons_succ, ne_eq, word_eq_iff, lt_def]
  split_ifs <;> simp only [decide_eq_true_eq] <;> omega

/-! ### Division -/

theorem toNat_shiftLeft_or (a b : Word) (hb : b.toNat ≤ 1) :
    ((a <<< 1) ||| b).toNat = 2 * a.toNat % 2 ^ 64 + b.toNat := by
  have hshf : (a <<< 1).toNat = 2 ^ 1 * (a.toNat % 2 ^ 63) := by
    rw [BitVec.toNat_shiftLeft, Nat.shiftLeft_eq]
    omega
  rw [toNat_or, hshf, ← Nat.two_pow_add_eq_or_of_lt (by omega)]
  omega

theorem toNat_shiftRight_and (n : ℕ) : ((a >>> n) &&& 1).toNat = (a.toNat.testBit n).toNat := by
  rw [toNat_and, toNat_ushiftRight, Nat.shiftRight_eq_div_pow, Nat.toNat_testBit]
  exact Nat.and_one_is_mod _

theorem or_two_pow_of_dvd {n bit : ℕ} (h : 2 ^ (bit + 1) ∣ n) : n ||| 2 ^ bit = n + 2 ^ bit := by
  obtain ⟨q, rfl⟩ := h
  exact (Nat.two_pow_add_eq_or_of_lt (Nat.pow_lt_pow_right (by decide) bit.lt_succ_self) q).symm

theorem toNat_or_shiftLeft {a : Word} {bit : ℕ} (hbit : bit < 64) (h : 2 ^ (bit + 1) ∣ a.toNat) :
    (a ||| ((1 : Word) <<< bit)).toNat = a.toNat + 2 ^ bit := by
  have hone : ((1 : Word) <<< bit).toNat = 2 ^ bit := by
    rw [BitVec.toNat_shiftLeft, Nat.shiftLeft_eq, show (1 : Word).toNat = 1 from rfl, Nat.one_mul,
      mod_eq_of_lt (Nat.pow_lt_pow_right (by decide) hbit)]
  rw [toNat_or, hone, or_two_pow_of_dvd h]

theorem Words128.testBit_toNat (x : Words128) (n : ℕ) :
    x.toNat.testBit n = if n < 64 then x.low.toNat.testBit n else x.high.toNat.testBit (n - 64) := by
  rw [toNat, Nat.add_comm, Nat.testBit_two_pow_mul_add _ x.low.isLt]

/-- The quotient and the remainder of a state, as numbers. -/
def u128View (s : U128 × U128) : ℕ × ℕ := (s.1.toNat, s.2.toNat)

theorem u128DivmodStep_eq {dividend divisor : U128} {bit : ℕ} (hbit : bit < 128) {s : U128 × U128}
    (h : LongDivision.DividesTo dividend.toNat divisor.toNat (bit + 1) (u128View s)) :
    u128View (u128DivmodStep dividend divisor bit s) =
      LongDivision.round dividend.toNat divisor.toNat bit (u128View s) := by
  have hnext := h.next_le
  have htop : dividend.toNat / 2 ^ bit < 2 ^ 128 := (Nat.div_le_self _ _).trans_lt dividend.toNat_lt
  have hincoming : (if 64 ≤ bit then (dividend.high >>> (bit - 64)) &&& 1
      else (dividend.low >>> bit) &&& 1 : Word).toNat = (dividend.toNat.testBit bit).toNat := by
    rw [Words128.testBit_toNat]
    split_ifs <;> first | omega | exact toNat_shiftRight_and _ _
  have hone : (dividend.toNat.testBit bit).toNat ≤ 1 := Bool.toNat_le _
  have hlow := toNat_shiftLeft_or s.2.low _ (hincoming.symm ▸ hone)
  have hcarry : (s.2.low >>> 63).toNat = s.2.low.toNat / 2 ^ 63 := by
    rw [toNat_ushiftRight, Nat.shiftRight_eq_div_pow]
  have hlowLt := s.2.low.isLt
  have hhigh := toNat_shiftLeft_or s.2.high (s.2.low >>> 63) (by omega)
  rw [hincoming] at hlow
  rw [hcarry] at hhigh
  have hquot := Nat.dvd_of_mod_eq_zero h.quotient_mod
  unfold u128DivmodStep
  dsimp only [u128View] at hnext hquot ⊢
  generalize (s.2.low <<< 1) ||| (if 64 ≤ bit then (dividend.high >>> (bit - 64)) &&& 1
    else (dividend.low >>> bit) &&& 1 : Word) = low at *
  generalize (s.2.high <<< 1) ||| (s.2.low >>> 63) = high at *
  have hval : low.toNat + 2 ^ 64 * high.toNat = 2 * s.2.toNat + (dividend.toNat.testBit bit).toNat := by
    rw [Words128.toNat] at hnext ⊢
    omega
  have hle : (divisor.high < high ∨ high = divisor.high ∧ divisor.low ≤ low) ↔
      divisor.toNat ≤ 2 * s.2.toNat + (dividend.toNat.testBit bit).toNat := by
    have hdiv := divisor.low.isLt
    have hlowLt := low.isLt
    rw [← hval, lt_def, BitVec.le_def, word_eq_iff, Words128.toNat]
    omega
  by_cases hge : divisor.toNat ≤ 2 * s.2.toNat + (dividend.toNat.testBit bit).toNat
  · rw [if_pos (hle.mpr hge), LongDivision.round_of_le hge]
    refine Prod.ext ?_ ?_
    · have hspl := s.1.low.isLt
      split_ifs with h64
      · obtain ⟨k, rfl⟩ : ∃ k, bit = 64 + k := ⟨bit - 64, by omega⟩
        have hdvd : 2 ^ (k + 1) ∣ s.1.high.toNat := by
          have hpow : 2 ^ (64 + k + 1) = 2 ^ 64 * 2 ^ (k + 1) := by rw [Nat.add_assoc, Nat.pow_add]
          have hzero : s.1.low.toNat = 0 := by
            have : 2 ^ 64 ∣ s.1.toNat := (Dvd.intro _ hpow.symm).trans hquot
            rw [Words128.toNat] at this
            omega
          rw [hpow, Words128.toNat, hzero, Nat.zero_add] at hquot
          exact Nat.dvd_of_mul_dvd_mul_left (by decide) hquot
        dsimp only
        rw [Words128.toNat, Nat.add_sub_cancel_left, toNat_or_shiftLeft (by omega) hdvd,
          Words128.toNat, Nat.pow_add]
        ring
      · have hdvd : 2 ^ (bit + 1) ∣ s.1.low.toNat := by
          have hpow : 2 ^ (bit + 1) ∣ 2 ^ 64 * s.1.high.toNat :=
            (Nat.pow_dvd_pow 2 (by omega)).mul_right _
          exact (Nat.dvd_add_left hpow).mp hquot
        dsimp only
        rw [Words128.toNat, toNat_or_shiftLeft (by omega) hdvd, Words128.toNat]
        ring
    · have hdiv := divisor.low.isLt
      have hdivisorHigh := divisor.high.isLt
      have hlowLt := low.isLt
      have hhighLt := high.isLt
      dsimp only
      rw [← hval] at hge ⊢
      simp only [Words128.toNat, BitVec.toNat_sub, BitVec.toNat_add, toNat_carryBit,
        decide_eq_true_eq, lt_def] at hge ⊢
      split_ifs <;> omega
  · rw [if_neg (fun hif => hge (hle.mp hif)), LongDivision.round_of_not_le hge]
    exact Prod.ext rfl hval

theorem u128Divmod_eq {dividend divisor : U128} (hpos : divisor.toNat ≠ 0) :
    ∃ s : U128 × U128, u128Divmod dividend divisor = .ok s ∧
      s.1.toNat = dividend.toNat / divisor.toNat ∧ s.2.toNat = dividend.toNat % divisor.toNat := by
  rw [u128Divmod, if_neg fun hzero => hpos (divisor.isZero_iff.mp hzero)]
  by_cases hsml : dividend.high = 0 ∧ divisor.high = 0
  · refine ⟨_, if_pos hsml, ?_, ?_⟩ <;>
      simp only [Words128.toNat, hsml.1, hsml.2, toNat_udiv, toNat_umod,
        toNat_zeroWord, mul_zero, Nat.add_zero]
  · have hfst : LongDivision.DividesTo dividend.toNat divisor.toNat 128
        (u128View (u128Zero, u128Zero)) := .start dividend.toNat_lt
    have hview := hfst.loop (Nat.pos_of_ne_zero hpos)
      fun bit hbit s h => u128DivmodStep_eq hbit h
    exact ⟨_, if_neg hsml, congrArg Prod.fst hview, congrArg Prod.snd hview⟩

theorem getD_map_toNat (k : ℕ) : (l.map BitVec.toNat).getD k 0 = (l.getD k 0).toNat := by
  rw [← toNat_zeroWord, getD_map]

theorem testBit_wordsNumber (n : ℕ) :
    (wordsNumber l).testBit n = (l.getD (n / 64) 0).toNat.testBit (n % 64) := by
  rw [wordsNumber, Limbs.testBit_number (by decide) (fits_words l), getD_map_toNat]

theorem wordsNumber_shiftWordsOne {incoming : Word} (h : incoming.toNat ≤ 1) :
    wordsNumber (shiftWordsOne incoming l) ≡ 2 * wordsNumber l + incoming.toNat
      [MOD 2 ^ (64 * l.length)] := by
  induction l generalizing incoming with
  | nil => exact modEq_one
  | cons d l ih =>
    have hd := d.isLt
    have hcarry : (d >>> 63).toNat = d.toNat / 2 ^ 63 := by
      rw [toNat_ushiftRight, Nat.shiftRight_eq_div_pow]
    have hlow := toNat_shiftLeft_or d incoming h
    rw [shiftWordsOne, wordsNumber_cons, wordsNumber_cons, length_cons, Limbs.two_pow_mul_succ]
    have hrest := ih (show (d >>> 63).toNat ≤ 1 by omega)
    refine ((hrest.mul_left' (2 ^ 64)).add_left _).trans ?_
    rw [hlow, hcarry]
    refine congrArg (· % (2 ^ 64 * 2 ^ (64 * l.length))) ?_
    have hspl : 2 * d.toNat = 2 * d.toNat % 2 ^ 64 + 2 ^ 64 * (d.toNat / 2 ^ 63) := by omega
    rw [Nat.mul_add, Nat.mul_add, hspl]
    omega

theorem isAtLeast_iff {l m : List Word} (h : l.length = m.length) :
    isAtLeast l.reverse m.reverse = true ↔ wordsNumber m ≤ wordsNumber l := by
  have hcompare : ∀ l m : List Word, isAtLeast l m = true ↔
      0 ≤ Limbs.compareHigh (l.map BitVec.toNat) (m.map BitVec.toNat) := by
    intro l
    induction l with
    | nil => intro m; cases m <;> exact iff_of_true rfl le_rfl
    | cons r l ih =>
      intro m
      cases m with
      | nil => exact iff_of_true rfl le_rfl
      | cons d m =>
        simp only [isAtLeast, map_cons, Limbs.compareHigh, gt_iff_lt, lt_def]
        split_ifs <;> first | omega | simp [ih]
  rw [hcompare, map_reverse, map_reverse, Limbs.compareHigh_eq (by simpa using h) (w := 64)]
  · simp only [Limbs.numberHigh, reverse_reverse]
    change 0 ≤ (if wordsNumber l = wordsNumber m then 0
      else if wordsNumber l > wordsNumber m then 1 else -1 : ℤ) ↔ _
    split_ifs <;> omega
  · exact fun d hd => fits_words l d (mem_reverse.mp hd)
  · exact fun d hd => fits_words m d (mem_reverse.mp hd)

theorem wordsNumber_modify {f : Word → Word} {e : ℕ} {l : List Word} {k : ℕ} (hk : k < l.length)
    (h : (f (l.getD k 0)).toNat = (l.getD k 0).toNat + e) :
    wordsNumber (l.modify k f) = wordsNumber l + 2 ^ (64 * k) * e := by
  induction l generalizing k with
  | nil => cases hk
  | cons d l ih =>
    cases k with
    | zero =>
      rw [modify_zero_cons, wordsNumber_cons, wordsNumber_cons]
      rw [show (f d).toNat = d.toNat + e from h, mul_zero, Nat.pow_zero]
      omega
    | succ k =>
      rw [modify_succ_cons, wordsNumber_cons, wordsNumber_cons,
        ih (Nat.lt_of_succ_lt_succ hk) h, Limbs.two_pow_mul_succ]
      ring

theorem wordsNumber_div (k : ℕ) : wordsNumber l / 2 ^ (64 * k) = wordsNumber (l.drop k) := by
  induction k generalizing l with
  | zero => rw [mul_zero, Nat.pow_zero, Nat.div_one, drop_zero]
  | succ k ih =>
    cases l with
    | nil => exact Nat.zero_div _
    | cons d l =>
      have hd := d.isLt
      rw [drop_succ_cons, ← ih l, Limbs.two_pow_mul_succ, ← Nat.div_div_eq_div_mul,
        wordsNumber_cons, Nat.add_mul_div_left _ _ (by decide), Nat.div_eq_of_lt hd, Nat.zero_add]

theorem dvd_word {l : List Word} {n : ℕ} (h : 2 ^ (n + 1) ∣ wordsNumber l) :
    2 ^ (n % 64 + 1) ∣ (l.getD (n / 64) 0).toNat := by
  have hspl : n + 1 = 64 * (n / 64) + (n % 64 + 1) := by omega
  obtain ⟨q, hq⟩ := h
  have hdrop : wordsNumber (l.drop (n / 64)) = 2 ^ (n % 64 + 1) * q := by
    rw [← wordsNumber_div, hq, hspl, Nat.pow_add, Nat.mul_assoc,
      Nat.mul_div_cancel_left _ (Nat.two_pow_pos _)]
  have hget : l.getD (n / 64) 0 = (l.drop (n / 64)).getD 0 0 := by
    simp [getD_eq_getElem?_getD]
  rw [hget]
  cases hlist : l.drop (n / 64) with
  | nil => exact Nat.dvd_zero _
  | cons d rest =>
    rw [hlist, wordsNumber_cons] at hdrop
    have hword : 2 ^ (n % 64 + 1) ∣ 2 ^ 64 * wordsNumber rest :=
      (Nat.pow_dvd_pow 2 (by omega)).mul_right _
    exact (Nat.dvd_add_left hword).mp (hdrop ▸ Nat.dvd_mul_right ..)

theorem Words256.toNat_sub_of_le {x y : Words256} (h : y.toNat ≤ x.toNat) :
    (x.sub y).toNat = x.toNat - y.toNat := by
  have hmod := x.toNat_sub y
  rw [← Nat.sub_add_cancel h] at hmod
  have := Nat.ModEq.add_right_cancel' _ hmod
  exact this.eq_of_lt_of_lt (x.sub y).toNat_lt (by have := x.toNat_lt; omega)

/-- The quotient and the remainder of a state, as numbers. -/
def u256View (s : U256 × U256) : ℕ × ℕ := (s.1.toNat, s.2.toNat)

theorem u256DivmodStep_eq {dividend divisor : U256} {i : ℕ} (hi : i < 256) {s : U256 × U256}
    (h : LongDivision.DividesTo dividend.toNat divisor.toNat (i + 1) (u256View s)) :
    u256View (u256DivmodStep dividend divisor i s) =
      LongDivision.round dividend.toNat divisor.toNat i (u256View s) := by
  have hnext := h.next_le
  have htop : dividend.toNat / 2 ^ i < 2 ^ 256 := (Nat.div_le_self _ _).trans_lt dividend.toNat_lt
  have hincoming : ((dividend.w.getD (i / 64) 0 >>> (i % 64)) &&& 1).toNat =
      (dividend.toNat.testBit i).toNat := by
    rw [toNat_shiftRight_and, Words256.toNat, testBit_wordsNumber]
  have hone : (dividend.toNat.testBit i).toNat ≤ 1 := Bool.toNat_le _
  have hshf := wordsNumber_shiftWordsOne s.2.w (hincoming.symm ▸ hone)
  have hquot := Nat.dvd_of_mod_eq_zero h.quotient_mod
  rw [hincoming, s.2.length_w] at hshf
  unfold u256DivmodStep
  dsimp only [u256View] at hnext hquot ⊢
  have hval : (s.2.shiftOne ((dividend.w.getD (i / 64) 0 >>> (i % 64)) &&& 1)).toNat =
      2 * s.2.toNat + (dividend.toNat.testBit i).toNat :=
    Nat.ModEq.eq_of_lt_of_lt hshf (Words256.toNat_lt _) (hnext.trans_lt htop)
  generalize s.2.shiftOne ((dividend.w.getD (i / 64) 0 >>> (i % 64)) &&& 1) = remainder at *
  have hle := isAtLeast_iff (remainder.length_w.trans divisor.length_w.symm)
  change _ ↔ divisor.toNat ≤ remainder.toNat at hle
  rw [hval] at hle
  by_cases hge : divisor.toNat ≤ 2 * s.2.toNat + (dividend.toNat.testBit i).toNat
  · rw [if_pos (hle.mpr hge), LongDivision.round_of_le hge]
    refine Prod.ext ?_ ?_
    · have hmodify := wordsNumber_modify (f := (· ||| ((1 : Word) <<< (i % 64)))) (l := s.1.w)
        (show i / 64 < s.1.w.length by rw [s.1.length_w]; omega)
        (toNat_or_shiftLeft (mod_lt i (by decide)) (dvd_word hquot))
      rw [← Nat.pow_add, Nat.div_add_mod] at hmodify
      exact hmodify
    · dsimp only
      rw [← hval] at hge ⊢
      exact Words256.toNat_sub_of_le hge
  · rw [if_neg fun hif => hge (hle.mp hif), LongDivision.round_of_not_le hge]
    exact Prod.ext rfl hval

theorem Words256.toNat_of_fitsWord {x : Words256} (h : x.fitsWord = true) :
    x.toNat = (x.w.getD 0 0).toNat := by
  obtain ⟨a, b, c, d, hw⟩ := x.exists_words
  rw [fitsWord, hw] at h
  simp only [drop_succ_cons, drop_zero, all_cons, all_nil, Bool.and_true,
    Bool.and_eq_true, beq_iff_eq] at h
  rw [toNat_of_words hw, hw, h.1, h.2.1, h.2.2, toNat_zeroWord]
  rfl

theorem toNat_oneWord : (⟨[a, 0, 0, 0], rfl⟩ : Words256).toNat = a.toNat := by
  rw [Words256.toNat_of_words rfl, toNat_zeroWord]
  rfl

theorem toNat_u256Zero : u256Zero.toNat = 0 := by decide

theorem u256Divmod_eq {dividend divisor : U256} (hpos : divisor.toNat ≠ 0) :
    ∃ s : U256 × U256, u256Divmod dividend divisor = .ok s ∧
      s.1.toNat = dividend.toNat / divisor.toNat ∧ s.2.toNat = dividend.toNat % divisor.toNat := by
  rw [u256Divmod, if_neg fun hzero => hpos (divisor.isZero_iff.mp hzero)]
  by_cases hsml : (dividend.fitsWord && divisor.fitsWord) = true
  · have hfits := Bool.and_eq_true_iff.mp hsml
    refine ⟨_, if_pos hsml, ?_, ?_⟩
    · rw [toNat_oneWord, Words256.toNat_of_fitsWord hfits.1, Words256.toNat_of_fitsWord hfits.2,
        toNat_udiv]
    · rw [toNat_oneWord, Words256.toNat_of_fitsWord hfits.1, Words256.toNat_of_fitsWord hfits.2,
        toNat_umod]
  · have hst : u256View (u256Zero, u256Zero) = (0, 0) := Prod.ext toNat_u256Zero toNat_u256Zero
    have hfst : LongDivision.DividesTo dividend.toNat divisor.toNat 256
        (u256View (u256Zero, u256Zero)) := by
      rw [hst]
      exact .start dividend.toNat_lt
    have hview := hfst.loop (Nat.pos_of_ne_zero hpos)
      fun i hi s h => u256DivmodStep_eq hi h
    rw [if_neg hsml]
    generalize LongDivision.loop (u256DivmodStep dividend divisor) 256 (u256Zero, u256Zero) = s
      at hview
    exact ⟨s, rfl, congrArg Prod.fst hview, congrArg Prod.snd hview⟩

end Grayscale
