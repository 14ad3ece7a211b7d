import Grayscale.Runtime.WideIntegerLaws

/-!
# Casts of wide integers

The casts between i128, u128, i256 and u256, and the narrowings to i64 and u64, on words. The casts
share one loop over bits; the narrowings test words.
-/

namespace Grayscale

open List

/-- The words of `source`, sign-extended to 256 bits. -/
def extendWords (source : List Word) (isNegative : Bool) : Words256 where
  w := (List.range 4).map fun i =>
    if i < source.length then source.getD i 0 else if isNegative then ~~~0 else 0
  length_w := rfl

def wideCastWords (source : List Word) (sourceSigned : Bool) (destinationBits : ℕ)
    (destinationSigned : Bool) : Except String Words256 :=
  let isNegative := sourceSigned && (source.getLastD 0).msb
  let out := extendWords source isNegative
  -- The sign bit of the destination, and every bit above it, must agree with the sign.
  let firstCheckedBit := if destinationSigned then destinationBits - 1 else destinationBits
  let isInRange := (!isNegative || destinationSigned) &&
    (List.range' firstCheckedBit (256 - firstCheckedBit)).all fun bit =>
      (((out.w.getD (bit / 64) 0 >>> (bit % 64)) &&& 1) != 0) == isNegative
  if isInRange then .ok out else .error "P0138"

/-- The words, the lowest first. -/
def Words128.words (x : Words128) : List Word := [x.low, x.high]

/-- `words[0]` and `words[1]`. -/
def Words256.lowWords (x : Words256) : Words128 := ⟨x.w.getD 0 0, x.w.getD 1 0⟩

def castI128ToU128 (value : I128) : Except String U128 :=
  (wideCastWords value.words true 128 false).map Words256.lowWords

def castI128ToI256 (value : I128) : Except String I256 := wideCastWords value.words true 256 true

def castI128ToU256 (value : I128) : Except String U256 := wideCastWords value.words true 256 false

def castU128ToI128 (value : U128) : Except String I128 :=
  (wideCastWords value.words false 128 true).map Words256.lowWords

def castU128ToI256 (value : U128) : Except String I256 := wideCastWords value.words false 256 true

def castU128ToU256 (value : U128) : Except String U256 := wideCastWords value.words false 256 false

def castI256ToI128 (value : I256) : Except String I128 :=
  (wideCastWords value.w true 128 true).map Words256.lowWords

def castI256ToU128 (value : I256) : Except String U128 :=
  (wideCastWords value.w true 128 false).map Words256.lowWords

def castI256ToU256 (value : I256) : Except String U256 := wideCastWords value.w true 256 false

def castU256ToI128 (value : U256) : Except String I128 :=
  (wideCastWords value.w false 128 true).map Words256.lowWords

def castU256ToU128 (value : U256) : Except String U128 :=
  (wideCastWords value.w false 128 false).map Words256.lowWords

def castU256ToI256 (value : U256) : Except String I256 := wideCastWords value.w false 256 true

/-! ### Narrowing and widening -/

/-- `(int64_t)word >> 63`. -/
def signExtension (word : Word) : Word := word.sshiftRight 63

/-- `(uint64_t)INT64_MAX`. -/
def int64Max : Word := 0x7FFFFFFFFFFFFFFF

def i128ToI64 (value : I128) : Except String Word :=
  if value.high ≠ signExtension value.low then .error "P0093" else .ok value.low

def i128ToU64 (value : I128) : Except String Word :=
  if value.high ≠ 0 then .error "P0094" else .ok value.low

def u128ToI64 (value : U128) : Except String Word :=
  if value.high ≠ 0 ∨ int64Max < value.low then .error "P0095" else .ok value.low

def u128ToU64 (value : U128) : Except String Word :=
  if value.high ≠ 0 then .error "P0096" else .ok value.low

def i256ToI64 (value : I256) : Except String Word :=
  if value.w.getD 1 0 ≠ signExtension (value.w.getD 0 0) ∨
      value.w.getD 2 0 ≠ signExtension (value.w.getD 0 0) ∨
      value.w.getD 3 0 ≠ signExtension (value.w.getD 0 0) then .error "P0097"
  else .ok (value.w.getD 0 0)

def i256ToU64 (value : I256) : Except String Word :=
  if value.w.getD 1 0 ≠ 0 ∨ value.w.getD 2 0 ≠ 0 ∨ value.w.getD 3 0 ≠ 0 then .error "P0098"
  else .ok (value.w.getD 0 0)

def u256ToI64 (value : U256) : Except String Word :=
  if value.w.getD 1 0 ≠ 0 ∨ value.w.getD 2 0 ≠ 0 ∨ value.w.getD 3 0 ≠ 0 ∨
      int64Max < value.w.getD 0 0 then .error "P0099"
  else .ok (value.w.getD 0 0)

def u256ToU64 (value : U256) : Except String Word :=
  if value.w.getD 1 0 ≠ 0 ∨ value.w.getD 2 0 ≠ 0 ∨ value.w.getD 3 0 ≠ 0 then .error "P0100"
  else .ok (value.w.getD 0 0)

/-- The words above the lowest of a value that is widened from an `int64_t`. -/
def signWord (value : Word) : Word := if value.msb then ~~~0 else 0

def i128FromI64 (value : Word) : I128 := ⟨value, signWord value⟩

def i128FromU64 (value : Word) : I128 := ⟨value, 0⟩

def u128FromU64 (value : Word) : U128 := ⟨value, 0⟩

def i256FromI64 (value : Word) : I256 :=
  ⟨[value, signWord value, signWord value, signWord value], rfl⟩

def i256FromU64 (value : Word) : I256 := ⟨[value, 0, 0, 0], length_oneWord value⟩

def u256FromU64 (value : Word) : U256 := ⟨[value, 0, 0, 0], length_oneWord value⟩

/-! ### The shared loop -/

/-- The words hold the integer up to `2 ^ 256`. -/
def Holds (out : Words256) (v : ℤ) : Prop := (out.toNat : ℤ) = if v < 0 then v + 2 ^ 256 else v

theorem Holds.testBit {out : Words256} {v : ℤ} (h : Holds out v) {bit : ℕ} (hbit : bit < 256) :
    (((out.w.getD (bit / 64) 0 >>> (bit % 64)) &&& 1) != 0) = v.testBit bit := by
  have hword : (((out.w.getD (bit / 64) 0 >>> (bit % 64)) &&& 1) != 0) = out.toNat.testBit bit := by
    rw [Words256.toNat, testBit_wordsNumber, Bool.eq_iff_iff, bne_iff_ne, Ne, word_eq_iff,
      toNat_shiftRight_and, toNat_zeroWord]
    cases (out.w.getD (bit / 64) 0).toNat.testBit (bit % 64) <;> simp
  rw [hword]
  have hlt := out.toNat_lt
  rw [Holds] at h
  cases v with
  | ofNat n =>
    have hn : out.toNat = n := by
      rw [Int.ofNat_eq_natCast, if_neg (by omega)] at h
      exact_mod_cast h
    rw [hn]
    rfl
  | negSucc n =>
    have hn : out.toNat = 2 ^ 256 - (n + 1) := by
      rw [if_pos (Int.negSucc_lt_zero n), Int.negSucc_eq] at h
      omega
    have hbnd : n < 2 ^ 256 := by
      rw [if_pos (Int.negSucc_lt_zero n), Int.negSucc_eq] at h
      omega
    rw [hn, Nat.testBit_two_pow_sub_succ hbnd, decide_eq_true hbit, Bool.true_and]
    rfl

theorem castWords_eq {S T : ScalarType} (hS : S.isWide = true) (hT : T.isWide = true)
    {source : List Word} {v : ℤ} (hv : S.format.Contains v)
    (hneg : (S.isSigned && (source.getLastD 0).msb) = decide (v < 0))
    (hout : Holds (extendWords source (decide (v < 0))) v) :
    wideCastWords source S.isSigned T.bits T.isSigned =
      if T.format.Contains v then .ok (extendWords source (decide (v < 0))) else .error "P0138" := by
  have hcast := wideCast_eq hS hT hv
  have htest : ∀ first, ((List.range' first (256 - first)).all fun bit =>
      ((((extendWords source (decide (v < 0))).w.getD (bit / 64) 0 >>> (bit % 64)) &&& 1) != 0) ==
        decide (v < 0)) =
      (List.range' first (256 - first)).all fun bit => v.testBit bit == decide (v < 0) := by
    intro first
    rw [Bool.eq_iff_iff, all_eq_true, all_eq_true]
    refine forall₂_congr fun bit hbit => ?_
    have hlt := (mem_range'_1.mp hbit).2
    have hge := (mem_range'_1.mp hbit).1
    rw [← hout.testBit (show bit < 256 by omega)]
  rw [wideCast] at hcast
  simp only [wideCastWords, hneg, htest]
  generalize ((!decide (v < 0) || T.isSigned) && (List.range'
    (if T.isSigned = true then T.bits - 1 else T.bits)
    (256 - if T.isSigned = true then T.bits - 1 else T.bits)).all
      fun bit => v.testBit bit == decide (v < 0)) = inRange at *
  by_cases hin : T.format.Contains v
  · rw [if_pos hin] at hcast ⊢
    cases inRange with
    | false => cases hcast
    | true => rfl
  · rw [if_neg hin] at hcast ⊢
    cases inRange with
    | false => rfl
    | true => cases hcast

theorem Holds.modEq {out : Words256} {v : ℤ} (h : Holds out v) :
    (out.toNat : ℤ) ≡ v [ZMOD 2 ^ 256] := by
  rw [Holds] at h
  rw [h]
  split_ifs
  · exact Int.add_modEq_right
  · rfl

theorem Words256.toNat_lowWords (x : Words256) :
    (x.lowWords.toNat : ℤ) ≡ x.toNat [ZMOD 2 ^ 128] := by
  obtain ⟨a, b, c, d, h⟩ := x.exists_words
  have ha := a.isLt
  have hb := b.isLt
  rw [toNat_of_words h, lowWords, h, Words128.toNat]
  simp only [getD_cons_zero, getD_cons_succ, Int.ModEq]
  push_cast
  omega

section Sources

variable {S T : ScalarType} {source : List Word} {v : ℤ}

theorem castWords_128 (hS : S.isWide = true) (hT : T.isWide = true) (hbits : T.bits = 128)
    (hv : S.format.Contains v) (hneg : (S.isSigned && (source.getLastD 0).msb) = decide (v < 0))
    (hout : Holds (extendWords source (decide (v < 0))) v) :
    ((wideCastWords source S.isSigned 128 T.isSigned).map Words256.lowWords).map
        (Words128.value T) = if T.format.Contains v then .ok v else .error "P0138" := by
  rw [← hbits, castWords_eq hS hT hv hneg hout]
  by_cases h : T.format.Contains v
  · rw [if_pos h, if_pos h]
    have hsize : T.format.size = 2 ^ 128 := size_128 hbits
    have hdvd : (2 ^ 128 : ℤ) ∣ 2 ^ 256 := ⟨2 ^ 128, by norm_num⟩
    have hmod := (Words256.toNat_lowWords _).trans (hout.modEq.of_dvd hdvd)
    rw [← hsize] at hmod
    exact congrArg Except.ok ((convert_congr hmod).trans (convert_of_contains h))
  · rw [if_neg h, if_neg h]
    rfl

theorem castWords_256 (hS : S.isWide = true) (hT : T.isWide = true) (hbits : T.bits = 256)
    (hv : S.format.Contains v) (hneg : (S.isSigned && (source.getLastD 0).msb) = decide (v < 0))
    (hout : Holds (extendWords source (decide (v < 0))) v) :
    (wideCastWords source S.isSigned 256 T.isSigned).map (Words256.value T) =
      if T.format.Contains v then .ok v else .error "P0138" := by
  rw [← hbits, castWords_eq hS hT hv hneg hout]
  by_cases h : T.format.Contains v
  · rw [if_pos h, if_pos h]
    have hmod := hout.modEq
    rw [← show T.format.size = 2 ^ 256 from size_256 hbits] at hmod
    exact congrArg Except.ok ((convert_congr hmod).trans (convert_of_contains h))
  · rw [if_neg h, if_neg h]
    rfl

end Sources

/-! ### The sources -/

theorem value_u128 (x : U128) : x.value .u128 = x.toNat :=
  (dividing_128 rfl).value_of_unsigned rfl x

theorem value_u256 (x : U256) : x.value .u256 = x.toNat :=
  (dividing_256 rfl).value_of_unsigned rfl x

theorem value_i128 (x : I128) :
    x.value .i128 = if x.high.msb then (x.toNat : ℤ) - 2 ^ 128 else (x.toNat : ℤ) := by
  split_ifs with h
  · exact signed_i128.value_of_isNeg (dividing_128 rfl) h
  · exact signed_i128.value_of_not_isNeg h

theorem value_i256 (x : I256) :
    x.value .i256 = if (x.w.getD 3 0).msb then (x.toNat : ℤ) - 2 ^ 256 else (x.toNat : ℤ) := by
  split_ifs with h
  · exact signed_i256.value_of_isNeg (dividing_256 rfl) h
  · exact signed_i256.value_of_not_isNeg h

theorem extendWords_128 (x : Words128) (isNegative : Bool) :
    ((extendWords x.words isNegative).toNat : ℤ) =
      x.toNat + if isNegative then 2 ^ 256 - 2 ^ 128 else 0 := by
  have hw : (extendWords x.words isNegative).w = [x.low, x.high, if isNegative then ~~~0 else 0,
    if isNegative then ~~~0 else 0] := rfl
  rw [Words256.toNat_of_words hw, Words128.toNat]
  cases isNegative with
  | false =>
    rw [if_neg Bool.false_ne_true, if_neg Bool.false_ne_true, toNat_zeroWord]
    push_cast
    omega
  | true =>
    rw [if_pos rfl, if_pos rfl, show (~~~0 : Word).toNat = 2 ^ 64 - 1 from rfl]
    push_cast
    omega

theorem extendWords_256 (x : Words256) (isNegative : Bool) : extendWords x.w isNegative = x := by
  obtain ⟨a, b, c, d, h⟩ := x.exists_words
  have hw : (extendWords x.w isNegative).w = x.w := by
    rw [h]
    rfl
  cases x
  exact (Words256.mk.injEq ..).mpr hw

theorem source_i128 (x : I128) : ((x.words.getLastD 0).msb = decide (x.value .i128 < 0)) ∧
    Holds (extendWords x.words (decide (x.value .i128 < 0))) (x.value .i128) := by
  have hsign : (x.words.getLastD 0).msb = decide (x.value .i128 < 0) := by
    rw [Bool.eq_iff_iff, decide_eq_true_eq]
    exact signed_i128.isNeg_iff_value (dividing_128 rfl) x
  refine ⟨hsign, ?_⟩
  have hlt := x.toNat_lt
  have hval := value_i128 x
  rw [show x.high.msb = decide (x.value .i128 < 0) from hsign] at hval
  rw [Holds, extendWords_128]
  simp only [decide_eq_true_eq] at hval ⊢
  split_ifs at hval ⊢ <;> omega

theorem source_u128 (x : U128) : (false = decide (x.value .u128 < 0)) ∧
    Holds (extendWords x.words (decide (x.value .u128 < 0))) (x.value .u128) := by
  have hsign : ¬ x.value .u128 < 0 := by
    rw [value_u128]
    omega
  rw [Holds, extendWords_128, decide_eq_false hsign, if_neg hsign, value_u128]
  exact ⟨rfl, add_zero _⟩

theorem source_i256 (x : I256) : ((x.w.getLastD 0).msb = decide (x.value .i256 < 0)) ∧
    Holds (extendWords x.w (decide (x.value .i256 < 0))) (x.value .i256) := by
  have hlast : x.w.getLastD 0 = x.w.getD 3 0 := by
    obtain ⟨a, b, c, d, h⟩ := x.exists_words
    rw [h]
    rfl
  have hsign : (x.w.getD 3 0).msb = decide (x.value .i256 < 0) := by
    rw [Bool.eq_iff_iff, decide_eq_true_eq]
    exact signed_i256.isNeg_iff_value (dividing_256 rfl) x
  refine ⟨hlast ▸ hsign, ?_⟩
  have hlt := x.toNat_lt
  have hval := value_i256 x
  rw [hsign] at hval
  rw [Holds, extendWords_256]
  simp only [decide_eq_true_eq] at hval ⊢
  split_ifs at hval ⊢ <;> omega

theorem source_u256 (x : U256) : (false = decide (x.value .u256 < 0)) ∧
    Holds (extendWords x.w (decide (x.value .u256 < 0))) (x.value .u256) := by
  have hsign : ¬ x.value .u256 < 0 := by
    rw [value_u256]
    omega
  rw [Holds, extendWords_256, decide_eq_false hsign, if_neg hsign, value_u256]
  exact ⟨rfl, rfl⟩

/-! ### The narrowings -/

variable (a : Word)

theorem toNat_signExtension :
    (signExtension a).toNat = if 2 ^ 63 ≤ a.toNat then 2 ^ 64 - 1 else 0 := by
  have ha := a.isLt
  have hmsb := BitVec.msb_eq_decide a
  rw [signExtension]
  split_ifs with h
  · rw [BitVec.sshiftRight_eq_of_msb_true (hmsb.trans (decide_eq_true h)), BitVec.toNat_not,
      BitVec.toNat_ushiftRight, Nat.shiftRight_eq_div_pow, BitVec.toNat_not]
    omega
  · rw [BitVec.sshiftRight_eq_of_msb_false (hmsb.trans (decide_eq_false h)),
      BitVec.toNat_ushiftRight, Nat.shiftRight_eq_div_pow]
    omega

theorem signWord_eq : signWord a = signExtension a := by
  rw [word_eq_iff, toNat_signExtension, signWord, BitVec.msb_eq_decide]
  simp only [decide_eq_true_eq]
  change (if 2 ^ 63 ≤ a.toNat then (~~~0 : Word) else 0).toNat = _
  split_ifs <;> rfl

theorem narrow_eq {test : Prop} [Decidable test] {T : ScalarType} {v : ℤ} {a : Word} {f : Word → ℤ}
    (htest : test ↔ ¬ T.format.Contains v) (hval : T.format.Contains v → f a = v)
    (code : String) : ((if test then .error code else .ok a : Except String Word).map f) =
      if T.format.Contains v then .ok v else .error code := by
  by_cases h : T.format.Contains v
  · rw [if_neg fun ht => htest.mp ht h, if_pos h]
    exact congrArg Except.ok (hval h)
  · rw [if_pos (htest.mpr h), if_neg h]
    rfl

def Narrows {α : Type} (T : ScalarType) (value : α → ℤ) (read : Word → ℤ)
    (narrow : α → Except String Word) (code : String) : Prop :=
  ∀ x, (narrow x).map read = if T.format.Contains (value x) then .ok (value x) else .error code

theorem i128_narrows : Narrows .i64 (Words128.value .i128) BitVec.toInt i128ToI64 "P0093" ∧
    Narrows .u64 (Words128.value .i128) (fun a => a.toNat) i128ToU64 "P0094" := by
  refine ⟨fun x => ?_, fun x => ?_⟩ <;>
    have hlow := x.low.isLt <;> have hhigh := x.high.isLt <;> have hval := value_i128 x <;>
    rw [BitVec.msb_eq_decide, Words128.toNat] at hval <;>
    simp only [decide_eq_true_eq] at hval <;> push_cast at hval
  · refine narrow_eq ?_ ?_ "P0093"
    · rw [Ne, word_eq_iff, toNat_signExtension, contains_i64_iff, hval]
      split_ifs <;> omega
    · rw [contains_i64_iff, hval, BitVec.toInt_eq_toNat_cond]
      split_ifs <;> omega
  · refine narrow_eq ?_ ?_ "P0094"
    · rw [Ne, word_eq_iff, toNat_zeroWord, contains_u64_iff, hval]
      split_ifs <;> omega
    · rw [contains_u64_iff, hval]
      split_ifs <;> omega

theorem u128_narrows : Narrows .i64 (Words128.value .u128) BitVec.toInt u128ToI64 "P0095" ∧
    Narrows .u64 (Words128.value .u128) (fun a => a.toNat) u128ToU64 "P0096" := by
  refine ⟨fun x => ?_, fun x => ?_⟩ <;>
    have hlow := x.low.isLt <;> have hhigh := x.high.isLt <;> have hval := value_u128 x <;>
    rw [Words128.toNat] at hval <;> push_cast at hval
  · refine narrow_eq ?_ ?_ "P0095"
    · rw [Ne, word_eq_iff, toNat_zeroWord, contains_i64_iff, hval, BitVec.lt_def,
        show int64Max.toNat = 2 ^ 63 - 1 from rfl]
      omega
    · rw [contains_i64_iff, hval, BitVec.toInt_eq_toNat_cond]
      split_ifs <;> omega
  · refine narrow_eq ?_ ?_ "P0096"
    · rw [Ne, word_eq_iff, toNat_zeroWord, contains_u64_iff, hval]
      omega
    · rw [contains_u64_iff, hval]
      omega

theorem i256_narrows : Narrows .i64 (Words256.value .i256) BitVec.toInt i256ToI64 "P0097" ∧
    Narrows .u64 (Words256.value .i256) (fun a => a.toNat) i256ToU64 "P0098" := by
  refine ⟨fun x => ?_, fun x => ?_⟩ <;>
    obtain ⟨a, b, c, d, h⟩ := x.exists_words <;>
    have ha := a.isLt <;> have hb := b.isLt <;> have hc := c.isLt <;> have hd := d.isLt <;>
    have hval := value_i256 x <;>
    rw [BitVec.msb_eq_decide, Words256.toNat_of_words h, h] at hval <;>
    simp only [getD_cons_zero, getD_cons_succ, decide_eq_true_eq] at hval <;>
    push_cast at hval
  · rw [i256ToI64, h]
    refine narrow_eq ?_ ?_ "P0097"
    · simp only [getD_cons_zero, getD_cons_succ, ne_eq, word_eq_iff, toNat_signExtension]
      rw [contains_i64_iff, hval]
      split_ifs <;> omega
    · rw [contains_i64_iff, hval, getD_cons_zero, BitVec.toInt_eq_toNat_cond]
      split_ifs <;> omega
  · rw [i256ToU64, h]
    refine narrow_eq ?_ ?_ "P0098"
    · simp only [getD_cons_zero, getD_cons_succ, ne_eq, word_eq_iff, toNat_zeroWord]
      rw [contains_u64_iff, hval]
      split_ifs <;> omega
    · rw [contains_u64_iff, hval, getD_cons_zero]
      split_ifs <;> omega

theorem u256_narrows : Narrows .i64 (Words256.value .u256) BitVec.toInt u256ToI64 "P0099" ∧
    Narrows .u64 (Words256.value .u256) (fun a => a.toNat) u256ToU64 "P0100" := by
  refine ⟨fun x => ?_, fun x => ?_⟩ <;>
    obtain ⟨a, b, c, d, h⟩ := x.exists_words <;>
    have ha := a.isLt <;> have hb := b.isLt <;> have hc := c.isLt <;> have hd := d.isLt <;>
    have hval := value_u256 x <;>
    rw [Words256.toNat_of_words h] at hval <;> push_cast at hval
  · rw [u256ToI64, h]
    refine narrow_eq ?_ ?_ "P0099"
    · simp only [getD_cons_zero, getD_cons_succ, ne_eq, word_eq_iff, toNat_zeroWord,
        BitVec.lt_def, show int64Max.toNat = 2 ^ 63 - 1 from rfl]
      rw [contains_i64_iff, hval]
      omega
    · rw [contains_i64_iff, hval, getD_cons_zero, BitVec.toInt_eq_toNat_cond]
      split_ifs <;> omega
  · rw [u256ToU64, h]
    refine narrow_eq ?_ ?_ "P0100"
    · simp only [getD_cons_zero, getD_cons_succ, ne_eq, word_eq_iff, toNat_zeroWord]
      rw [contains_u64_iff, hval]
      omega
    · rw [contains_u64_iff, hval, getD_cons_zero]
      omega

/-! ### Keeping the value -/

section Keeping

variable {α β : Type}

/-- A cast keeps the value or panics. -/
def CastKeeps (T : ScalarType) (value : α → ℤ) (valueT : β → ℤ) (cast : α → Except String β) :
    Prop := ∀ x, (cast x).map valueT =
    if T.format.Contains (value x) then .ok (value x) else .error "P0138"

/-- The casts between two types keep the value or panic, and each undoes the other. -/
structure CastsKeep (S T : ScalarType) (value : α → ℤ) (valueT : β → ℤ)
    (cast : α → Except String β) (back : β → Except String α) : Prop where
  keeps : CastKeeps T value valueT cast
  keeps_back : CastKeeps S valueT value back
  undo : ∀ x y, cast x = .ok y → back y = .ok x
  undo_back : ∀ y x, back y = .ok x → cast x = .ok y

theorem CastKeeps.eq_of_ok {T : ScalarType} {value : α → ℤ} {valueT : β → ℤ}
    {cast : α → Except String β} (h : CastKeeps T value valueT cast) {x : α} {y : β}
    (hxy : cast x = .ok y) : valueT y = value x := by
  have hx := h x
  rw [hxy] at hx
  split_ifs at hx
  · exact Except.ok.inj hx
  · cases hx

theorem CastKeeps.exists_of_contains {T : ScalarType} {value : α → ℤ} {valueT : β → ℤ}
    {cast : α → Except String β} (h : CastKeeps T value valueT cast) {x : α}
    (hx : T.format.Contains (value x)) : ∃ y, cast x = .ok y ∧ valueT y = value x := by
  have hcast := h x
  rw [if_pos hx] at hcast
  cases hres : cast x with
  | error code =>
    rw [hres] at hcast
    cases hcast
  | ok y => exact ⟨y, rfl, h.eq_of_ok hres⟩

variable {S T : ScalarType} {value : α → ℤ} {valueT : β → ℤ} {cast : α → Except String β}
  {back : β → Except String α}

theorem CastKeeps.undo (h : CastKeeps T value valueT cast)
    (hback : CastKeeps S valueT value back) (hinj : ∀ x y, value x = value y → x = y)
    (hin : ∀ x, S.format.Contains (value x)) (x : α) (y : β) (hxy : cast x = .ok y) :
    back y = .ok x := by
  have hval := h.eq_of_ok hxy
  obtain ⟨z, hz, hzy⟩ := hback.exists_of_contains (hval.symm ▸ hin x)
  rw [hz, hinj z x (hzy.trans hval)]

theorem CastsKeep.of (hcast : CastKeeps T value valueT cast)
    (hback : CastKeeps S valueT value back) (hS : ∀ x y, value x = value y → x = y)
    (hT : ∀ x y, valueT x = valueT y → x = y) (hval : ∀ x, S.format.Contains (value x))
    (hvalueT : ∀ x, T.format.Contains (valueT x)) : CastsKeep S T value valueT cast back :=
  ⟨hcast, hback, hcast.undo hback hS hval, hback.undo hcast hT hvalueT⟩

theorem CastsKeep.widen
    (h : CastsKeep S T value valueT cast back) (hin : ∀ x, T.format.Contains (value x))
    (x : α) : (cast x >>= back) = .ok x := by
  obtain ⟨y, hy, -⟩ := h.keeps.exists_of_contains (hin x)
  rw [hy]
  exact h.undo x y hy

end Keeping

theorem value_injective_128 {T : ScalarType} (h : T.bits = 128) (x y : Words128)
    (hxy : x.value T = y.value T) : x = y := (dividing_128 h).value_injective hxy

theorem value_injective_256 {T : ScalarType} (h : T.bits = 256) (x y : Words256)
    (hxy : x.value T = y.value T) : x = y := (dividing_256 h).value_injective hxy

theorem castKeeps_i128_u128 :
    CastsKeep .i128 .u128 (Words128.value .i128) (Words128.value .u128) castI128ToU128
      castU128ToI128 :=
  .of (fun x => castWords_128 rfl rfl rfl (contains_convert .i128 _) (source_i128 x).1
      (source_i128 x).2)
    (fun x => castWords_128 rfl rfl rfl (contains_convert .u128 _) (source_u128 x).1
      (source_u128 x).2)
    (value_injective_128 rfl) (value_injective_128 rfl) (fun _ => contains_convert .i128 _)
    fun _ => contains_convert .u128 _

theorem castKeeps_i128_i256 :
    CastsKeep .i128 .i256 (Words128.value .i128) (Words256.value .i256) castI128ToI256
      castI256ToI128 :=
  .of (fun x => castWords_256 rfl rfl rfl (contains_convert .i128 _) (source_i128 x).1
      (source_i128 x).2)
    (fun x => castWords_128 rfl rfl rfl (contains_convert .i256 _) (source_i256 x).1
      (source_i256 x).2)
    (value_injective_128 rfl) (value_injective_256 rfl) (fun _ => contains_convert .i128 _)
    fun _ => contains_convert .i256 _

theorem castKeeps_i128_u256 :
    CastsKeep .i128 .u256 (Words128.value .i128) (Words256.value .u256) castI128ToU256
      castU256ToI128 :=
  .of (fun x => castWords_256 rfl rfl rfl (contains_convert .i128 _) (source_i128 x).1
      (source_i128 x).2)
    (fun x => castWords_128 rfl rfl rfl (contains_convert .u256 _) (source_u256 x).1
      (source_u256 x).2)
    (value_injective_128 rfl) (value_injective_256 rfl) (fun _ => contains_convert .i128 _)
    fun _ => contains_convert .u256 _

theorem castKeeps_u128_i256 :
    CastsKeep .u128 .i256 (Words128.value .u128) (Words256.value .i256) castU128ToI256
      castI256ToU128 :=
  .of (fun x => castWords_256 rfl rfl rfl (contains_convert .u128 _) (source_u128 x).1
      (source_u128 x).2)
    (fun x => castWords_128 rfl rfl rfl (contains_convert .i256 _) (source_i256 x).1
      (source_i256 x).2)
    (value_injective_128 rfl) (value_injective_256 rfl) (fun _ => contains_convert .u128 _)
    fun _ => contains_convert .i256 _

theorem castKeeps_u128_u256 :
    CastsKeep .u128 .u256 (Words128.value .u128) (Words256.value .u256) castU128ToU256
      castU256ToU128 :=
  .of (fun x => castWords_256 rfl rfl rfl (contains_convert .u128 _) (source_u128 x).1
      (source_u128 x).2)
    (fun x => castWords_128 rfl rfl rfl (contains_convert .u256 _) (source_u256 x).1
      (source_u256 x).2)
    (value_injective_128 rfl) (value_injective_256 rfl) (fun _ => contains_convert .u128 _)
    fun _ => contains_convert .u256 _

theorem castKeeps_i256_u256 :
    CastsKeep .i256 .u256 (Words256.value .i256) (Words256.value .u256) castI256ToU256
      castU256ToI256 :=
  .of (fun x => castWords_256 rfl rfl rfl (contains_convert .i256 _) (source_i256 x).1
      (source_i256 x).2)
    (fun x => castWords_256 rfl rfl rfl (contains_convert .u256 _) (source_u256 x).1
      (source_u256 x).2)
    (value_injective_256 rfl) (value_injective_256 rfl) (fun _ => contains_convert .i256 _)
    fun _ => contains_convert .u256 _

theorem contains_widen {S T : ScalarType} (hlow : T.format.min ≤ S.format.min)
    (hhigh : S.format.min + S.format.size ≤ T.format.min + T.format.size) (n : ℤ) :
    T.format.Contains (convert S n) := by
  obtain ⟨h₁, h₂⟩ := contains_convert S n
  exact ⟨hlow.trans h₁, h₂.trans_le hhigh⟩

theorem narrow_signExtension :
    i128ToI64 (i128FromI64 a) = .ok a ∧ i256ToI64 (i256FromI64 a) = .ok a := by
  simp only [i128ToI64, i128FromI64, i256ToI64, i256FromI64, signWord_eq, getD_cons_zero,
    getD_cons_succ, ne_eq, not_true_eq_false, or_self, if_false, and_self]

/-- Casts between wide types and narrowings to words keep the value or panic, so that a value that
is widened and narrowed back is the same. -/
theorem wide_casts_keep :
    (CastsKeep .i128 .u128 (Words128.value .i128) (Words128.value .u128) castI128ToU128
        castU128ToI128 ∧
      CastsKeep .i128 .i256 (Words128.value .i128) (Words256.value .i256) castI128ToI256
        castI256ToI128 ∧
      CastsKeep .i128 .u256 (Words128.value .i128) (Words256.value .u256) castI128ToU256
        castU256ToI128 ∧
      CastsKeep .u128 .i256 (Words128.value .u128) (Words256.value .i256) castU128ToI256
        castI256ToU128 ∧
      CastsKeep .u128 .u256 (Words128.value .u128) (Words256.value .u256) castU128ToU256
        castU256ToU128 ∧
      CastsKeep .i256 .u256 (Words256.value .i256) (Words256.value .u256) castI256ToU256
        castU256ToI256) ∧ ((∀ x, (castI128ToI256 x >>= castI256ToI128) = .ok x) ∧
      (∀ x, (castU128ToI256 x >>= castI256ToU128) = .ok x) ∧
      ∀ x, (castU128ToU256 x >>= castU256ToU128) = .ok x) ∧
    (Narrows .i64 (Words128.value .i128) BitVec.toInt i128ToI64 "P0093" ∧
      Narrows .u64 (Words128.value .i128) (fun a => a.toNat) i128ToU64 "P0094" ∧
      Narrows .i64 (Words128.value .u128) BitVec.toInt u128ToI64 "P0095" ∧
      Narrows .u64 (Words128.value .u128) (fun a => a.toNat) u128ToU64 "P0096" ∧
      Narrows .i64 (Words256.value .i256) BitVec.toInt i256ToI64 "P0097" ∧
      Narrows .u64 (Words256.value .i256) (fun a => a.toNat) i256ToU64 "P0098" ∧
      Narrows .i64 (Words256.value .u256) BitVec.toInt u256ToI64 "P0099" ∧
      Narrows .u64 (Words256.value .u256) (fun a => a.toNat) u256ToU64 "P0100") ∧
    ∀ a, i128ToI64 (i128FromI64 a) = .ok a ∧ i256ToI64 (i256FromI64 a) = .ok a ∧
      i128ToU64 (i128FromU64 a) = .ok a ∧ u128ToU64 (u128FromU64 a) = .ok a ∧
      i256ToU64 (i256FromU64 a) = .ok a ∧ u256ToU64 (u256FromU64 a) = .ok a := by
  refine ⟨⟨castKeeps_i128_u128, castKeeps_i128_i256, castKeeps_i128_u256, castKeeps_u128_i256,
    castKeeps_u128_u256, castKeeps_i256_u256⟩, ⟨?_, ?_, ?_⟩, ?_, fun a => ?_⟩
  · exact castKeeps_i128_i256.widen fun x => contains_widen (by decide) (by decide) _
  · exact castKeeps_u128_i256.widen fun x => contains_widen (by decide) (by decide) _
  · exact castKeeps_u128_u256.widen fun x => contains_widen (by decide) (by decide) _
  · exact ⟨i128_narrows.1, i128_narrows.2, u128_narrows.1, u128_narrows.2, i256_narrows.1,
      i256_narrows.2, u256_narrows.1, u256_narrows.2⟩
  · exact ⟨(narrow_signExtension a).1, (narrow_signExtension a).2, rfl, rfl, rfl, rfl⟩

end Grayscale
