import Grayscale.Runtime.WideIntegerWords

/-!
# The arithmetic of wide integers

Sums, differences, products and negations of i128, u128, i256 and u256 are exact up to the size of
the type, and the checked forms panic when the type has not the result. A checked signed product
divides the wrapped product back, which misses one overflow.
-/

namespace Grayscale

/-! ### The integers of the words -/

section Values

variable {α : Type} {T : ScalarType} {toNat : α → ℕ}

theorem convert_modEq (T : ScalarType) (n : ℤ) : convert T n ≡ n [ZMOD T.format.size] :=
  T.format.wrap_modEq n

theorem convert_congr {m n : ℤ} (h : m ≡ n [ZMOD T.format.size]) : convert T m = convert T n :=
  congrArg Subtype.val (T.format.wrap_congr h)

theorem contains_convert (T : ScalarType) (n : ℤ) : T.format.Contains (convert T n) :=
  (T.format.wrap n).2

/-- The operation computes `f` up to the size of the type. -/
def WrapsTo (T : ScalarType) (value : α → ℤ) (op : α → α → α) (f : ℤ → ℤ → ℤ) : Prop :=
  ∀ left right, value (op left right) = convert T (f (value left) (value right))

/-- The operation computes `f` if the type has the result, and panics otherwise. -/
def ExactOrPanics (T : ScalarType) (value : α → ℤ) (op : α → α → Except String α)
    (f : ℤ → ℤ → ℤ) : Prop :=
  ∀ left right, CheckedAs (T.format.Contains (f (value left) (value right)))
    (f (value left) (value right)) ((op left right).map value)

/-- The wrapping arithmetic of a type. -/
structure RingLaws (T : ScalarType) (value : α → ℤ) (add sub mul : α → α → α) : Prop where
  add : WrapsTo T value add (· + ·)
  sub : WrapsTo T value sub (· - ·)
  mul : WrapsTo T value mul (· * ·)

/-- Words whose operations are right up to the size of a type. -/
structure ModularWords (T : ScalarType) (toNat : α → ℕ) (add sub mul : α → α → α) : Prop where
  add : ∀ x y, (toNat (add x y) : ℤ) ≡ toNat x + toNat y [ZMOD T.format.size]
  sub : ∀ x y, (toNat (sub x y) + toNat y : ℤ) ≡ toNat x [ZMOD T.format.size]
  mul : ∀ x y, (toNat (mul x y) : ℤ) ≡ toNat x * toNat y [ZMOD T.format.size]

theorem ModularWords.ringLaws {add sub mul : α → α → α} (h : ModularWords T toNat add sub mul) :
    RingLaws T (fun x => convert T (toNat x)) add sub mul where
  add x y := convert_congr ((h.add x y).trans
    ((convert_modEq T _).add (convert_modEq T _)).symm)
  sub x y := by
    have hsub := (h.sub x y).sub_right (toNat y)
    rw [add_sub_cancel_right] at hsub
    exact convert_congr (hsub.trans ((convert_modEq T _).sub (convert_modEq T _)).symm)
  mul x y := convert_congr ((h.mul x y).trans
    ((convert_modEq T _).mul (convert_modEq T _)).symm)

end Values

variable {T : ScalarType}

theorem size_128 (h : T.bits = 128) : T.format.size = ((2 ^ 128 : ℕ) : ℤ) := by
  change (2 : ℤ) ^ T.bits = _
  rw [h]
  rfl

theorem size_256 (h : T.bits = 256) : T.format.size = ((2 ^ 256 : ℕ) : ℤ) := by
  change (2 : ℤ) ^ T.bits = _
  rw [h]
  rfl

theorem modularWords_128 (h : T.bits = 128) :
    ModularWords T Words128.toNat Words128.add Words128.sub Words128.mul where
  add x y := by
    rw [size_128 h]
    exact_mod_cast Int.natCast_modEq_iff.mpr (x.toNat_add y)
  sub x y := by
    rw [size_128 h]
    exact_mod_cast Int.natCast_modEq_iff.mpr (x.toNat_sub y)
  mul x y := by
    rw [size_128 h]
    exact_mod_cast Int.natCast_modEq_iff.mpr (x.toNat_mul y)

theorem modularWords_256 (h : T.bits = 256) :
    ModularWords T Words256.toNat Words256.add Words256.sub Words256.mul where
  add x y := by
    rw [size_256 h]
    exact_mod_cast Int.natCast_modEq_iff.mpr (x.toNat_add y)
  sub x y := by
    rw [size_256 h]
    exact_mod_cast Int.natCast_modEq_iff.mpr (x.toNat_sub y)
  mul x y := by
    rw [size_256 h]
    exact_mod_cast Int.natCast_modEq_iff.mpr (x.toNat_mul y)

/-! ### Signed words -/

section Signed

variable {α : Type} {T : ScalarType} {toNat : α → ℕ} {isNeg isZero : α → Bool}
  {neg : α → α} {divmod : α → α → Except String (α × α)}

/-- What the operations of a width do to the number of the words. -/
structure DividingWords (T : ScalarType) (toNat : α → ℕ) (isZero : α → Bool)
    (divmod : α → α → Except String (α × α)) : Prop where
  toNat_lt : ∀ x, (toNat x : ℤ) < T.format.size
  toNat_injective : ∀ {x y}, toNat x = toNat y → x = y
  isZero_iff : ∀ x, isZero x = true ↔ toNat x = 0
  divmod_eq : ∀ {x y}, toNat y ≠ 0 → ∃ s : α × α, divmod x y = .ok s ∧
    toNat s.1 = toNat x / toNat y ∧ toNat s.2 = toNat x % toNat y

/-- What the operations of a signed type do to the number of the words. -/
structure SignedWords (T : ScalarType) (toNat : α → ℕ) (isNeg : α → Bool) (neg : α → α) : Prop where
  signed : T.format.signed = true
  isNeg_iff : ∀ x, isNeg x = true ↔ T.format.size ≤ 2 * toNat x
  neg : ∀ x, (toNat (neg x) + toNat x : ℤ) ≡ 0 [ZMOD T.format.size]

theorem DividingWords.value_injective (hwords : DividingWords T toNat isZero divmod) {x y : α}
    (h : convert T (toNat x) = convert T (toNat y)) : x = y := by
  have hmod := ((convert_modEq T (toNat x)).symm.trans (h ▸ Int.ModEq.refl _)).trans
    (convert_modEq T (toNat y))
  refine hwords.toNat_injective ?_
  have := Int.emod_eq_of_lt (Int.natCast_nonneg _) (hwords.toNat_lt x)
  have := Int.emod_eq_of_lt (Int.natCast_nonneg _) (hwords.toNat_lt y)
  have : (toNat x : ℤ) % T.format.size = toNat y % T.format.size := hmod
  omega

theorem DividingWords.value_eq_zero_iff (hwords : DividingWords T toNat isZero divmod) (x : α) :
    convert T (toNat x) = 0 ↔ toNat x = 0 := by
  constructor
  · intro h
    have hmod := h ▸ (convert_modEq T (toNat x)).symm
    have hlt := Int.emod_eq_of_lt (Int.natCast_nonneg _) (hwords.toNat_lt x)
    have : (toNat x : ℤ) % T.format.size = 0 % T.format.size := hmod
    rw [Int.zero_emod] at this
    omega
  · intro h
    rw [h]
    exact convert_of_contains T.format.contains_zero

namespace SignedWords

variable (hsigned : SignedWords T toNat isNeg neg)
include hsigned

theorem value_neg (x : α) : convert T (toNat (neg x)) = convert T (-convert T (toNat x)) := by
  have hneg := (hsigned.neg x).sub_right (toNat x)
  rw [add_sub_cancel_right, zero_sub] at hneg
  exact convert_congr (hneg.trans (convert_modEq T _).neg.symm)

theorem value_of_not_isNeg {x : α} (h : ¬ isNeg x = true) : convert T (toNat x) = toNat x := by
  have hmin := T.format.two_mul_min hsigned.signed
  rw [hsigned.isNeg_iff] at h
  exact convert_of_contains ⟨by omega, by omega⟩

theorem value_of_isNeg (hwords : DividingWords T toNat isZero divmod) {x : α}
    (h : isNeg x = true) : convert T (toNat x) = toNat x - T.format.size := by
  have hmin := T.format.two_mul_min hsigned.signed
  have hlt := hwords.toNat_lt x
  rw [hsigned.isNeg_iff] at h
  exact T.format.wrap_of_ge (by omega) (by omega)

theorem isNeg_iff_value (hwords : DividingWords T toNat isZero divmod) (x : α) :
    isNeg x = true ↔ convert T (toNat x) < 0 := by
  have hlt := hwords.toNat_lt x
  by_cases h : isNeg x = true
  · rw [hsigned.value_of_isNeg hwords h]
    exact iff_of_true h (by omega)
  · rw [hsigned.value_of_not_isNeg h]
    exact iff_of_false h (by omega)

theorem toNat_magnitude (hwords : DividingWords T toNat isZero divmod) (x : α) :
    toNat (if isNeg x then neg x else x) = (convert T (toNat x)).natAbs := by
  by_cases h : isNeg x = true
  · have hneg := hsigned.neg x
    have hlt := hwords.toNat_lt x
    have hlt' := hwords.toNat_lt (neg x)
    have hhalf := (hsigned.isNeg_iff x).mp h
    have hpos := T.format.size_pos
    have hsum : (toNat (neg x) + toNat x : ℤ) = T.format.size := by
      obtain ⟨q, hq⟩ := (Int.modEq_zero_iff_dvd.mp hneg)
      have hq₁ : 0 < q := by
        by_contra hle
        have := mul_nonpos_of_nonneg_of_nonpos hpos.le (not_lt.mp hle)
        omega
      have hq₂ : q < 2 := by
        by_contra hge
        have := mul_le_mul_of_nonneg_left (not_lt.mp hge) hpos.le
        omega
      rw [hq, show q = 1 by omega, mul_one]
    rw [if_pos h, hsigned.value_of_isNeg hwords h]
    omega
  · rw [if_neg h, hsigned.value_of_not_isNeg h, Int.natAbs_natCast]

end SignedWords

theorem tdiv_natAbs (m n : ℤ) :
    m.tdiv n = if decide (m < 0) != decide (n < 0) then -((m.natAbs / n.natAbs : ℕ) : ℤ)
      else (m.natAbs / n.natAbs : ℕ) := by
  rcases lt_or_ge m 0 with hm | hm <;> rcases lt_or_ge n 0 with hn | hn
  · rw [decide_eq_true hm, decide_eq_true hn, if_neg (by decide)]
    conv_lhs => rw [← neg_neg m, ← neg_neg n, Int.neg_tdiv, Int.tdiv_neg, neg_neg,
      ← Int.ofNat_natAbs_of_nonpos hm.le, ← Int.ofNat_natAbs_of_nonpos hn.le, ← Int.ofNat_tdiv]
  · rw [decide_eq_true hm, decide_eq_false (not_lt.mpr hn), if_pos (by decide)]
    conv_lhs => rw [← neg_neg m, Int.neg_tdiv, ← Int.ofNat_natAbs_of_nonpos hm.le,
      ← Int.natAbs_of_nonneg hn, ← Int.ofNat_tdiv]
  · rw [decide_eq_false (not_lt.mpr hm), decide_eq_true hn, if_pos (by decide)]
    conv_lhs => rw [← neg_neg n, Int.tdiv_neg, ← Int.ofNat_natAbs_of_nonpos hn.le,
      ← Int.natAbs_of_nonneg hm, ← Int.ofNat_tdiv]
  · rw [decide_eq_false (not_lt.mpr hm), decide_eq_false (not_lt.mpr hn), if_neg (by decide)]
    conv_lhs => rw [← Int.natAbs_of_nonneg hm, ← Int.natAbs_of_nonneg hn, ← Int.ofNat_tdiv]

theorem SignedWords.div_eq (hsigned : SignedWords T toNat isNeg neg)
    (hwords : DividingWords T toNat isZero divmod) {x y : α} (hy : convert T (toNat y) ≠ 0) :
    ∃ q, signedDiv isNeg neg divmod x y = .ok q ∧
      convert T (toNat q) = convert T ((convert T (toNat x)).tdiv (convert T (toNat y))) := by
  have hmagY := hsigned.toNat_magnitude hwords y
  obtain ⟨s, hs, hquot, -⟩ := hwords.divmod_eq (x := if isNeg x then neg x else x)
    (y := if isNeg y then neg y else y) (by rw [hmagY]; exact Int.natAbs_ne_zero.mpr hy)
  rw [hmagY, hsigned.toNat_magnitude hwords x] at hquot
  have hx : isNeg x = decide (convert T (toNat x) < 0) := by
    rw [Bool.eq_iff_iff, decide_eq_true_eq]
    exact hsigned.isNeg_iff_value hwords x
  have hsign : isNeg y = decide (convert T (toNat y) < 0) := by
    rw [Bool.eq_iff_iff, decide_eq_true_eq]
    exact hsigned.isNeg_iff_value hwords y
  refine ⟨if isNeg x != isNeg y then neg s.1 else s.1, ?_, ?_⟩
  · rw [signedDiv, hs]
    rfl
  · rw [tdiv_natAbs, ← hx, ← hsign, ← hquot]
    split_ifs
    · rw [hsigned.value_neg]
      exact convert_congr (convert_modEq T _).neg
    · rfl

theorem CheckedAs.of_test {P : Prop} {v : ℤ} {test : Bool} (value : α → ℤ) {x : α}
    (htest : test = true ↔ ¬ P) (hval : P → value x = v) (code : String) :
    CheckedAs P v ((if test then .error code else .ok x : Except String α).map value) := by
  refine ⟨fun h => ?_, fun h => ⟨code, ?_⟩⟩
  · rw [if_neg fun hif => htest.mp hif h]
    exact congrArg Except.ok (hval h)
  · rw [if_pos (htest.mpr h)]
    rfl

section Checked

variable {add sub mul : α → α → α} (hsigned : SignedWords T toNat isNeg neg)
  (hwords : DividingWords T toNat isZero divmod) (code : String)
include hsigned hwords

theorem signedAddChecked_exact (hadd : WrapsTo T (fun x => convert T (toNat x)) add (· + ·)) :
    ExactOrPanics T (fun x => convert T (toNat x)) (signedAddChecked isNeg add code) (· + ·) := by
  intro x y
  have hiff := IntFormat.contains_add_iff hsigned.signed (contains_convert T (toNat x))
    (contains_convert T (toNat y))
  have htest : ((!isNeg x && !isNeg y && isNeg (add x y)) ||
      (isNeg x && isNeg y && !isNeg (add x y))) = true ↔
      ¬ T.format.Contains (convert T (toNat x) + convert T (toNat y)) := by
    simp only [Bool.or_eq_true, Bool.and_eq_true, Bool.not_eq_true', ← Bool.not_eq_true,
      hsigned.isNeg_iff_value hwords, hadd x y, hiff, not_not, not_lt, and_assoc]
    rfl
  exact .of_test (fun x => convert T (toNat x)) htest
    (fun h => (hadd x y).trans (convert_of_contains h)) code

theorem signedSubChecked_exact (hsub : WrapsTo T (fun x => convert T (toNat x)) sub (· - ·)) :
    ExactOrPanics T (fun x => convert T (toNat x)) (signedSubChecked isNeg sub code) (· - ·) := by
  intro x y
  have hiff := IntFormat.contains_sub_iff hsigned.signed (contains_convert T (toNat x))
    (contains_convert T (toNat y))
  have htest : ((!isNeg x && isNeg y && isNeg (sub x y)) ||
      (isNeg x && !isNeg y && !isNeg (sub x y))) = true ↔
      ¬ T.format.Contains (convert T (toNat x) - convert T (toNat y)) := by
    simp only [Bool.or_eq_true, Bool.and_eq_true, Bool.not_eq_true', ← Bool.not_eq_true,
      hsigned.isNeg_iff_value hwords, hsub x y, hiff, not_not, not_lt, and_assoc]
    rfl
  exact .of_test (fun x => convert T (toNat x)) htest
    (fun h => (hsub x y).trans (convert_of_contains h)) code

theorem signed_mulChecked_eq [DecidableEq α]
    (hmul : WrapsTo T (fun x => convert T (toNat x)) mul (· * ·)) (x y : α) :
    mulChecked isZero mul (signedDiv isNeg neg divmod) code x y =
      if T.format.Contains (convert T (toNat x) * convert T (toNat y)) ∨
        convert T (toNat x) = T.format.min ∧ convert T (toNat y) = -1 then .ok (mul x y)
      else .error code := by
  have hzero : ∀ z, isZero z = true ↔ convert T (toNat z) = 0 := fun z =>
    (hwords.isZero_iff z).trans (hwords.value_eq_zero_iff z).symm
  by_cases hnz : (!isZero x && !isZero y) = true
  · have hy : convert T (toNat y) ≠ 0 := by
      rw [Ne, ← hzero]
      have := (Bool.and_eq_true_iff.mp hnz).2
      simpa using this
    obtain ⟨q, hq, hval⟩ := hsigned.div_eq hwords (x := mul x y) hy
    have hprod : convert T (toNat (mul x y)) =
        convert T (convert T (toNat x) * convert T (toNat y)) := hmul x y
    rw [hprod] at hval
    have hchk := IntFormat.contains_mul_iff hsigned.signed (contains_convert T (toNat x))
      (contains_convert T (toNat y)) hy
    change convert T ((convert T (convert T (toNat x) * convert T (toNat y))).tdiv
      (convert T (toNat y))) = convert T (toNat x) ↔ _ at hchk
    rw [← hval] at hchk
    have heq : q = x ↔ convert T (toNat q) = convert T (toNat x) :=
      ⟨fun h => by rw [h], hwords.value_injective⟩
    rw [mulChecked, if_pos hnz, hq]
    change (if q ≠ x then Except.error code else Except.ok (mul x y)) = _
    by_cases h : q = x
    · rw [if_neg (not_not.mpr h), if_pos (hchk.mp (heq.mp h))]
    · rw [if_pos h, if_neg fun hc => h (heq.mpr (hchk.mpr hc))]
  · have hprod : convert T (toNat x) * convert T (toNat y) = 0 := by
      rw [mul_eq_zero, ← hzero, ← hzero]
      by_contra hne
      rw [not_or] at hne
      exact hnz (by simpa using hne)
    rw [mulChecked, if_neg hnz, hprod, if_pos (.inl T.format.contains_zero)]

end Checked

/-! ### Unsigned words -/

section Unsigned

variable {lt : α → α → Bool} {add sub mul : α → α → α} (hunsigned : T.format.signed = false)
  (hwords : DividingWords T toNat isZero divmod) (code : String)
include hunsigned hwords

theorem DividingWords.value_of_unsigned (x : α) : convert T (toNat x) = toNat x := by
  have hmin := T.format.min_of_unsigned hunsigned
  have hlt := hwords.toNat_lt x
  exact convert_of_contains ⟨by omega, by omega⟩

theorem unsignedAddChecked_exact (hlt : ∀ x y, lt x y = true ↔ toNat x < toNat y)
    (hadd : WrapsTo T (fun x => convert T (toNat x)) add (· + ·)) :
    ExactOrPanics T (fun x => convert T (toNat x)) (unsignedAddChecked lt add code) (· + ·) := by
  intro x y
  have hiff := IntFormat.contains_add_iff_of_unsigned hunsigned (contains_convert T (toNat x))
    (contains_convert T (toNat y))
  have hsum : convert T (toNat (add x y)) = (T.format.wrap (convert T (toNat x) +
    convert T (toNat y))).1 := hadd x y
  have htest : lt (add x y) x = true ↔
      ¬ T.format.Contains (convert T (toNat x) + convert T (toNat y)) := by
    rw [hiff, not_not, ← hsum, hwords.value_of_unsigned hunsigned,
      hwords.value_of_unsigned hunsigned, hlt]
    exact Int.ofNat_lt.symm
  exact .of_test (fun x => convert T (toNat x)) htest
    (fun h => (hadd x y).trans (convert_of_contains h)) code

theorem unsignedSubChecked_exact (hlt : ∀ x y, lt x y = true ↔ toNat x < toNat y)
    (hsub : WrapsTo T (fun x => convert T (toNat x)) sub (· - ·)) :
    ExactOrPanics T (fun x => convert T (toNat x)) (unsignedSubChecked lt sub code) (· - ·) := by
  intro x y
  have hiff := IntFormat.contains_sub_iff_of_unsigned hunsigned (contains_convert T (toNat x))
    (contains_convert T (toNat y))
  have htest : lt x y = true ↔ ¬ T.format.Contains (convert T (toNat x) - convert T (toNat y)) := by
    rw [hiff, not_not, hwords.value_of_unsigned hunsigned, hwords.value_of_unsigned hunsigned, hlt]
    exact Int.ofNat_lt.symm
  exact .of_test (fun x => convert T (toNat x)) htest
    (fun h => (hsub x y).trans (convert_of_contains h)) code

theorem unsigned_mulChecked_exact [DecidableEq α]
    (hmul : WrapsTo T (fun x => convert T (toNat x)) mul (· * ·)) :
    ExactOrPanics T (fun x => convert T (toNat x))
      (mulChecked isZero mul (fun x y => (divmod x y).map Prod.fst) code) (· * ·) := by
  intro x y
  have hzero : ∀ z, isZero z = true ↔ convert T (toNat z) = 0 := fun z =>
    (hwords.isZero_iff z).trans (hwords.value_eq_zero_iff z).symm
  have hprod : convert T (toNat (mul x y)) =
      convert T (convert T (toNat x) * convert T (toNat y)) := hmul x y
  by_cases hnz : (!isZero x && !isZero y) = true
  · have hy : convert T (toNat y) ≠ 0 := by
      rw [Ne, ← hzero]
      have := (Bool.and_eq_true_iff.mp hnz).2
      simpa using this
    obtain ⟨s, hs, hquot, -⟩ := hwords.divmod_eq (x := mul x y) (y := y)
      fun h => hy ((hwords.value_eq_zero_iff y).mpr h)
    have hchk := IntFormat.contains_mul_iff_of_unsigned hunsigned (contains_convert T (toNat x))
      (contains_convert T (toNat y)) hy
    change _ ↔ (convert T (convert T (toNat x) * convert T (toNat y))).tdiv _ = _ at hchk
    rw [← hprod, hwords.value_of_unsigned hunsigned (mul x y),
      hwords.value_of_unsigned hunsigned x, hwords.value_of_unsigned hunsigned y,
      ← Int.ofNat_tdiv, ← hquot, Int.natCast_inj] at hchk
    have htest : decide (s.1 ≠ x) = true ↔
        ¬ T.format.Contains (convert T (toNat x) * convert T (toNat y)) := by
      rw [hwords.value_of_unsigned hunsigned x, hwords.value_of_unsigned hunsigned y, hchk,
        decide_eq_true_eq]
      exact not_congr ⟨fun h => by rw [h], hwords.toNat_injective⟩
    rw [mulChecked, if_pos hnz, hs]
    have := CheckedAs.of_test (fun x => convert T (toNat x)) htest
      (fun h => hprod.trans (convert_of_contains h)) code
    simp only [decide_eq_true_eq] at this
    exact this
  · have hzeroProduct : convert T (toNat x) * convert T (toNat y) = 0 := by
      rw [mul_eq_zero, ← hzero, ← hzero]
      by_contra hne
      rw [not_or] at hne
      exact hnz (by simpa using hne)
    rw [mulChecked, if_neg hnz]
    rw [hzeroProduct] at hprod
    change CheckedAs (T.format.Contains (convert T (toNat x) * convert T (toNat y)))
      (convert T (toNat x) * convert T (toNat y)) (.ok (convert T (toNat (mul x y))))
    rw [hprod, hzeroProduct, convert_of_contains T.format.contains_zero]
    exact ⟨fun _ => rfl, fun h => absurd T.format.contains_zero h⟩

end Unsigned

end Signed

/-! ### The four types -/

theorem dividing_128 (h : T.bits = 128) :
    DividingWords T Words128.toNat Words128.isZero u128Divmod where
  toNat_lt x := by
    rw [size_128 h]
    exact_mod_cast x.toNat_lt
  toNat_injective := Words128.toNat_injective
  isZero_iff := Words128.isZero_iff
  divmod_eq := u128Divmod_eq

theorem dividing_256 (h : T.bits = 256) :
    DividingWords T Words256.toNat Words256.isZero u256Divmod where
  toNat_lt x := by
    rw [size_256 h]
    exact_mod_cast x.toNat_lt
  toNat_injective := Words256.toNat_injective
  isZero_iff := Words256.isZero_iff
  divmod_eq := u256Divmod_eq

theorem signed_i128 : SignedWords .i128 Words128.toNat i128IsNeg i128Neg where
  signed := rfl
  isNeg_iff x := by
    rw [i128IsNeg_iff, size_128 rfl]
    omega
  neg x := by
    rw [size_128 rfl]
    exact_mod_cast Int.natCast_modEq_iff.mpr (toNat_i128Neg x)

theorem signed_i256 : SignedWords .i256 Words256.toNat i256IsNeg i256Neg where
  signed := rfl
  isNeg_iff x := by
    rw [i256IsNeg_iff, size_256 rfl]
    omega
  neg x := by
    rw [size_256 rfl]
    exact_mod_cast Int.natCast_modEq_iff.mpr (toNat_i256Neg x)

structure CheckedSums {α : Type} (T : ScalarType) (value : α → ℤ)
    (addChecked subChecked : α → α → Except String α) : Prop where
  add : ExactOrPanics T value addChecked (· + ·)
  sub : ExactOrPanics T value subChecked (· - ·)

theorem ringLaws_128 (h : T.bits = 128) :
    RingLaws T (Words128.value T) Words128.add Words128.sub Words128.mul :=
  (modularWords_128 h).ringLaws

theorem ringLaws_256 (h : T.bits = 256) :
    RingLaws T (Words256.value T) Words256.add Words256.sub Words256.mul :=
  (modularWords_256 h).ringLaws

/-- Sums, differences, products and negations are exact up to the size of the type, and their
checked forms panic when the type has not the result. -/
theorem wide_ring_laws : (RingLaws .u128 (Words128.value .u128) u128Add u128Sub u128Mul ∧
      RingLaws .i128 (Words128.value .i128) i128Add i128Sub i128Mul ∧
      RingLaws .u256 (Words256.value .u256) u256Add u256Sub u256Mul ∧
      RingLaws .i256 (Words256.value .i256) i256Add i256Sub i256Mul) ∧
    ((∀ x : I128, (i128Neg x).value .i128 = convert .i128 (-x.value .i128)) ∧
      ∀ x : I256, (i256Neg x).value .i256 = convert .i256 (-x.value .i256)) ∧
    (CheckedSums .u128 (Words128.value .u128) u128AddChecked u128SubChecked ∧
      CheckedSums .i128 (Words128.value .i128) i128AddChecked i128SubChecked ∧
      CheckedSums .u256 (Words256.value .u256) u256AddChecked u256SubChecked ∧
      CheckedSums .i256 (Words256.value .i256) i256AddChecked i256SubChecked) ∧
    ExactOrPanics .u128 (Words128.value .u128) u128MulChecked (· * ·) ∧
    ExactOrPanics .u256 (Words256.value .u256) u256MulChecked (· * ·) := by
  have hu128 := ringLaws_128 (T := .u128) rfl
  have hi128 := ringLaws_128 (T := .i128) rfl
  have hu256 := ringLaws_256 (T := .u256) rfl
  have hi256 := ringLaws_256 (T := .i256) rfl
  refine ⟨⟨hu128, hi128, hu256, hi256⟩, ⟨signed_i128.value_neg, signed_i256.value_neg⟩,
    ⟨⟨?_, ?_⟩, ⟨?_, ?_⟩, ⟨?_, ?_⟩, ⟨?_, ?_⟩⟩, ?_, ?_⟩
  · exact unsignedAddChecked_exact rfl (dividing_128 rfl) _ u128Lt_iff hu128.add
  · exact unsignedSubChecked_exact rfl (dividing_128 rfl) _ u128Lt_iff hu128.sub
  · exact signedAddChecked_exact signed_i128 (dividing_128 rfl) _ hi128.add
  · exact signedSubChecked_exact signed_i128 (dividing_128 rfl) _ hi128.sub
  · exact unsignedAddChecked_exact rfl (dividing_256 rfl) _ u256Lt_iff hu256.add
  · exact unsignedSubChecked_exact rfl (dividing_256 rfl) _ u256Lt_iff hu256.sub
  · exact signedAddChecked_exact signed_i256 (dividing_256 rfl) _ hi256.add
  · exact signedSubChecked_exact signed_i256 (dividing_256 rfl) _ hi256.sub
  · exact unsigned_mulChecked_exact rfl (dividing_128 rfl) _ hu128.mul
  · exact unsigned_mulChecked_exact rfl (dividing_256 rfl) _ hu256.mul

theorem not_contains_min_mul (hsigned : T.format.signed = true) :
    ¬ T.format.Contains (T.format.min * -1) := by
  have hmin := T.format.two_mul_min hsigned
  intro h
  have := h.2
  omega

theorem checkedAs_product_iff {α : Type} {T : ScalarType} {value : α → ℤ} {m n : ℤ} {x : α}
    (code : String) (hsigned : T.format.signed = true) (hval : value x = convert T (m * n)) :
    CheckedAs (T.format.Contains (m * n)) (m * n)
      ((if T.format.Contains (m * n) ∨ m = T.format.min ∧ n = -1 then .ok x
        else .error code : Except String α).map value) ↔ ¬ (m = T.format.min ∧ n = -1) := by
  constructor
  · rintro h ⟨rfl, rfl⟩
    obtain ⟨c, hc⟩ := h.2 (not_contains_min_mul hsigned)
    rw [if_pos (.inr ⟨rfl, rfl⟩)] at hc
    cases hc
  · intro h
    by_cases hin : T.format.Contains (m * n)
    · rw [if_pos (.inl hin)]
      exact ⟨fun _ => congrArg Except.ok (hval.trans (convert_of_contains hin)),
        fun hn => absurd hin hn⟩
    · rw [if_neg (not_or.mpr ⟨hin, h⟩)]
      exact ⟨fun hc => absurd hc hin, fun _ => ⟨code, rfl⟩⟩

/-- A checked product of i128 or i256 is exact, but for the least integer by minus one. -/
theorem signed_mulChecked_exact_iff (left right : I128) (left₂ right₂ : I256) :
    (CheckedAs (ScalarType.i128.format.Contains (left.value .i128 * right.value .i128))
        (left.value .i128 * right.value .i128)
        ((i128MulChecked left right).map (Words128.value .i128)) ↔
      ¬ (left.value .i128 = -2 ^ 127 ∧ right.value .i128 = -1)) ∧
    (CheckedAs (ScalarType.i256.format.Contains (left₂.value .i256 * right₂.value .i256))
        (left₂.value .i256 * right₂.value .i256)
        ((i256MulChecked left₂ right₂).map (Words256.value .i256)) ↔
      ¬ (left₂.value .i256 = -2 ^ 255 ∧ right₂.value .i256 = -1)) := by
  constructor
  · have hmul := (ringLaws_128 (T := .i128) rfl).mul
    have heq := signed_mulChecked_eq signed_i128 (dividing_128 rfl) "P0023" hmul left right
    rw [i128MulChecked, i128Div, i128Mul, heq]
    exact checkedAs_product_iff "P0023" rfl (hmul left right)
  · have hmul := (ringLaws_256 (T := .i256) rfl).mul
    have heq := signed_mulChecked_eq signed_i256 (dividing_256 rfl) "P0029" hmul left₂
      right₂
    rw [i256MulChecked, i256Div, i256Mul, heq]
    exact checkedAs_product_iff "P0029" rfl (hmul left₂ right₂)

/-- The least i128 times minus one wraps and passes. -/
theorem signed_mulChecked_least :
    i128MulChecked ⟨0, 0x8000000000000000⟩ ⟨0xFFFFFFFFFFFFFFFF, 0xFFFFFFFFFFFFFFFF⟩ =
        .ok ⟨0, 0x8000000000000000⟩ ∧
      ¬ ∀ left right : I128, CheckedAs (ScalarType.i128.format.Contains
        (left.value .i128 * right.value .i128)) (left.value .i128 * right.value .i128)
        ((i128MulChecked left right).map (Words128.value .i128)) := by
  have hres : i128MulChecked ⟨0, 0x8000000000000000⟩ ⟨0xFFFFFFFFFFFFFFFF, 0xFFFFFFFFFFFFFFFF⟩ =
      .ok ⟨0, 0x8000000000000000⟩ := by decide +kernel
  refine ⟨hres, fun h => ?_⟩
  obtain ⟨code, hcode⟩ := (h ⟨0, 0x8000000000000000⟩
    ⟨0xFFFFFFFFFFFFFFFF, 0xFFFFFFFFFFFFFFFF⟩).2 (by decide)
  rw [hres] at hcode
  cases hcode

end Grayscale
