import Grayscale.Stdlib.Strconv

/-!
# Numbers from strings in a base

The integer conversions of `strconv.c` in every base: those that panic, those that return an error,
and the formatters.
-/

namespace Grayscale

open List

/-! ### The functions -/

def strconvHasHexPrefix (buffer : Text) (base : ℤ) : Bool :=
  if base ≠ 16 then false
  else
    let buffer :=
      if byteAt buffer 0 == byte '+' || byteAt buffer 0 == byte '-' then buffer.drop 1 else buffer
    byteAt buffer 0 == byte '0' && (byteAt buffer 1 == byte 'x' || byteAt buffer 1 == byte 'X')

def grayStrconvToI64 (string : Text) (base : ℤ) : Except String ℤ :=
  if base < 2 ∨ 36 < base then .error "P0054"
  else if string.contains 0 || strconvHasHexPrefix string base || startsWithSpace string then
    .error "P0055"
  else (strtollIn base.toNat string).whole "P0055" string

def grayStrconvToU64 (string : Text) (base : ℤ) : Except String ℤ :=
  if base < 2 ∨ 36 < base then .error "P0056"
  else if string.contains 0 || strconvHasHexPrefix string base || startsWithSpace string then
    .error "P0057"
  else if strconvIsNegative string then .error "P0058"
  else (strtoullIn base.toNat string).whole "P0057" string

inductive StrconvErrorKind
  | invalidInput
  | conversionFailure
  deriving DecidableEq

abbrev StrconvError := StrconvErrorKind × String

/-- The conversion must take the whole string, else the error is returned. -/
def StrtoResult.wholeOr {α : Type} (error : StrconvError) (string : Text) (r : StrtoResult α) :
    Except StrconvError α :=
  if r.rest.length = string.length ∨ byteAt r.rest 0 ≠ 0 ∨ r.isRangeError = true then .error error
  else .ok r.value

def grayStrconvToI64Result (string : Text) (base : ℤ) : Except StrconvError ℤ :=
  if base < 2 ∨ 36 < base then
    .error (.invalidInput, "invalid base for integer conversion (must be 2-36)")
  else if string.contains 0 || strconvHasHexPrefix string base || startsWithSpace string then
    .error (.conversionFailure, "cannot convert string to i64")
  else
    (strtollIn base.toNat string).wholeOr (.conversionFailure, "cannot convert string to i64") string

def grayStrconvToU64Result (string : Text) (base : ℤ) : Except StrconvError ℤ :=
  if base < 2 ∨ 36 < base then
    .error (.invalidInput, "invalid base for integer conversion (must be 2-36)")
  else if string.contains 0 || strconvHasHexPrefix string base || startsWithSpace string then
    .error (.conversionFailure, "cannot convert string to u64")
  else if strconvIsNegative string then
    .error (.invalidInput, "cannot convert negative string to u64")
  else
    (strtoullIn base.toNat string).wholeOr (.conversionFailure, "cannot convert string to u64") string

/-- `gray_strconv_format_i64`: the digits are those of the magnitude, which is unsigned. -/
def grayStrconvFormatI64 (value base : ℤ) : Except String Text :=
  if base < 2 ∨ 36 < base then .error "P0110"
  else .ok ((if value < 0 then [byte '-'] else []) ++ BaseText.render base.toNat value.natAbs)

def grayStrconvFormatU64 (value : ℕ) (base : ℤ) : Except String Text :=
  if base < 2 ∨ 36 < base then .error "P0111"
  else .ok (BaseText.render base.toNat value)

/-! ### The two kinds of conversions -/

/-- A conversion that panics and one that returns an error do so on the same input, and have the
same value else. -/
def AgreesWith {ε ε' : Type} (panicking : Except ε ℤ) (fallible : Except ε' ℤ) : Prop :=
  ((∃ code, panicking = .error code) ↔ ∃ error, fallible = .error error) ∧
    ∀ value, panicking = .ok value ↔ fallible = .ok value

theorem agreesWith_error {ε ε' : Type} (code : ε) (error : ε') :
    AgreesWith (.error code) (.error error) :=
  ⟨iff_of_true ⟨code, rfl⟩ ⟨error, rfl⟩, fun _ => iff_of_false nofun nofun⟩

theorem agreesWith_whole (code : String) (error : StrconvError) (string : Text)
    (r : StrtoResult ℤ) : AgreesWith (r.whole code string) (r.wholeOr error string) := by
  rw [StrtoResult.whole, StrtoResult.wholeOr]
  split_ifs
  · exact agreesWith_error code error
  · exact ⟨iff_of_false (by rintro ⟨_, ⟨⟩⟩) (by rintro ⟨_, ⟨⟩⟩), fun _ => by
      rw [Except.ok.injEq, Except.ok.injEq]⟩

theorem grayStrconvToI64_agrees (string : Text) (base : ℤ) :
    AgreesWith (grayStrconvToI64 string base) (grayStrconvToI64Result string base) := by
  rw [grayStrconvToI64, grayStrconvToI64Result]
  split_ifs
  · exact agreesWith_error _ _
  · exact agreesWith_error _ _
  · exact agreesWith_whole _ _ _ _

theorem grayStrconvToU64_agrees (string : Text) (base : ℤ) :
    AgreesWith (grayStrconvToU64 string base) (grayStrconvToU64Result string base) := by
  rw [grayStrconvToU64, grayStrconvToU64Result]
  split_ifs
  · exact agreesWith_error _ _
  · exact agreesWith_error _ _
  · exact agreesWith_error _ _
  · exact agreesWith_whole _ _ _ _

theorem strconvHasHexPrefix_of_ne {base : ℤ} (h : base ≠ 16) (buffer : Text) :
    strconvHasHexPrefix buffer base = false := if_pos h

/-! ### The texts of the formatters -/

section Render

variable {base : ℕ} (hlow : 2 ≤ base) (hhigh : base ≤ 36)

include hlow hhigh

theorem render_checks {sign : Text} (hsign : sign = [] ∨ sign = [byte '-']) (n : ℕ) :
    (sign ++ BaseText.render base n).contains 0 = false ∧
      strconvHasHexPrefix (sign ++ BaseText.render base n) base = false ∧
      startsWithSpace (sign ++ BaseText.render base n) = false ∧
      sign ++ BaseText.render base n ≠ [] := by
  have hdig : ∀ c ∈ BaseText.render base n, BaseText.isDigitIn base c = true := fun c hc =>
    BaseText.isDigitIn_of_mem_render hlow hhigh hc
  obtain ⟨d, digits, hd⟩ := exists_cons_of_ne_nil (@BaseText.render_ne_nil base n)
  rw [hd] at hdig ⊢
  have hspec := fun c hc => BaseText.not_special_of_isDigitIn hhigh (hdig c hc)
  obtain ⟨-, hsp, hneg, hplus⟩ := hspec d mem_cons_self
  refine ⟨?_, ?_, ?_, append_ne_nil_of_right_ne_nil _ (cons_ne_nil _ _)⟩
  · rw [← Bool.not_eq_true, contains_iff_mem, mem_append]
    rintro (h | h)
    · rcases hsign with rfl | rfl
      · exact not_mem_nil h
      · exact absurd h (by decide)
    · exact (hspec 0 h).1 rfl
  · -- an `x` is no digit in base 16
    by_cases hbase : (base : ℤ) ≠ 16
    · exact strconvHasHexPrefix_of_ne hbase _
    · obtain rfl : base = 16 := by omega
      have hx : (byteAt (d :: digits) 1 == byte 'x' || byteAt (d :: digits) 1 == byte 'X') =
          false := by
        have hne : ∀ c : UInt8, BaseText.isDigitIn 16 c = false → c ≠ 0 →
            (byteAt (d :: digits) 1 == c) = false := by
          intro c hc hnul
          refine beq_eq_false_iff_ne.mpr (not_byteAt_of_forall_ne (fun e he => ?_) hnul 1)
          rintro rfl
          exact Bool.false_ne_true (hc.symm.trans (hdig _ he))
        rw [hne _ (by decide) (by decide), hne _ (by decide) (by decide), Bool.or_self]
      rw [strconvHasHexPrefix, if_neg hbase]
      rcases hsign with rfl | rfl
      · have hnot : (d == byte '-') = false := beq_eq_false_iff_ne.mpr hneg
        have hnot' : (d == byte '+') = false := beq_eq_false_iff_ne.mpr hplus
        simp only [nil_append, byteAt_zero, hnot, hnot', Bool.or_self, Bool.false_eq_true, if_false]
        rw [hx, Bool.and_false]
      · simp only [singleton_append, byteAt_zero, beq_self_eq_true, Bool.or_true, if_true,
          drop_succ_cons, drop_zero]
        rw [hx, Bool.and_false]
  · rcases hsign with rfl | rfl
    · simp [startsWithSpace, hsp]
    · rfl

theorem grayStrconvToI64_format {value : ℤ} (hmin : -2 ^ 63 ≤ value) (hmax : value < 2 ^ 63) :
    grayStrconvToI64 ((if value < 0 then [byte '-'] else []) ++ BaseText.render base value.natAbs)
      base = .ok value := by
  have hsign : (if value < 0 then [byte '-'] else []) = [] ∨
      (if value < 0 then [byte '-'] else []) = [byte '-'] := by
    split_ifs
    · exact .inr rfl
    · exact .inl rfl
  obtain ⟨hnul, hpre, hsp, hne⟩ := render_checks hlow hhigh hsign value.natAbs
  rw [grayStrconvToI64, if_neg (by omega), hnul, hpre, hsp, if_neg (by decide),
    Int.toNat_natCast, strtollIn_render hlow hhigh hmin hmax]
  exact StrtoResult.whole_of_rest hne rfl rfl

theorem grayStrconvToU64_format {value : ℕ} (hmax : value < 2 ^ 64) :
    grayStrconvToU64 (BaseText.render base value) base = .ok value := by
  obtain ⟨hnul, hpre, hsp, hne⟩ := render_checks hlow hhigh (.inl rfl) value
  rw [nil_append] at hnul hpre hsp hne
  have hneg : strconvIsNegative (BaseText.render base value) = false := by
    obtain ⟨d, digits, hd⟩ := exists_cons_of_ne_nil hne
    have hmem : BaseText.isDigitIn base d = true :=
      BaseText.isDigitIn_of_mem_render hlow hhigh (hd ▸ mem_cons_self)
    obtain ⟨-, hbla, hminus, -⟩ := BaseText.not_special_of_isDigitIn hhigh hmem
    rw [hd, strconvIsNegative, hbla, Bool.false_and, Bool.or_false]
    exact beq_eq_false_iff_ne.mpr hminus
  rw [grayStrconvToU64, if_neg (by omega), hnul, hpre, hsp, if_neg (by decide), hneg,
    if_neg (by decide), Int.toNat_natCast, strtoullIn_render hlow hhigh hmax]
  exact StrtoResult.whole_of_rest hne rfl rfl

end Render

/-- The panicking conversions and the fallible ones agree on every string and base, and what a
formatter writes is converted back. -/
theorem strconv_agree : (∀ (string : Text) (base : ℤ),
      AgreesWith (grayStrconvToI64 string base) (grayStrconvToI64Result string base) ∧
      AgreesWith (grayStrconvToU64 string base) (grayStrconvToU64Result string base)) ∧
    (∀ value base : ℤ, -2 ^ 63 ≤ value → value < 2 ^ 63 → 2 ≤ base → base ≤ 36 →
      ∃ text, grayStrconvFormatI64 value base = .ok text ∧ grayStrconvToI64 text base = .ok value) ∧
    ∀ (value : ℕ) (base : ℤ), value < 2 ^ 64 → 2 ≤ base → base ≤ 36 →
      ∃ text, grayStrconvFormatU64 value base = .ok text ∧
        grayStrconvToU64 text base = .ok value := by
  refine ⟨fun string base => ⟨grayStrconvToI64_agrees string base,
    grayStrconvToU64_agrees string base⟩, fun value base hmin hmax hlow hhigh => ?_,
    fun value base hmax hlow hhigh => ?_⟩
  all_goals
    obtain ⟨n, rfl⟩ : ∃ n : ℕ, base = n := ⟨base.toNat, by omega⟩
  · refine ⟨_, if_neg (by omega), ?_⟩
    rw [Int.toNat_natCast]
    exact grayStrconvToI64_format (by omega) (by omega) hmin hmax
  · refine ⟨_, if_neg (by omega), ?_⟩
    rw [Int.toNat_natCast]
    exact grayStrconvToU64_format (by omega) (by omega) hmax

/-- The least `i64` in base 36, and the greatest `u64` in base 2. -/
theorem strconv_agree_ends : (∃ text, grayStrconvFormatI64 (-2 ^ 63) 36 = .ok text ∧
      grayStrconvToI64 text 36 = .ok (-2 ^ 63)) ∧
    ∃ text, grayStrconvFormatU64 (2 ^ 64 - 1) 2 = .ok text ∧
      grayStrconvToU64 text 2 = .ok ((2 ^ 64 - 1 : ℕ) : ℤ) :=
  ⟨strconv_agree.2.1 (-2 ^ 63) 36 (by decide) (by decide) (by decide) (by decide),
    strconv_agree.2.2 (2 ^ 64 - 1) 2 (by decide) (by decide) (by decide)⟩

end Grayscale
