import Grayscale.Library.JsonGrammar
import Grayscale.Library.StringToInteger

/-!
# Numbers from strings

The conversions of `strconv.c` that panic, in base ten: the string is copied into a C string, and
`strtoll`, `strtoull` or `strtod` must convert the whole of it.
-/

namespace Grayscale

open List

/-- The start of the copy is white space: `length > 0 && isspace(buffer[0])`. -/
def startsWithSpace (string : Text) : Bool := !string.isEmpty && isspace (byteAt string 0)

/-- A conversion took the whole string: `end_cursor == buffer`, `*end_cursor != '\0'` and `ERANGE`
panic. -/
def StrtoResult.whole {α : Type} (code : String) (string : Text) (r : StrtoResult α) :
    Except String α :=
  if r.rest.length = string.length ∨ byteAt r.rest 0 ≠ 0 ∨ r.isRangeError = true then .error code
  else .ok r.value

/-- `gray_strconv_to_i64` in base ten. -/
def strconvToI64 (string : Text) : Except String ℤ :=
  if string.contains 0 || startsWithSpace string then .error "P0055"
  else (strtoll string).whole "P0055" string

/-- The loop that looks for a minus sign behind white space. -/
def strconvIsNegative : Text → Bool
  | [] => false
  | c :: rest => c == byte '-' || isspace c && strconvIsNegative rest

/-- `gray_strconv_to_u64` in base ten. -/
def strconvToU64 (string : Text) : Except String ℤ :=
  if string.contains 0 || startsWithSpace string then .error "P0057"
  else if strconvIsNegative string then .error "P0058"
  else (strtoull string).whole "P0057" string

def strconvIsHexFloat (buffer : Text) : Bool :=
  let buffer :=
    if byteAt buffer 0 == byte '+' || byteAt buffer 0 == byte '-' then buffer.drop 1 else buffer
  byteAt buffer 0 == byte '0' && (byteAt buffer 1 == byte 'x' || byteAt buffer 1 == byte 'X')

/-- `gray_strconv_to_f64`, where `strtod` is the function of the C library. -/
def strconvToF64 {F : Type} (strtod : Text → StrtoResult F) (string : Text) : Except String F :=
  if string.contains 0 || strconvIsHexFloat string || string.contains (byte '(') ||
      startsWithSpace string then .error "P0059"
  else (strtod string).whole "P0059" string

/-! ### Texts of numbers -/

theorem StrtoResult.whole_of_rest {α : Type} {code : String} {string : Text} {r : StrtoResult α}
    (hne : string ≠ []) (hrest : r.rest = []) (hrng : r.isRangeError = false) :
    r.whole code string = .ok r.value := by
  have hlen : ¬ ([] : Text).length = string.length := fun h =>
    hne (length_eq_zero_iff.mp h.symm)
  rw [StrtoResult.whole, hrest, hrng]
  exact if_neg (not_or.mpr ⟨hlen, by simp⟩)

theorem decimal_checks {minus digits : Text} (hneg : minus = [] ∨ minus = [byte '-'])
    (hdig : IsDigits digits) : (minus ++ digits).contains 0 = false ∧
      startsWithSpace (minus ++ digits) = false ∧ minus ++ digits ≠ [] := by
  obtain ⟨d, digits, rfl⟩ := exists_cons_of_ne_nil hdig.1
  have hnul : (0 : UInt8) ∉ d :: digits := fun h => absurd (hdig.2 0 h) (by decide)
  have hd : isspace d = false := isspace_of_isdigit (hdig.2 d mem_cons_self)
  refine ⟨?_, ?_, append_ne_nil_of_right_ne_nil _ (cons_ne_nil _ _)⟩
  · rw [← Bool.not_eq_true, contains_iff_mem, mem_append]
    rintro (h | h)
    · rcases hneg with rfl | rfl
      · exact not_mem_nil h
      · exact absurd h (by decide)
    · exact hnul h
  · rcases hneg with rfl | rfl
    · simp [startsWithSpace, hd]
    · rfl

theorem strconvToI64_decimal {minus digits : Text} (hneg : minus = [] ∨ minus = [byte '-'])
    (hdig : IsDigits digits) (hlow : -2 ^ 63 ≤ signedNumber (minus == [byte '-']) digits)
    (hhigh : signedNumber (minus == [byte '-']) digits < 2 ^ 63) :
    strconvToI64 (minus ++ digits) = .ok (signedNumber (minus == [byte '-']) digits) := by
  obtain ⟨hnul, hsp, hne⟩ := decimal_checks hneg hdig
  have hconvert := strtoll_decimal hneg hdig.1 hdig.2 hlow hhigh
  rw [strconvToI64, hnul, hsp, Bool.or_false, if_neg Bool.false_ne_true, hconvert]
  exact StrtoResult.whole_of_rest hne rfl rfl

theorem strconvToU64_decimal {digits : Text} (hdig : IsDigits digits)
    (hhigh : DecimalText.read 0 digits < 2 ^ 64) :
    strconvToU64 digits = .ok (DecimalText.read 0 digits) := by
  obtain ⟨hnul, hsp, hne⟩ := decimal_checks (.inl rfl) hdig
  rw [nil_append] at hnul hsp hne
  have hneg : strconvIsNegative digits = false := by
    obtain ⟨d, rest, rfl⟩ := exists_cons_of_ne_nil hne
    have hd := hdig.2 d mem_cons_self
    have hminus : d ≠ byte '-' := by
      rintro rfl
      exact absurd hd (by decide)
    simp [strconvIsNegative, isspace_of_isdigit hd, -byte, hminus]
  rw [strconvToU64, hnul, hsp, Bool.or_false, if_neg Bool.false_ne_true, hneg,
    if_neg Bool.false_ne_true, strtoull_decimal hdig.1 hdig.2 hhigh]
  exact StrtoResult.whole_of_rest hne rfl rfl

/-- Bytes that are neither NUL nor `x`, `X` or `(`, so that a number is no hexadecimal one. -/
def IsNumberByte (c : UInt8) : Prop :=
  c ≠ 0 ∧ c ≠ byte 'x' ∧ c ≠ byte 'X' ∧ c ≠ byte '(' ∧ isspace c = false

theorem IsJsonNumber.isNumberByte {s : Text} (h : IsJsonNumber s) : ∀ c ∈ s, IsNumberByte c := by
  have hdig : ∀ c, isdigit c = true → IsNumberByte c := by
    intro c hc
    have hne : ∀ {d : UInt8}, isdigit d = false → c ≠ d := by
      rintro d hd rfl
      exact absurd (hc.symm.trans hd) (by decide)
    exact ⟨hne rfl, hne rfl, hne rfl, hne rfl, isspace_of_isdigit hc⟩
  have hoth : ∀ c, c = byte '-' ∨ c = byte '+' ∨ c = byte '.' ∨ c = byte 'e' ∨ c = byte 'E' →
      IsNumberByte c := by
    unfold IsNumberByte
    rintro c (rfl | rfl | rfl | rfl | rfl) <;> decide
  exact h.forall_mem hdig (hoth _ (by simp)) (hoth _ (by simp)) (hoth _ (by simp))
    (hoth _ (by simp)) (hoth _ (by simp))

theorem not_byteAt_of_forall_ne {s : Text} {c : UInt8} (h : ∀ d ∈ s, d ≠ c) (hc : c ≠ 0) (k : ℕ) :
    byteAt s k ≠ c := by
  intro hk
  rw [byteAt, getD_eq_getElem?_getD] at hk
  cases hget : s[k]? with
  | none => exact hc (by rw [← hk, hget]; rfl)
  | some d =>
    rw [hget] at hk
    exact h d (mem_of_getElem? hget) hk

theorem strconvToF64_number {F : Type} {strtod : Text → StrtoResult F} {s : Text}
    (hs : IsJsonNumber s) (hne : s ≠ []) (hrest : (strtod s).rest = [])
    (hrng : (strtod s).isRangeError = false) : strconvToF64 strtod s = .ok (strtod s).value := by
  have hbyt := hs.isNumberByte
  have hnul : s.contains 0 = false := by
    rw [← Bool.not_eq_true, contains_iff_mem]
    exact fun h => (hbyt 0 h).1 rfl
  have hopen : s.contains (byte '(') = false := by
    rw [← Bool.not_eq_true, contains_iff_mem]
    exact fun h => (hbyt _ h).2.2.2.1 rfl
  have hsp : startsWithSpace s = false := by
    obtain ⟨c, t, rfl⟩ := exists_cons_of_ne_nil hne
    simp [startsWithSpace, (hbyt c mem_cons_self).2.2.2.2]
  have hhex : strconvIsHexFloat s = false := by
    have hx : ∀ k : ℕ, ∀ t : Text, (∀ c ∈ t, IsNumberByte c) →
        (byteAt t k == byte 'x' || byteAt t k == byte 'X') = false := by
      intro k t ht
      rw [Bool.or_eq_false_iff, beq_eq_false_iff_ne, beq_eq_false_iff_ne]
      exact ⟨not_byteAt_of_forall_ne (fun d hd => (ht d hd).2.1) (by decide) k,
        not_byteAt_of_forall_ne (fun d hd => (ht d hd).2.2.1) (by decide) k⟩
    unfold strconvIsHexFloat
    simp only
    split_ifs with hsign
    · rw [hx 1 _ fun c hc => hbyt c (mem_of_mem_drop hc), Bool.and_false]
    · rw [hx 1 _ hbyt, Bool.and_false]
  rw [strconvToF64, hnul, hhex, hopen, hsp]
  simp only [Bool.or_false, Bool.false_eq_true, if_false]
  exact StrtoResult.whole_of_rest hne hrest hrng

end Grayscale
