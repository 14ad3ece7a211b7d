import Grayscale.Library.DecimalArithmetic
import Grayscale.Library.StringToInteger
import Grayscale.Stdlib.WideParse
import Mathlib.Data.Nat.Prime.Basic

/-!
# Overrides of integer constants

The check of the text of a `-define:` override against the integer type of its constant, as in
`parser/defines.c`. The limits of the types are texts of decimal digits in buffers of eighty bytes;
`none` stands for a write behind the end of a buffer.
-/

namespace Grayscale.Defines

open DecimalText List
open Option (bind_some map_some some.inj)

/-! ### The functions -/

def maxIntegerBits : ℕ := 256

/-- `MAX_INTEGER_DIGITS`, the size of the buffers of digits. -/
def maxIntegerDigits : ℕ := 80

/-- A text and its terminating NUL in a buffer of some size. -/
def inBuffer (size : ℕ) (text : Text) : Option Text :=
  if text.length < size then some text else none

/-- One step of `power_of_two_decimal`, on digits from the lowest on. -/
def doubleDigits (digits : List ℕ) : Option (List ℕ) :=
  let doubled := scaleDigits 2 0 digits
  if doubled.2 = 0 then some doubled.1
  else if digits.length < maxIntegerDigits then some (doubled.1 ++ [doubled.2])
  else none

/-- The loop of `power_of_two_decimal`. -/
def doublings : ℕ → Option (List ℕ)
  | 0 => some [1]
  | steps + 1 => (doublings steps).bind doubleDigits

/-- `power_of_two_decimal`, into a buffer of `MAX_INTEGER_DIGITS` bytes. -/
def powerOfTwoDecimal (exponent : ℕ) : Option Text := (doublings exponent).bind fun digits =>
    inBuffer maxIntegerDigits (digits.reverse.map digitByte)

def compareMagnitude (left right : Text) : Ordering :=
  if left.length ≠ right.length then
    if left.length < right.length then .lt else .gt
  else strcmp left right

/-- `integer_type_bits`: whether the type is signed, and its bits. `atoi` is `strtol`, cut to
thirty-two bits. -/
def integerTypeBits (typeName : Text) : Option (Bool × ℕ) :=
  if (byteAt typeName 0 ≠ byte 'i' ∧ byteAt typeName 0 ≠ byte 'u') ∨
      !isdigit (byteAt typeName 1) then none
  else
    let bits := (strtoll (typeName.drop 1)).value.bmod (2 ^ 32)
    if 8 ≤ bits ∧ bits ≤ maxIntegerBits then some (byteAt typeName 0 == byte 'i', bits.toNat)
    else none

def skipLeadingZeros : Text → Text
  | c :: d :: l => if c = byte '0' ∧ d ≠ 0 then skipLeadingZeros (d :: l) else c :: d :: l
  | l => l

/-- The greatest magnitude of a type, for negative numbers or for the others. -/
def integerLimit (isSigned : Bool) (bits : ℕ) (isNegative : Bool) : Option Text :=
  (powerOfTwoDecimal (if isSigned then bits - 1 else bits)).map fun limit =>
    if isNegative then limit
    else limit.set (limit.length - 1) (byteAt limit (limit.length - 1) - 1)

/-- The part of `normalize_integer` behind the check of the digits. -/
def normalizeMagnitude (isNegative : Bool) (cursor : Text) (isSigned : Bool) (bits : ℕ) :
    Option (Option Text) :=
  if maxIntegerDigits ≤ cursor.length then some none
  else
    let isZero := byteAt cursor 0 == byte '0'
    if isNegative && !isZero && !isSigned then some none
    else (integerLimit isSigned bits (isNegative && !isZero)).bind fun limit =>
      if compareMagnitude cursor limit = .gt then some none
      else (inBuffer (cursor.length + 2)
        ((if isNegative && !isZero then [byte '-'] else []) ++ cursor)).map some

/-- `normalize_integer`: the normalized text, if the text is one of an integer of the type. -/
def normalizeInteger (text : Text) (isSigned : Bool) (bits : ℕ) : Option (Option Text) :=
  let isNegative := byteAt text 0 == byte '-'
  let cursor := if isNegative || byteAt text 0 == byte '+' then text.drop 1 else text
  if cursor = [] ∨ !cursor.all isdigit then some none
  else normalizeMagnitude isNegative (skipLeadingZeros cursor) isSigned bits

/-! ### Integers -/

/-- Decimal integers: a sign at most, and digits. -/
def IsSignedDecimal (text : Text) (value : ℤ) : Prop :=
  ∃ sign digits, text = sign ++ digits ∧ (sign = [] ∨ sign = [byte '+'] ∨ sign = [byte '-']) ∧
    digits ≠ [] ∧ (∀ c ∈ digits, isdigit c = true) ∧
    value = signedNumber (decide (sign = [byte '-'])) digits

def InIntegerRange (isSigned : Bool) (bits : ℕ) (value : ℤ) : Prop :=
  if isSigned then -2 ^ (bits - 1) ≤ value ∧ value < 2 ^ (bits - 1)
  else 0 ≤ value ∧ value < 2 ^ bits

instance (isSigned : Bool) (bits : ℕ) (value : ℤ) :
    Decidable (InIntegerRange isSigned bits value) := inferInstanceAs (Decidable (ite _ _ _))

/-- The first digit is a zero in the text of zero only. -/
def HasNoLeadingZero (text : Text) : Prop :=
  ∀ sign digits, text = sign ++ digits → (sign = [] ∨ sign = [byte '+'] ∨ sign = [byte '-']) →
    digits.head? = some (byte '0') → digits = [byte '0']

def integerText (value : ℤ) : Text := (if value < 0 then [byte '-'] else []) ++ render value.natAbs

/-! ### The limits -/

theorem doubleDigits_digits {n : ℕ} (hn : n ≠ 0) (hsize : n < 10 ^ (maxIntegerDigits - 1)) :
    doubleDigits (Nat.digits 10 n) = some (Nat.digits 10 (n * 2)) := by
  have hdig := @scaleDigits_digits 2 0 n (by decide) hn
  have hcarry := @scaleDigits_carry_lt 2 0 (Nat.digits 10 n)
    (fun d hd => Nat.digits_lt_base (by decide) hd) (by decide)
  have hlen : (Nat.digits 10 n).length ≤ maxIntegerDigits - 1 :=
    (Nat.digits_length_le_iff (by decide) n).mpr hsize
  rw [Nat.add_zero] at hdig
  rw [doubleDigits]
  split_ifs with hzero hfits
  · rw [hzero, Nat.digits_zero, append_nil] at hdig
    rw [hdig]
  · rw [Nat.digits_of_lt 10 _ hzero (by omega)] at hdig
    rw [hdig]
  · rw [maxIntegerDigits] at hfits hlen
    omega

theorem two_pow_lt {k : ℕ} (hk : k ≤ maxIntegerBits) : 2 ^ k < 10 ^ (maxIntegerDigits - 1) :=
  (Nat.pow_le_pow_right (by decide) hk).trans_lt (by decide)

theorem doublings_eq {steps : ℕ} (h : steps ≤ maxIntegerBits) :
    doublings steps = some (Nat.digits 10 (2 ^ steps)) := by
  induction steps with
  | zero => rfl
  | succ steps ih =>
    rw [doublings, ih (by omega), bind_some,
      doubleDigits_digits (Nat.two_pow_pos steps).ne' (two_pow_lt (by omega)), pow_succ]

theorem powerOfTwoDecimal_eq {exponent : ℕ} (h : exponent ≤ maxIntegerBits) :
    powerOfTwoDecimal exponent = some (render (2 ^ exponent)) := by
  have hpos := (Nat.two_pow_pos exponent).ne'
  have hlen := length_render_le (by decide) (two_pow_lt h)
  rw [powerOfTwoDecimal, doublings_eq h, bind_some, inBuffer]
  rw [render, if_neg hpos, digits] at hlen ⊢
  rw [if_pos (hlen.trans_lt (by decide))]

theorem render_pred {n : ℕ} (h : n % 10 ≠ 0) (hn : n ≠ 1) : (render n).set ((render n).length - 1)
    (byteAt (render n) ((render n).length - 1) - 1) = render (n - 1) := by
  have hlast : ∀ d < 10, d ≠ 0 → digitByte d - 1 = digitByte (d - 1) := by decide
  rw [render, render, if_neg (by omega), if_neg (by omega), digits_of_ne_zero (by omega),
    digits_of_ne_zero (show n - 1 ≠ 0 by omega), length_append, length_singleton,
    Nat.add_sub_cancel, show (n - 1) / 10 = n / 10 by omega,
    show (n - 1) % 10 = n % 10 - 1 by omega, ← hlast _ (Nat.mod_lt n (by decide)) h]
  simp [byteAt]

theorem two_pow_mod_ten (k : ℕ) : 2 ^ k % 10 ≠ 0 := by
  intro h
  have hfive : 5 ∣ 2 ^ k := Dvd.dvd.trans (by decide) (Nat.dvd_of_mod_eq_zero h)
  exact absurd (Nat.prime_five.dvd_of_dvd_pow hfive) (by decide)

variable {isSigned : Bool}

theorem integerLimit_eq {bits : ℕ} (hlow : 8 ≤ bits)
    (hhigh : bits ≤ maxIntegerBits) (isNegative : Bool) : integerLimit isSigned bits isNegative =
      some (render (2 ^ (if isSigned then bits - 1 else bits) - if isNegative then 0 else 1)) := by
  have hexpo : 7 ≤ (if isSigned then bits - 1 else bits) ∧
      (if isSigned then bits - 1 else bits) ≤ maxIntegerBits := by
    split_ifs <;> omega
  rw [integerLimit, powerOfTwoDecimal_eq hexpo.2, map_some]
  cases isNegative with
  | true => rfl
  | false =>
    have hone : 2 ^ (if isSigned then bits - 1 else bits) ≠ 1 := (Nat.one_lt_two_pow (by omega)).ne'
    exact congrArg some (render_pred (two_pow_mod_ten _) hone)

/-! ### The magnitude -/

theorem compareMagnitude_render (m n : ℕ) :
    compareMagnitude (render m) (render n) = compare m n := by
  rw [compareMagnitude]
  split_ifs with hne hlt
  · exact (Nat.compare_eq_lt.mpr (by
      by_contra hle
      exact absurd (length_render_mono (Nat.not_lt.mp hle)) (by omega))).symm
  · exact (Nat.compare_eq_gt.mpr (by
      by_contra hle
      exact absurd (length_render_mono (Nat.not_lt.mp hle)) (by omega))).symm
  · rw [strcmp_eq (fun c hc => isDigit_of_mem_render hc) (fun c hc => isDigit_of_mem_render hc)
      (Decidable.not_not.mp hne), read_render, read_render]

theorem skipLeadingZeros_eq {digits : Text} (hne : digits ≠ [])
    (hdig : ∀ c ∈ digits, IsDigit c) : skipLeadingZeros digits = render (read 0 digits) := by
  induction digits with
  | nil => exact absurd rfl hne
  | cons c l ih =>
    cases l with
    | nil => exact (render_read hne hdig fun h => by rw [some.inj h]).symm
    | cons d l =>
      obtain ⟨hc, hrest⟩ := forall_mem_cons.mp hdig
      have hd : d ≠ 0 := by
        rintro rfl
        exact absurd (hrest 0 (mem_cons_self ..)).1 (by decide)
      rw [skipLeadingZeros]
      split_ifs with hzero
      · obtain ⟨rfl, -⟩ := hzero
        rw [ih (cons_ne_nil _ _) hrest]
        rfl
      · refine (render_read hne hdig fun h => absurd ⟨?_, hd⟩ hzero).symm
        exact some.inj h

theorem byteAt_render (n : ℕ) : (byteAt (render n) 0 == byte '0') = decide (n = 0) := by
  rw [Bool.eq_iff_iff, beq_iff_eq, decide_eq_true_eq]
  constructor
  · intro h
    obtain ⟨l, hl⟩ := cons_of_byteAt h (by decide)
    have hren : render n = [digitByte 0] := render_eq_zero_of_head? (by rw [hl]; rfl)
    rw [← read_render n, hren]
    rfl
  · rintro rfl
    rfl

theorem not_inIntegerRange_of_length {bits n : ℕ} (hhigh : bits ≤ maxIntegerBits)
    (h : maxIntegerDigits ≤ (render n).length) (isNegative : Bool) :
    ¬ InIntegerRange isSigned bits (if isNegative then -(n : ℤ) else n) := by
  have hn : 10 ^ (maxIntegerDigits - 1) ≤ n := by
    by_contra hlt
    have hle := length_render_le (by decide) (Nat.not_le.mp hlt)
    rw [maxIntegerDigits] at h hle
    omega
  have hpow : 2 ^ maxIntegerBits < n := (two_pow_lt (le_refl _)).trans_le hn
  have hbits : 2 ^ bits ≤ 2 ^ maxIntegerBits := Nat.pow_le_pow_right (by decide) hhigh
  have hsig : 2 ^ (bits - 1) ≤ 2 ^ maxIntegerBits := Nat.pow_le_pow_right (by decide) (by omega)
  zify at hpow hbits hsig
  rw [InIntegerRange]
  cases isSigned <;> cases isNegative <;>
    simp only [Bool.false_eq_true, if_true, if_false] <;> omega

theorem inIntegerRange_iff {isSigned minus : Bool} (bits n : ℕ) (hneg : minus = true → n ≠ 0) :
    InIntegerRange isSigned bits (if minus then -(n : ℤ) else n) ↔ (minus && !isSigned) = false ∧
      n ≤ 2 ^ (if isSigned then bits - 1 else bits) - if minus then 0 else 1 := by
  have hcast : ∀ k, ∃ bound : ℕ, 0 < bound ∧ 2 ^ k = bound ∧ (2 : ℤ) ^ k = bound :=
    fun k => ⟨2 ^ k, Nat.two_pow_pos k, rfl, by push_cast; rfl⟩
  obtain ⟨signedBound, hsig, hsignedNat, hsignedInt⟩ := hcast (bits - 1)
  obtain ⟨unsignedBound, huns, hunsignedNat, hunsignedInt⟩ := hcast bits
  cases isSigned <;> cases minus <;>
    simp only [InIntegerRange, Bool.false_eq_true, if_true, if_false, Bool.true_and, Bool.false_and,
      Bool.not_true, Bool.not_false, true_and, hsignedNat, hsignedInt, hunsignedNat, hunsignedInt]
  · omega
  · have hn := hneg rfl
    simp only [Bool.true_eq_false, false_and, iff_false]
    omega
  · omega
  · have hn := hneg rfl
    omega

theorem integerText_eq {minus : Bool} (n : ℕ) (hneg : minus = true → n ≠ 0) :
    integerText (if minus then -(n : ℤ) else n) =
      (if minus then [byte '-'] else []) ++ render n := by
  cases minus with
  | false =>
    simp only [Bool.false_eq_true, if_false, integerText]
    rw [if_neg (by omega), Int.natAbs_natCast]
  | true =>
    have hn := hneg rfl
    simp only [if_true, integerText]
    rw [if_pos (by omega), Int.natAbs_neg, Int.natAbs_natCast]

theorem normalizeMagnitude_render {bits : ℕ} (hlow : 8 ≤ bits)
    (hhigh : bits ≤ maxIntegerBits) (isNegative : Bool) (n : ℕ) :
    normalizeMagnitude isNegative (render n) isSigned bits =
      some (if InIntegerRange isSigned bits (if isNegative then -(n : ℤ) else n) then
        some (integerText (if isNegative then -(n : ℤ) else n)) else none) := by
  by_cases hlong : maxIntegerDigits ≤ (render n).length
  · rw [normalizeMagnitude, if_pos hlong,
      if_neg (not_inIntegerRange_of_length hhigh hlong isNegative)]
  -- a negative zero counts as zero
  have hneg : ∃ minus, (isNegative && !decide (n = 0)) = minus ∧ (minus = true → n ≠ 0) ∧
      (if isNegative then -(n : ℤ) else n) = if minus then -(n : ℤ) else n := by
    cases isNegative with
    | false => exact ⟨false, rfl, nofun, rfl⟩
    | true =>
      by_cases hn : n = 0
      · subst hn
        exact ⟨false, rfl, nofun, rfl⟩
      · exact ⟨true, by simp [hn], fun _ => hn, rfl⟩
  obtain ⟨minus, heq, hne, hval⟩ := hneg
  have hrng := @inIntegerRange_iff isSigned minus bits n hne
  have hbuf : inBuffer ((render n).length + 2) ((if minus then [byte '-'] else []) ++ render n) =
      some (integerText (if minus then -(n : ℤ) else n)) := by
    rw [integerText_eq n hne, inBuffer, if_pos]
    have hsign : (if minus then [byte '-'] else []).length ≤ 1 := by cases minus <;> decide
    rw [length_append]
    omega
  rw [hval, normalizeMagnitude, if_neg hlong]
  simp only [byteAt_render, heq]
  generalize (if minus then -(n : ℤ) else n) = value at hrng hbuf ⊢
  by_cases huns : (minus && !isSigned) = true
  · rw [if_pos huns, if_neg]
    exact fun h => absurd ((hrng.mp h).1.symm.trans huns) (by decide)
  · rw [if_neg huns, integerLimit_eq hlow hhigh, bind_some, compareMagnitude_render, hbuf, map_some]
    rw [Bool.not_eq_true] at huns
    rw [and_iff_right huns] at hrng
    by_cases hin : InIntegerRange isSigned bits value
    · rw [if_pos hin, if_neg fun h => Nat.not_le.mpr (Nat.compare_eq_gt.mp h) (hrng.mp hin)]
    · rw [if_neg hin, if_pos (Nat.compare_eq_gt.mpr (Nat.not_le.mp (mt hrng.mpr hin)))]

/-! ### The text -/

theorem byteAt_sign {sign : Text} {d : UInt8} (l : Text)
    (hsign : sign = [] ∨ sign = [byte '+'] ∨ sign = [byte '-']) (hd : IsDigit d) :
    (byteAt (sign ++ d :: l) 0 == byte '-') = decide (sign = [byte '-']) ∧
      (if byteAt (sign ++ d :: l) 0 == byte '-' || byteAt (sign ++ d :: l) 0 == byte '+' then
        (sign ++ d :: l).drop 1 else sign ++ d :: l) = d :: l := by
  rcases hsign with rfl | rfl | rfl
  · have hne : ∀ x : UInt8, ¬ IsDigit x → (d == x) = false := by
      rintro x hx
      rw [beq_eq_false_iff_ne]
      rintro rfl
      exact hx hd
    have hneg := hne (byte '-') (by unfold IsDigit; decide)
    have hplus := hne (byte '+') (by unfold IsDigit; decide)
    simp only [nil_append, byteAt_zero, hneg, hplus]
    exact ⟨rfl, rfl⟩
  · exact ⟨rfl, rfl⟩
  · exact ⟨rfl, rfl⟩

theorem normalizeInteger_eq {text : Text} {value : ℤ} (h : IsSignedDecimal text value)
    {isSigned : Bool} {bits : ℕ} (hlow : 8 ≤ bits) (hhigh : bits ≤ maxIntegerBits) :
    normalizeInteger text isSigned bits =
      some (if InIntegerRange isSigned bits value then some (integerText value) else none) := by
  obtain ⟨sign, digits, rfl, hsign, hne, hdig, rfl⟩ := h
  obtain ⟨d, l, rfl⟩ := exists_cons_of_ne_nil hne
  have hall : ∀ c ∈ d :: l, IsDigit c := fun c hc => (isdigit_iff c).mp (hdig c hc)
  obtain ⟨hneg, hcur⟩ := byteAt_sign l hsign (hall d (mem_cons_self ..))
  have hchk : ¬ (d :: l = [] ∨ (!(d :: l).all isdigit) = true) := by
    rw [all_eq_true.mpr hdig]
    exact not_or.mpr ⟨cons_ne_nil _ _, by decide⟩
  rw [normalizeInteger]
  simp only [hcur]
  rw [hneg, if_neg hchk, skipLeadingZeros_eq hne hall, normalizeMagnitude_render hlow hhigh]
  rfl

theorem normalizeInteger_of_malformed {text : Text} (h : ∀ value, ¬ IsSignedDecimal text value)
    (isSigned : Bool) (bits : ℕ) : normalizeInteger text isSigned bits = some none := by
  rw [normalizeInteger]
  refine if_pos ?_
  by_contra hchk
  rw [not_or, Bool.not_eq_true', Bool.not_eq_false, all_eq_true] at hchk
  split_ifs at hchk with hsign
  · rw [Bool.or_eq_true, beq_iff_eq, beq_iff_eq] at hsign
    obtain ⟨c, hc, l, rfl⟩ : ∃ c, (c = byte '-' ∨ c = byte '+') ∧ ∃ l, text = c :: l := by
      rcases hsign with hsign | hsign
      · exact ⟨_, .inl rfl, cons_of_byteAt hsign (by decide)⟩
      · exact ⟨_, .inr rfl, cons_of_byteAt hsign (by decide)⟩
    refine h _ ⟨[c], l, rfl, ?_, hchk.1, hchk.2, rfl⟩
    rcases hc with rfl | rfl
    · exact .inr (.inr rfl)
    · exact .inr (.inl rfl)
  · exact h _ ⟨[], text, rfl, .inl rfl, hchk.1, hchk.2, rfl⟩

theorem isSignedDecimal_integerText (value : ℤ) : IsSignedDecimal (integerText value) value := by
  have hdig : ∀ c ∈ render value.natAbs, isdigit c = true :=
    fun c hc => (isdigit_iff c).mpr (isDigit_of_mem_render hc)
  rw [integerText]
  split_ifs with hneg
  · refine ⟨[byte '-'], _, rfl, .inr (.inr rfl), render_ne_nil _, hdig, ?_⟩
    rw [decide_eq_true rfl, signedNumber, if_pos rfl, read_render]
    omega
  · refine ⟨[], _, rfl, .inl rfl, render_ne_nil _, hdig, ?_⟩
    rw [decide_eq_false (by decide), signedNumber, if_neg (by decide), read_render]
    omega

theorem hasNoLeadingZero_integerText (value : ℤ) : HasNoLeadingZero (integerText value) := by
  intro sign digits heq hsign hhead
  have hren : ∀ c ∈ render value.natAbs, c ≠ byte '-' ∧ c ≠ byte '+' := by
    intro c hc
    have hdigit := isDigit_of_mem_render hc
    constructor <;> rintro rfl <;> exact absurd hdigit (by unfold IsDigit; decide)
  suffices hdig : digits = render value.natAbs by
    rw [hdig] at hhead ⊢
    exact render_eq_zero_of_head? hhead
  rw [integerText] at heq
  split_ifs at heq with hneg
  · rcases hsign with rfl | rfl | rfl
    · rw [nil_append] at heq
      rw [← heq] at hhead
      exact absurd (some.inj hhead) (by decide)
    · exact absurd (List.cons.inj heq).1 (by decide)
    · exact (List.cons.inj heq).2.symm
  · rw [nil_append] at heq
    rcases hsign with rfl | rfl | rfl
    · exact heq.symm
    · exact absurd rfl (hren (byte '+') (by rw [heq]; exact mem_cons_self ..)).2
    · exact absurd rfl (hren (byte '-') (by rw [heq]; exact mem_cons_self ..)).1

/-- An override is accepted when it is a decimal integer in the range of the type; the normalized
text is its value without leading zeros, and no buffer overflows. -/
theorem normalizeInteger_accepts_iff {typeName : Text} {isSigned : Bool} {bits : ℕ}
    (htype : integerTypeBits typeName = some (isSigned, bits)) (text : Text) :
    ∃ result, normalizeInteger text isSigned bits = some result ∧
      (result.isSome ↔ ∃ value, IsSignedDecimal text value ∧ InIntegerRange isSigned bits value) ∧
      ∀ normalized, result = some normalized → HasNoLeadingZero normalized ∧
        ∃ value, IsSignedDecimal text value ∧ IsSignedDecimal normalized value := by
  have hbits : 8 ≤ bits ∧ bits ≤ maxIntegerBits := by
    rw [integerTypeBits] at htype
    simp only at htype
    split_ifs at htype with hname hrng
    obtain ⟨-, rfl⟩ := Prod.mk.inj (some.inj htype)
    exact ⟨by omega, by omega⟩
  by_cases htext : ∃ value, IsSignedDecimal text value
  · obtain ⟨value, hval⟩ := htext
    have hres := @normalizeInteger_eq text value hval isSigned bits hbits.1 hbits.2
    refine ⟨_, hres, ⟨fun h => ?_, ?_⟩, ?_⟩
    · by_contra hout
      rw [if_neg fun hin => hout ⟨value, hval, hin⟩] at h
      cases h
    · rintro ⟨other, hoth, hin⟩
      have hres' := @normalizeInteger_eq text other hoth isSigned bits hbits.1 hbits.2
      rw [hres, if_pos hin] at hres'
      rw [some.inj hres']
      rfl
    · intro normalized h
      split_ifs at h
      cases h
      exact ⟨hasNoLeadingZero_integerText value, value, hval, isSignedDecimal_integerText value⟩
  · refine ⟨none, normalizeInteger_of_malformed (not_exists.mp htext) _ _, ?_, nofun⟩
    constructor
    · exact nofun
    · rintro ⟨value, hval, -⟩
      exact absurd ⟨value, hval⟩ htext

theorem normalizeInteger_accepts_iff_u8 : ∃ result,
    normalizeInteger (bytes "+00255") false 8 = some result ∧
      (result.isSome ↔ ∃ value, IsSignedDecimal (bytes "+00255") value ∧
        InIntegerRange false 8 value) ∧
      ∀ normalized, result = some normalized → HasNoLeadingZero normalized ∧
        ∃ value, IsSignedDecimal (bytes "+00255") value ∧ IsSignedDecimal normalized value :=
  @normalizeInteger_accepts_iff (bytes "u8") false 8 (by decide) (bytes "+00255")

example : integerTypeBits (bytes "i256") = some (true, 256) := by decide

example : normalizeInteger (bytes "+00255") false 8 = some (some (bytes "255")) := by decide

end Grayscale.Defines
