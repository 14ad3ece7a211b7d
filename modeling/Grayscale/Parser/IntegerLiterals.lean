import Grayscale.Lexer.NumberLiterals
import Grayscale.Library.DecimalArithmetic

/-!
# Integer literals

What the parser makes of the text of an integer literal: the value in sixty-four bits, whether it
is above the maxima of `i64` and `u64`, and a decimal text of it for the wide types.
-/

namespace Grayscale

open DecimalText List

/-! ### The functions -/

/-- The value of a digit in the loops over hexadecimal digits. -/
def radixDigitValue (c : UInt8) : ℕ :=
  if byte '0' ≤ c ∧ c ≤ byte '9' then c.toNat - 48
  else if byte 'a' ≤ c ∧ c ≤ byte 'f' then c.toNat - 97 + 10
  else if byte 'A' ≤ c ∧ c ≤ byte 'F' then c.toNat - 65 + 10
  else 0

/-- The loop over the carry, into a buffer of digits from the lowest on. -/
def pushCarry (capacity carry : ℕ) (digits : List ℕ) : Option (List ℕ) :=
  if carry = 0 then some digits
  else if digits.length < capacity then
    pushCarry capacity (carry / 10) (digits ++ [carry % 10])
  else none
termination_by carry
decreasing_by omega

/-- One digit of `radix_digits_to_decimal`. -/
def radixStep (capacity base : ℕ) (digits : List ℕ) (c : UInt8) : Option (List ℕ) :=
  if c = byte '_' then some digits
  else
    let product := scaleDigits base (radixDigitValue c) digits
    pushCarry capacity product.2 product.1

def radixDigitsToDecimal (digits : Text) (base : ℕ) : Option Text :=
  (digits.foldlM (radixStep (2 * digits.length + 2) base) [0]).map fun decimalDigits =>
    decimalDigits.reverse.map digitByte

/-- One byte of the loops over the digits: the value wraps around, and a check in front of the
multiplication finds the values that do. -/
def accumulateDigit (base : ℕ) (digitOf : UInt8 → ℕ) (overflows : ℕ → ℕ → Bool) (s : ℕ × Bool)
    (c : UInt8) : ℕ × Bool :=
  if c = byte '_' then s
  else ((s.1 * base + digitOf c) % 2 ^ 64, s.2 || overflows s.1 (digitOf c))

def accumulateHex : Text → ℕ × Bool :=
  List.foldl (accumulateDigit 16 radixDigitValue fun v _ => (2 ^ 64 - 1) >>> 4 < v) (0, false)

def accumulateOctal : Text → ℕ × Bool :=
  List.foldl (accumulateDigit 8 digitValue fun v _ => (2 ^ 64 - 1) >>> 3 < v) (0, false)

def accumulateBinary : Text → ℕ × Bool :=
  List.foldl (accumulateDigit 2 digitValue fun v _ => (2 ^ 64 - 1) >>> 1 < v) (0, false)

def accumulateDecimal : Text → ℕ × Bool :=
  List.foldl (accumulateDigit 10 digitValue fun v d => (2 ^ 64 - 1 - d) / 10 < v) (0, false)

/-- What depends on the prefix of a literal: the value with its flag, and the decimal text. -/
def literalMagnitude (text : Text) : (ℕ × Bool) × Option Text :=
  if byteAt text 0 = byte '0' ∧ (byteAt text 1 = byte 'x' ∨ byteAt text 1 = byte 'X') then
    (accumulateHex (text.drop 2), radixDigitsToDecimal (text.drop 2) 16)
  else if byteAt text 0 = byte '0' ∧ (byteAt text 1 = byte 'o' ∨ byteAt text 1 = byte 'O') then
    (accumulateOctal (text.drop 2), radixDigitsToDecimal (text.drop 2) 8)
  else if byteAt text 0 = byte '0' ∧ (byteAt text 1 = byte 'b' ∨ byteAt text 1 = byte 'B') then
    (accumulateBinary (text.drop 2), radixDigitsToDecimal (text.drop 2) 2)
  else (accumulateDecimal text, some text)

/-- The fields of an integer literal's node. -/
structure IntegerLiteralNode where
  value : ℤ
  literal : Text
  isAboveI64Maximum : Bool
  isAboveU64Maximum : Bool
  deriving DecidableEq

/-- `parse_integer_literal`, on the text of the token. -/
def parseIntegerLiteral (text : Text) : Option IntegerLiteralNode :=
  let ((unsignedValue, isAboveU64Maximum), literal) := literalMagnitude text
  literal.map fun literal => {
    value := (unsignedValue : ℤ).bmod (2 ^ 64)
    literal := literal
    isAboveI64Maximum := isAboveU64Maximum || 2 ^ 63 - 1 < unsignedValue
    isAboveU64Maximum := isAboveU64Maximum }

/-! ### Numbers -/

/-- The number that digits denote in a base; separators do not count. -/
def digitsNumber (base : ℕ) (digits : Text) : ℕ :=
  (digits.filter (· != byte '_')).foldl (fun n c => n * base + hexDigitValue c) 0

/-- Digits of a base, with separators among them. -/
def AreDigits (base : ℕ) (digits : Text) : Prop :=
  ∀ c ∈ digits, isBaseDigit base c = true ∨ c = byte '_'

instance (base : ℕ) (digits : Text) : Decidable (AreDigits base digits) :=
  List.decidableBAll (fun c => isBaseDigit base c = true ∨ c = byte '_') digits

/-- Integer literals and the numbers they denote. -/
inductive DenotesInteger : Text → ℕ → Prop
  | decimal {digits : Text} (hdigits : AreDigits 10 digits)
      (hsome : ∃ c ∈ digits, isdigit c = true) : DenotesInteger digits (digitsNumber 10 digits)
  | prefixed {marker : UInt8} {base : ℕ} {digits : Text} (hbase : (marker, base) ∈ baseMarkers)
      (hdigits : AreDigits base digits) :
      DenotesInteger (byte '0' :: marker :: digits) (digitsNumber base digits)

/-- The number that digits denote behind a number. -/
def digitsNumberFrom (base n : ℕ) (digits : Text) : ℕ :=
  digits.foldl (fun n c => if c = byte '_' then n else n * base + hexDigitValue c) n

theorem digitsNumber_eq (base : ℕ) (digits : Text) :
    digitsNumber base digits = digitsNumberFrom base 0 digits := by
  rw [digitsNumber, foldl_filter, digitsNumberFrom]
  simp only [bne_iff_ne, ne_eq, ite_not]

/-- The bases of integer literals. -/
def IsBase (base : ℕ) : Prop := base = 2 ∨ base = 8 ∨ base = 10 ∨ base = 16

instance (base : ℕ) : Decidable (IsBase base) := inferInstanceAs (Decidable (_ ∨ _))

theorem isBase_of_baseMarkers {marker : UInt8} {base : ℕ} (h : (marker, base) ∈ baseMarkers) :
    IsBase base := by
  have hbases : ∀ entry ∈ baseMarkers, IsBase entry.2 := by decide
  exact hbases _ h

variable {base : ℕ}

theorem IsBase.bounds (h : IsBase base) : 2 ≤ base ∧ base ≤ 16 := by
  rcases h with rfl | rfl | rfl | rfl <;> decide

theorem isBaseDigit_value (hbase : IsBase base) {c : UInt8}
    (h : isBaseDigit base c = true) : c ≠ byte '_' ∧ hexDigitValue c < base ∧
      radixDigitValue c = hexDigitValue c ∧ (base ≠ 16 → digitValue c = hexDigitValue c) := by
  have hdig : ∀ n < 256, isBaseDigit base (UInt8.ofNat n) = true →
      UInt8.ofNat n ≠ byte '_' ∧ hexDigitValue (UInt8.ofNat n) < base ∧
        radixDigitValue (UInt8.ofNat n) = hexDigitValue (UInt8.ofNat n) ∧
        (base ≠ 16 → digitValue (UInt8.ofNat n) = hexDigitValue (UInt8.ofNat n)) := by
    rcases hbase with rfl | rfl | rfl | rfl <;> decide +kernel
  have hc := hdig c.toNat c.toNat_lt
  rw [UInt8.ofNat_toNat] at hc
  exact hc h

/-! ### The value -/

section Accumulate

variable {base : ℕ} {digitOf : UInt8 → ℕ} {overflows : ℕ → ℕ → Bool}

theorem accumulateDigit_eq (hbase : 0 < base)
    (hoverflows : ∀ v d, d < base → overflows v d = decide (2 ^ 64 ≤ v * base + d)) {n : ℕ}
    {c : UInt8} (hc : c ≠ byte '_') (hdigit : digitOf c < base) :
    accumulateDigit base digitOf overflows (n % 2 ^ 64, decide (2 ^ 64 ≤ n)) c =
      ((n * base + digitOf c) % 2 ^ 64, decide (2 ^ 64 ≤ n * base + digitOf c)) := by
  rw [accumulateDigit, if_neg hc]
  refine Prod.ext ?_ ?_
  · exact ((Nat.mod_modEq n _).mul_right base).add_right _
  · change (decide (2 ^ 64 ≤ n) || overflows (n % 2 ^ 64) (digitOf c)) =
      decide (2 ^ 64 ≤ n * base + digitOf c)
    rw [hoverflows _ _ hdigit]
    by_cases hn : 2 ^ 64 ≤ n
    · have hle : n * 1 ≤ n * base := Nat.mul_le_mul_left n hbase
      rw [decide_eq_true hn, Bool.true_or, eq_comm, decide_eq_true_eq]
      omega
    · rw [decide_eq_false hn, Bool.false_or, Nat.mod_eq_of_lt (Nat.not_le.mp hn)]

theorem foldl_accumulateDigit (hbase : IsBase base)
    (hoverflows : ∀ v d, d < base → overflows v d = decide (2 ^ 64 ≤ v * base + d))
    (hval : ∀ c, isBaseDigit base c = true → digitOf c = hexDigitValue c) {digits : Text}
    (hdig : AreDigits base digits) (n : ℕ) :
    digits.foldl (accumulateDigit base digitOf overflows) (n % 2 ^ 64, decide (2 ^ 64 ≤ n)) =
      (digitsNumberFrom base n digits % 2 ^ 64,
        decide (2 ^ 64 ≤ digitsNumberFrom base n digits)) := by
  induction digits generalizing n with
  | nil => rfl
  | cons c digits ih =>
    obtain ⟨hc, hdig⟩ := forall_mem_cons.mp hdig
    rw [foldl_cons, digitsNumberFrom, foldl_cons, ← digitsNumberFrom]
    by_cases hsep : c = byte '_'
    · rw [accumulateDigit, if_pos hsep, if_pos hsep]
      exact ih hdig n
    · have hdigit := hc.resolve_right hsep
      have hlt := (isBaseDigit_value hbase hdigit).2.1
      rw [accumulateDigit_eq (by have := hbase.bounds; omega) hoverflows hsep
        (by rwa [hval c hdigit]), if_neg hsep, hval c hdigit]
      exact ih hdig _

end Accumulate

theorem overflows_shift {base shift : ℕ} (h : base * 2 ^ (64 - shift) = 2 ^ 64)
    (hshf : (2 ^ 64 - 1) >>> shift = 2 ^ (64 - shift) - 1) (v d : ℕ) (hd : d < base) :
    decide ((2 ^ 64 - 1) >>> shift < v) = decide (2 ^ 64 ≤ v * base + d) := by
  rw [hshf, decide_eq_decide]
  have hpos : 0 < 2 ^ (64 - shift) := Nat.two_pow_pos _
  generalize 2 ^ (64 - shift) = size at *
  rw [← h]
  constructor
  · intro hlt
    have hle : base * size ≤ base * v := Nat.mul_le_mul_left base (by omega)
    rw [Nat.mul_comm v base]
    omega
  · intro hle
    by_contra hlt
    have hmul : base * v ≤ base * (size - 1) := Nat.mul_le_mul_left base (by omega)
    rw [Nat.mul_sub, Nat.mul_comm base v] at hmul
    have hbase : base ≤ base * size := Nat.le_mul_of_pos_right base hpos
    omega

variable {digits : Text}

theorem accumulateHex_eq (h : AreDigits 16 digits) : accumulateHex digits =
    (digitsNumber 16 digits % 2 ^ 64, decide (2 ^ 64 ≤ digitsNumber 16 digits)) := by
  have hbase : IsBase 16 := by decide
  rw [digitsNumber_eq]
  exact foldl_accumulateDigit hbase (overflows_shift (by decide) (by decide))
    (fun c hc => (isBaseDigit_value hbase hc).2.2.1) h 0

theorem accumulateOctal_eq (h : AreDigits 8 digits) : accumulateOctal digits =
    (digitsNumber 8 digits % 2 ^ 64, decide (2 ^ 64 ≤ digitsNumber 8 digits)) := by
  have hbase : IsBase 8 := by decide
  rw [digitsNumber_eq]
  exact foldl_accumulateDigit hbase (overflows_shift (by decide) (by decide))
    (fun c hc => (isBaseDigit_value hbase hc).2.2.2 (by decide)) h 0

theorem accumulateBinary_eq (h : AreDigits 2 digits) : accumulateBinary digits =
    (digitsNumber 2 digits % 2 ^ 64, decide (2 ^ 64 ≤ digitsNumber 2 digits)) := by
  have hbase : IsBase 2 := by decide
  rw [digitsNumber_eq]
  exact foldl_accumulateDigit hbase (overflows_shift (by decide) (by decide))
    (fun c hc => (isBaseDigit_value hbase hc).2.2.2 (by decide)) h 0

theorem accumulateDecimal_eq (h : AreDigits 10 digits) : accumulateDecimal digits =
    (digitsNumber 10 digits % 2 ^ 64, decide (2 ^ 64 ≤ digitsNumber 10 digits)) := by
  have hbase : IsBase 10 := by decide
  have hoverflows : ∀ v d, d < 10 →
      decide ((2 ^ 64 - 1 - d) / 10 < v) = decide (2 ^ 64 ≤ v * 10 + d) := by
    intro v d hd
    rw [decide_eq_decide]
    omega
  rw [digitsNumber_eq]
  exact foldl_accumulateDigit hbase hoverflows
    (fun c hc => (isBaseDigit_value hbase hc).2.2.2 (by decide)) h 0

/-! ### The decimal text -/

/-- The digits of a number from the lowest on; zero has one. -/
def lowDigits (n : ℕ) : List ℕ := if n = 0 then [0] else Nat.digits 10 n

theorem lowDigits_render (n : ℕ) : (lowDigits n).reverse.map digitByte = render n := by
  rw [lowDigits, render]
  split_ifs
  · rfl
  · rfl

theorem pushCarry_eq {capacity carry : ℕ} {digits : List ℕ}
    (h : digits.length + (Nat.digits 10 carry).length ≤ capacity) :
    pushCarry capacity carry digits = some (digits ++ Nat.digits 10 carry) := by
  induction carry using Nat.strongRecOn generalizing digits with
  | ind carry ih =>
    rw [pushCarry]
    split_ifs with hzero hfits
    · rw [hzero, Nat.digits_zero, append_nil]
    · rw [Nat.digits_def' (by decide) (Nat.pos_of_ne_zero hzero), length_cons] at h
      rw [ih (carry / 10) (Nat.div_lt_self (Nat.pos_of_ne_zero hzero) (by decide))
        (by rw [length_append, length_singleton]; omega),
        Nat.digits_def' (by decide) (Nat.pos_of_ne_zero hzero), append_assoc, singleton_append]
    · rw [Nat.digits_def' (by decide) (Nat.pos_of_ne_zero hzero), length_cons] at h
      omega

theorem scaleDigits_lowDigits {base d : ℕ} (hbase : 0 < base) (n : ℕ) :
    (scaleDigits base d (lowDigits n)).1 ++ Nat.digits 10 (scaleDigits base d (lowDigits n)).2 =
      lowDigits (n * base + d) := by
  by_cases hn : n = 0
  · subst hn
    rw [lowDigits, if_pos rfl, Nat.zero_mul, Nat.zero_add, lowDigits]
    simp only [scaleDigits, Nat.zero_mul, Nat.zero_add]
    split_ifs with hd
    · subst hd
      rfl
    · rw [Nat.digits_def' (by decide) (Nat.pos_of_ne_zero hd)]
      rfl
  · have hle : n * 1 ≤ n * base := Nat.mul_le_mul_left n hbase
    rw [lowDigits, if_neg hn, scaleDigits_digits hbase hn, lowDigits, if_neg (by omega)]

theorem length_lowDigits_le {base n k : ℕ} (hbase : base ≤ 16) (hn : n < base ^ k) :
    (lowDigits n).length ≤ 2 * k + 1 := by
  have hpow : n < 10 ^ (2 * k) :=
    calc n < base ^ k := hn
      _ ≤ 100 ^ k := Nat.pow_le_pow_left (hbase.trans (by decide)) k
      _ = 10 ^ (2 * k) := by rw [show 100 = 10 ^ 2 from rfl, ← pow_mul]
  rw [lowDigits]
  split_ifs
  · exact Nat.le_add_left 1 _
  · exact ((Nat.digits_length_le_iff (by decide) n).mpr hpow).trans (Nat.le_succ _)

theorem radixStep_eq {base capacity k n : ℕ} {c : UInt8} (hbase : IsBase base)
    (hdigit : isBaseDigit base c = true) (hn : n < base ^ k) (hfits : 2 * (k + 1) + 1 ≤ capacity) :
    radixStep capacity base (lowDigits n) c = some (lowDigits (n * base + hexDigitValue c)) ∧
      n * base + hexDigitValue c < base ^ (k + 1) := by
  obtain ⟨hsep, hlt, hval, -⟩ := isBaseDigit_value hbase hdigit
  have hbnd := hbase.bounds
  have hnext : n * base + hexDigitValue c < base ^ (k + 1) :=
    calc n * base + hexDigitValue c < (n + 1) * base := by rw [Nat.succ_mul]; omega
      _ ≤ base ^ k * base := Nat.mul_le_mul_right base hn
      _ = base ^ (k + 1) := (pow_succ ..).symm
  have hdig := @scaleDigits_lowDigits base (hexDigitValue c) (by omega) n
  have hlen := length_lowDigits_le hbnd.2 hnext
  rw [← hdig, length_append] at hlen
  rw [radixStep, if_neg hsep, hval, ← hdig]
  exact ⟨pushCarry_eq (hlen.trans hfits), hnext⟩

theorem foldlM_radixStep {base capacity : ℕ} (hbase : IsBase base) {digits : Text}
    (hdig : AreDigits base digits) {k n : ℕ} (hn : n < base ^ k)
    (hfits : 2 * (k + digits.length) + 1 ≤ capacity) :
    digits.foldlM (radixStep capacity base) (lowDigits n) =
      some (lowDigits (digitsNumberFrom base n digits)) := by
  induction digits generalizing k n with
  | nil => rfl
  | cons c digits ih =>
    obtain ⟨hc, hdig⟩ := forall_mem_cons.mp hdig
    rw [length_cons] at hfits
    rw [foldlM_cons, digitsNumberFrom, foldl_cons, ← digitsNumberFrom]
    by_cases hsep : c = byte '_'
    · rw [radixStep, if_pos hsep, if_pos hsep]
      exact ih hdig hn (by omega)
    · obtain ⟨hstep, hnext⟩ := @radixStep_eq base capacity k n c hbase (hc.resolve_right hsep) hn
        (by omega)
      rw [hstep, if_neg hsep]
      exact ih hdig hnext (by omega)

theorem radixDigitsToDecimal_eq (hbase : IsBase base) {digits : Text}
    (hdig : AreDigits base digits) :
    radixDigitsToDecimal digits base = some (render (digitsNumber base digits)) := by
  have hloop := @foldlM_radixStep base (2 * digits.length + 2) hbase digits hdig 0 0
    (by rw [pow_zero]; exact Nat.one_pos) (by omega)
  rw [radixDigitsToDecimal]
  change Option.map _ (digits.foldlM _ (lowDigits 0)) = _
  rw [hloop, Option.map_some, lowDigits_render, digitsNumber_eq]

/-! ### The literal -/

theorem isBaseDigit_ten (c : UInt8) : isBaseDigit 10 c = isdigit c := by
  rw [isBaseDigit, if_neg (by decide), isdigit]
  congr 1
  rw [decide_eq_decide, UInt8.le_iff_toNat_le]
  change c.toNat < 58 ↔ c.toNat ≤ 57
  omega

theorem isBaseDigit_of_mem_render {n : ℕ} {c : UInt8} (h : c ∈ render n) :
    isBaseDigit 10 c = true := by
  rw [isBaseDigit_ten, isdigit, Bool.and_eq_true, decide_eq_true_eq, decide_eq_true_eq]
  exact isDigit_of_mem_render h

theorem digitsNumber_render (n : ℕ) : digitsNumber 10 (render n) = n := by
  have hval : ∀ (l : Text) (m : ℕ), (∀ c ∈ l, isBaseDigit 10 c = true) →
      digitsNumberFrom 10 m l = read m l := by
    intro l
    induction l with
    | nil => exact fun _ _ => rfl
    | cons c l ih =>
      intro m hl
      obtain ⟨hc, hl⟩ := forall_mem_cons.mp hl
      obtain ⟨hsep, -, -, hdigit⟩ := isBaseDigit_value (by decide) hc
      rw [digitsNumberFrom, foldl_cons, if_neg hsep, ← hdigit (by decide)]
      exact ih _ hl
  rw [digitsNumber_eq, hval _ 0 fun c hc => isBaseDigit_of_mem_render hc, read_render]

/-- A decimal text of a number, with separators. -/
def IsDecimalOf (n : ℕ) (text : Text) : Prop :=
  AreDigits 10 text ∧ (∃ c ∈ text, isdigit c = true) ∧ digitsNumber 10 text = n

theorem isDecimalOf_render (n : ℕ) : IsDecimalOf n (render n) := by
  refine ⟨fun c hc => .inl (isBaseDigit_of_mem_render hc), ?_, digitsNumber_render n⟩
  obtain ⟨c, l, hl⟩ := exists_cons_of_ne_nil (render_ne_nil n)
  have hc : c ∈ render n := by
    rw [hl]
    exact mem_cons_self ..
  exact ⟨c, hc, (isBaseDigit_ten c).symm.trans (isBaseDigit_of_mem_render hc)⟩

theorem literalMagnitude_prefixed {marker : UInt8} {base : ℕ} {digits : Text}
    (hbase : (marker, base) ∈ baseMarkers) (hdig : AreDigits base digits) :
    literalMagnitude (byte '0' :: marker :: digits) =
      ((digitsNumber base digits % 2 ^ 64, decide (2 ^ 64 ≤ digitsNumber base digits)),
        some (render (digitsNumber base digits))) := by
  have htext := radixDigitsToDecimal_eq (isBase_of_baseMarkers hbase) hdig
  have hzero : byteAt (byte '0' :: marker :: digits) 0 = byte '0' := rfl
  have hnext : byteAt (byte '0' :: marker :: digits) 1 = marker := rfl
  have hdrop : (byte '0' :: marker :: digits).drop 2 = digits := rfl
  rw [literalMagnitude, hzero, hnext, hdrop]
  simp only [baseMarkers, mem_cons, Prod.mk.injEq, not_mem_nil, or_false] at hbase
  rcases hbase with ⟨rfl, rfl⟩ | ⟨rfl, rfl⟩ | ⟨rfl, rfl⟩ | ⟨rfl, rfl⟩ | ⟨rfl, rfl⟩ | ⟨rfl, rfl⟩
  · rw [if_pos (by decide), accumulateHex_eq hdig, htext]
  · rw [if_pos (by decide), accumulateHex_eq hdig, htext]
  · rw [if_neg (by decide), if_pos (by decide), accumulateOctal_eq hdig, htext]
  · rw [if_neg (by decide), if_pos (by decide), accumulateOctal_eq hdig, htext]
  · rw [if_neg (by decide), if_neg (by decide), if_pos (by decide), accumulateBinary_eq hdig, htext]
  · rw [if_neg (by decide), if_neg (by decide), if_pos (by decide), accumulateBinary_eq hdig, htext]

theorem literalMagnitude_decimal (hdig : AreDigits 10 digits) :
    literalMagnitude digits = ((digitsNumber 10 digits % 2 ^ 64,
      decide (2 ^ 64 ≤ digitsNumber 10 digits)), some digits) := by
  -- no marker stands behind the first digit
  have hmark : ∀ x : UInt8, isBaseDigit 10 x = false → x ≠ byte '_' → x ≠ 0 →
      byteAt digits 1 ≠ x := by
    rintro x hx hsep hnul rfl
    have hmem : byteAt digits 1 ∈ digits := by
      rw [byteAt, getD_eq_getElem?_getD] at hnul ⊢
      cases h : digits[1]? with
      | none =>
        rw [h] at hnul
        exact absurd rfl hnul
      | some c => exact mem_of_getElem? h
    rcases hdig _ hmem with hdigit | hdigit
    · exact Bool.false_ne_true (hx.symm.trans hdigit)
    · exact hsep hdigit
  have hpair : ∀ x y : UInt8, (isBaseDigit 10 x = false ∧ x ≠ byte '_' ∧ x ≠ 0) →
      (isBaseDigit 10 y = false ∧ y ≠ byte '_' ∧ y ≠ 0) →
      ¬ (byteAt digits 0 = byte '0' ∧ (byteAt digits 1 = x ∨ byteAt digits 1 = y)) := by
    rintro x y ⟨hx, hxsep, hxnul⟩ ⟨hy, hysep, hynul⟩ ⟨-, h | h⟩
    · exact hmark x hx hxsep hxnul h
    · exact hmark y hy hysep hynul h
  rw [literalMagnitude, if_neg (hpair _ _ (by decide) (by decide)),
    if_neg (hpair _ _ (by decide) (by decide)), if_neg (hpair _ _ (by decide) (by decide)),
    accumulateDecimal_eq hdig]

/-- The literal of a text that denotes a number: the value in `i64`, the comparisons with the
maxima, and a decimal text of the number. -/
theorem parseIntegerLiteral_denotes {text : Text} {n : ℕ} (h : DenotesInteger text n) :
    ∃ literal, IsDecimalOf n literal ∧ parseIntegerLiteral text = some {
      value := (n : ℤ).bmod (2 ^ 64)
      literal := literal
      isAboveI64Maximum := decide (2 ^ 63 - 1 < n)
      isAboveU64Maximum := decide (2 ^ 64 - 1 < n) } := by
  have hmag : ∃ literal, IsDecimalOf n literal ∧
      literalMagnitude text = ((n % 2 ^ 64, decide (2 ^ 64 ≤ n)), some literal) := by
    cases h with
    | decimal hdig hsome => exact ⟨text, ⟨hdig, hsome, rfl⟩, literalMagnitude_decimal hdig⟩
    | prefixed hbase hdig =>
      exact ⟨_, isDecimalOf_render _, literalMagnitude_prefixed hbase hdig⟩
  obtain ⟨literal, hlit, heq⟩ := hmag
  refine ⟨literal, hlit, ?_⟩
  have habove : (decide (2 ^ 64 - 1 < n) || decide (2 ^ 63 - 1 < n % 2 ^ 64)) =
      decide (2 ^ 63 - 1 < n) := by
    by_cases hn : 2 ^ 64 - 1 < n
    · rw [decide_eq_true hn, Bool.true_or, eq_comm, decide_eq_true_eq]
      omega
    · rw [decide_eq_false hn, Bool.false_or, Nat.mod_eq_of_lt (by omega)]
  have hval : ((n % 2 ^ 64 : ℕ) : ℤ).bmod (2 ^ 64) = (n : ℤ).bmod (2 ^ 64) := by
    rw [Int.natCast_mod]
    exact Int.emod_bmod ..
  have hmax : decide (2 ^ 64 ≤ n) = decide (2 ^ 64 - 1 < n) := by
    rw [decide_eq_decide]
    omega
  rw [parseIntegerLiteral, heq]
  simp only [Option.map_some, hval, hmax, habove]

theorem parseIntegerLiteral_denotes_hexadecimal : ∃ literal,
    IsDecimalOf (digitsNumber 16 (bytes "1_f")) literal ∧ parseIntegerLiteral (bytes "0x1_f") =
      some {
        value := (digitsNumber 16 (bytes "1_f") : ℤ).bmod (2 ^ 64)
        literal := literal
        isAboveI64Maximum := decide (2 ^ 63 - 1 < digitsNumber 16 (bytes "1_f"))
        isAboveU64Maximum := decide (2 ^ 64 - 1 < digitsNumber 16 (bytes "1_f")) } :=
  parseIntegerLiteral_denotes
    (@DenotesInteger.prefixed (byte 'x') 16 (bytes "1_f") (by decide) (by decide))

end Grayscale
