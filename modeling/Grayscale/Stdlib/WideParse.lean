import Grayscale.Runtime.WideCasts
import Grayscale.Runtime.WideDecimal

/-!
# Wide integers from strings

The conversion of a string to i128, u128, i256 or u256: white space, a sign, digits that are
gathered in limbs of 32 bits, and a check of the range.
-/

namespace Grayscale

open DecimalText

def onlySpacesRemain (cursor : Text) : Bool := cursor.all (· == byte ' ')

/-- The white space that is skipped in front of a number. -/
def skipped (c : UInt8) : Bool := c == byte ' ' || c == byte '\t' || c == byte '\n'

/-- One digit: the limbs times ten, and a carry. -/
def limbsTimesTen : List ℕ → ℕ → List ℕ × ℕ
  | limb :: limbs, carry =>
    let product := limb * 10 + carry
    let rest := limbsTimesTen limbs (product / 2 ^ 32)
    (product % 2 ^ 32 :: rest.1, rest.2)
  | [], carry => ([], carry)

/-- The loop over the digits, on the limbs and the overflow. -/
def limbsOfDigits : Text → List ℕ × Bool → List ℕ × Bool
  | [], s => s
  | c :: text, s =>
    let next := limbsTimesTen s.1 (c - byte '0').toNat
    limbsOfDigits text (next.1, s.2 || next.2 != 0)

/-- `limbs[bit / 32] & (1 << (bit % 32))`. -/
def isLimbBitSet (limbs : List ℕ) (bit : ℕ) : Bool :=
  (limbs.getD (bit / 32) 0 &&& (1 <<< (bit % 32))) != 0

def wordsOfLimbs : List ℕ → List Word
  | low :: high :: limbs =>
    (BitVec.ofNat 64 low ||| (BitVec.ofNat 64 high <<< 32)) :: wordsOfLimbs limbs
  | _ => []

def negateOut : List Word → Word → List Word
  | a :: l, carry =>
    let out := ~~~a + carry
    out :: negateOut l (carryBit (carry != 0 && out == 0))
  | [], _ => []

/-- The magnitude is outside the range of the type. -/
def isAboveRange (bits : ℕ) (isSigned isNegative : Bool) (limbs : List ℕ) (overflow : Bool) : Bool :=
  let valueBits := if isSigned then bits - 1 else bits
  let aboveRange := overflow || (List.range' valueBits (256 - valueBits)).any (isLimbBitSet limbs)
  -- The most negative value of a signed type has a magnitude of its own.
  if aboveRange && isSigned && isNegative && !overflow then
    (List.range 256).any fun bit => isLimbBitSet limbs bit != (bit == valueBits)
  else aboveRange

/-- The end of `string_to_wide_integer`: the range is checked, and eight limbs make four words. -/
def wideOfLimbs (bits : ℕ) (isSigned isNegative : Bool) (limbs : List ℕ) (overflow : Bool) :
    Except String (List Word) :=
  if isAboveRange bits isSigned isNegative limbs overflow ||
      (!isSigned && isNegative && !limbs.all (· == 0)) then .error "P0136"
  else
    let out := wordsOfLimbs limbs
    .ok (if isNegative then negateOut out 1 else out)

def stringToWideInteger (bits : ℕ) (isSigned : Bool) (string : Text) : Except String (List Word) :=
  if string.contains 0 then .error "P0084"
  else
    let start := string.dropWhile skipped
    let isNegative := byteAt start 0 == byte '-'
    let cursor := if isNegative || byteAt start 0 == byte '+' then start.drop 1 else start
    if !isdigit (byteAt cursor 0) then .error "P0084"
    else
      let (limbs, overflow) := limbsOfDigits (cursor.takeWhile isdigit) (List.replicate 8 0, false)
      if !onlySpacesRemain (cursor.dropWhile isdigit) then .error "P0084"
      else wideOfLimbs bits isSigned isNegative limbs overflow

def lowTwoWords (out : List Word) : Words128 := ⟨out.getD 0 0, out.getD 1 0⟩

def fourWords (out : List Word) : Words256 :=
  ⟨[out.getD 0 0, out.getD 1 0, out.getD 2 0, out.getD 3 0], rfl⟩

/-- `gray_builtin_string_to_i128`. -/
def stringToI128 (string : Text) : Except String I128 :=
  (stringToWideInteger 128 true string).map lowTwoWords

/-- `gray_builtin_string_to_u128`. -/
def stringToU128 (string : Text) : Except String U128 :=
  (stringToWideInteger 128 false string).map lowTwoWords

/-- `gray_builtin_string_to_i256`. -/
def stringToI256 (string : Text) : Except String I256 :=
  (stringToWideInteger 256 true string).map fourWords

/-- `gray_builtin_string_to_u256`. -/
def stringToU256 (string : Text) : Except String U256 :=
  (stringToWideInteger 256 false string).map fourWords

/-! ### The texts -/

/-- The white space in front of a number. -/
def IsLeadingSpace (c : UInt8) : Prop := c = byte ' ' ∨ c = byte '\t' ∨ c = byte '\n'

/-- A text of white space, a sign that may be left out, digits and spaces, and its integer. -/
inductive WideText : Text → ℤ → Prop
  | mk (space sign digits tail : Text) (hspace : ∀ c ∈ space, IsLeadingSpace c)
      (hsign : sign = [] ∨ sign = [byte '+'] ∨ sign = [byte '-']) (hne : digits ≠ [])
      (hdigits : ∀ c ∈ digits, IsDigit c) (htail : ∀ c ∈ tail, c = byte ' ') :
      WideText (space ++ (sign ++ (digits ++ tail)))
        (if sign = [byte '-'] then -(read 0 digits : ℤ) else read 0 digits)

/-! ### Limbs -/

theorem limbsTimesTen_eq (limbs : List ℕ) (carry : ℕ) : limbsTimesTen limbs carry =
      Limbs.mulAdd 32 10 limbs (List.replicate limbs.length 0) carry := by
  induction limbs generalizing carry with
  | nil => rfl
  | cons limb limbs ih =>
    rw [List.length_cons, List.replicate_succ, limbsTimesTen, Limbs.mulAdd, ih,
      Nat.mul_comm limb 10, Nat.zero_add]

theorem number_replicate_zero (n : ℕ) : Limbs.number 32 (List.replicate n 0) = 0 := by
  rw [← Limbs.number_eq_zero_iff, List.all_eq_true]
  exact fun d hd => beq_iff_eq.mpr (List.eq_of_mem_replicate hd)

/-- The limbs hold a number up to `2 ^ 256`, and the overflow tells whether it is less. -/
structure HoldsNumber (s : List ℕ × Bool) (n : ℕ) : Prop where
  length_eq : s.1.length = 8
  fits : Limbs.Fits 32 s.1
  number : Limbs.number 32 s.1 = n % 2 ^ 256
  overflow : s.2 = true ↔ 2 ^ 256 ≤ n

theorem HoldsNumber.start : HoldsNumber (List.replicate 8 0, false) 0 where
  length_eq := rfl
  fits d hd := by
    rw [List.eq_of_mem_replicate hd]
    decide
  number := number_replicate_zero 8
  overflow := by decide

variable {s : List ℕ × Bool}

theorem HoldsNumber.digit {n : ℕ} (h : HoldsNumber s n) {d : ℕ} (hd : d < 10) :
    HoldsNumber ((limbsTimesTen s.1 d).1, s.2 || (limbsTimesTen s.1 d).2 != 0) (n * 10 + d) := by
  have hlen : s.1.length = (List.replicate s.1.length 0 : List ℕ).length :=
    List.length_replicate.symm
  have hnum := @Limbs.number_mulAdd 32 10 _ _ hlen d
  rw [number_replicate_zero, ← limbsTimesTen_eq, h.number, h.length_eq] at hnum
  have hfits : Limbs.Fits 32 (limbsTimesTen s.1 d).1 := by
    rw [limbsTimesTen_eq]
    intro e he
    exact Limbs.fits_mulAdd 10 _ _ d e he
  have hlen' : (limbsTimesTen s.1 d).1.length = 8 := by
    rw [limbsTimesTen_eq, Limbs.mulAdd_length hlen, h.length_eq]
  have hlt := Limbs.number_lt hfits
  rw [hlen'] at hlt
  have hover := h.overflow
  refine ⟨hlen', hfits, ?_, ?_⟩
  · dsimp only
    generalize Limbs.number 32 (limbsTimesTen s.1 d).1 = low at *
    omega
  · rw [Bool.or_eq_true, hover, bne_iff_ne]
    generalize (limbsTimesTen s.1 d).2 = top at *
    generalize Limbs.number 32 (limbsTimesTen s.1 d).1 = low at *
    omega

theorem limbsOfDigits_spec {text : Text} (htext : ∀ c ∈ text, IsDigit c) {n : ℕ}
    (h : HoldsNumber s n) : HoldsNumber (limbsOfDigits text s) (read n text) := by
  induction text generalizing s n with
  | nil => exact h
  | cons c text ih =>
    exact ih (fun d hd => htext d (List.mem_cons_of_mem c hd))
      (h.digit (digitValue_lt (htext c (List.mem_cons_self ..))))

theorem isLimbBitSet_eq {limbs : List ℕ} (hfits : Limbs.Fits 32 limbs) (bit : ℕ) :
    isLimbBitSet limbs bit = (Limbs.number 32 limbs).testBit bit := by
  rw [Limbs.testBit_number (by decide) hfits, isLimbBitSet, Nat.one_shiftLeft, Nat.and_two_pow]
  cases (limbs.getD (bit / 32) 0).testBit (bit % 32) with
  | false =>
    rw [Bool.toNat_false, Nat.zero_mul]
    rfl
  | true =>
    rw [Bool.toNat_true, Nat.one_mul, bne_iff_ne]
    exact (Nat.two_pow_pos _).ne'

theorem isAboveRange_iff {bits : ℕ} (hpos : 0 < bits) (hbits : bits ≤ 256)
    (isSigned isNegative : Bool) {n : ℕ} (h : HoldsNumber s n) :
    isAboveRange bits isSigned isNegative s.1 s.2 = true ↔
      (if isSigned then if isNegative then 2 ^ (bits - 1) < n else 2 ^ (bits - 1) ≤ n
        else 2 ^ bits ≤ n) := by
  have hbit := isLimbBitSet_eq h.fits
  have hlt : Limbs.number 32 s.1 < 2 ^ 256 := by
    rw [h.number]
    exact Nat.mod_lt _ (by decide)
  have habove : ∀ valueBits ≤ 256, (s.2 || (List.range' valueBits (256 - valueBits)).any
      (isLimbBitSet s.1)) = true ↔ 2 ^ valueBits ≤ n := by
    intro valueBits hvalueBits
    have hpow : 2 ^ valueBits ≤ 2 ^ 256 := Nat.pow_le_pow_right (by decide) hvalueBits
    have hany : (List.range' valueBits (256 - valueBits)).any (isLimbBitSet s.1) = true ↔
        2 ^ valueBits ≤ Limbs.number 32 s.1 := by
      rw [← not_lt, ← testBit_all_iff hvalueBits hlt, List.any_eq_true]
      simp only [hbit, not_forall, exists_prop, Bool.not_eq_false]
    rw [Bool.or_eq_true, h.overflow, hany, h.number]
    rcases lt_or_ge n (2 ^ 256) with hn | hn
    · rw [Nat.mod_eq_of_lt hn]
      omega
    · exact iff_of_true (.inl hn) (hpow.trans hn)
  cases isSigned with
  | false =>
    simp only [isAboveRange, Bool.false_eq_true, if_false, Bool.and_false, Bool.false_and]
    exact habove bits hbits
  | true =>
    cases isNegative with
    | false =>
      simp only [isAboveRange, if_true, Bool.false_eq_true, if_false, Bool.and_false, Bool.false_and]
      exact habove (bits - 1) (by omega)
    | true =>
      have hleast := habove (bits - 1) (by omega)
      have hexact : ((List.range 256).any fun bit => isLimbBitSet s.1 bit != (bit == bits - 1)) =
          true ↔ Limbs.number 32 s.1 ≠ 2 ^ (bits - 1) := by
        rw [← not_iff_not, not_not, List.any_eq_true]
        simp only [not_exists, not_and, bne_iff_ne, not_not, List.mem_range, hbit]
        constructor
        · intro hall
          refine Nat.eq_of_testBit_eq fun bit => ?_
          rw [Nat.testBit_two_pow]
          by_cases hlt' : bit < 256
          · rw [hall bit hlt', beq_eq_decide, decide_eq_decide]
            exact eq_comm
          · rw [Nat.testBit_lt_two_pow (hlt.trans_le (Nat.pow_le_pow_right (by decide) (by omega))),
              decide_eq_false (by omega)]
        · intro heq bit _
          rw [heq, Nat.testBit_two_pow, beq_eq_decide, decide_eq_decide]
          exact eq_comm
      simp only [isAboveRange, if_true, Bool.and_true]
      generalize (s.2 || (List.range' (bits - 1) (256 - (bits - 1))).any (isLimbBitSet s.1)) = above
        at *
      have hover := h.overflow
      have hnum := h.number
      have hpow : 2 ^ (bits - 1) < 2 ^ 256 := Nat.pow_lt_pow_right (by decide) (by omega)
      cases hs : s.2 with
      | true =>
        have hn := hover.mp hs
        rw [Bool.not_true, Bool.and_false, if_neg Bool.false_ne_true, hleast]
        omega
      | false =>
        have hn : n < 2 ^ 256 := by
          rw [hs] at hover
          exact not_le.mp fun hle => Bool.false_ne_true (hover.mpr hle)
        rw [Nat.mod_eq_of_lt hn] at hnum
        rw [Bool.not_false, Bool.and_true]
        split_ifs with ha
        · rw [hexact, hnum]
          have := hleast.mp ha
          omega
        · rw [hleast] at ha ⊢
          omega

/-! ### Words -/

theorem toNat_ofNat_limb {limb : ℕ} (h : limb < 2 ^ 32) : (BitVec.ofNat 64 limb).toNat = limb := by
  rw [BitVec.toNat_ofNat, Nat.mod_eq_of_lt (h.trans (by decide))]

theorem toNat_wordOfLimbs {low high : ℕ} (hlow : low < 2 ^ 32) (hhigh : high < 2 ^ 32) :
    (BitVec.ofNat 64 low ||| (BitVec.ofNat 64 high <<< 32)).toNat = low + 2 ^ 32 * high := by
  rw [BitVec.toNat_or, BitVec.toNat_shiftLeft, toNat_ofNat_limb hlow, toNat_ofNat_limb hhigh,
    Nat.shiftLeft_eq, Nat.mod_eq_of_lt (by omega), Nat.mul_comm high, Nat.or_comm,
    ← Nat.two_pow_add_eq_or_of_lt hlow, Nat.add_comm]

theorem wordsOfLimbs_spec {limbs : List ℕ} (hfits : Limbs.Fits 32 limbs) {k : ℕ}
    (hlen : limbs.length = 2 * k) : (wordsOfLimbs limbs).length = k ∧
      wordsNumber (wordsOfLimbs limbs) = Limbs.number 32 limbs := by
  induction k generalizing limbs with
  | zero =>
    rw [List.eq_nil_of_length_eq_zero hlen]
    exact ⟨rfl, rfl⟩
  | succ k ih =>
    match limbs, hlen, hfits with
    | low :: high :: limbs, hlen, hfits =>
      obtain ⟨hwrd, hnum⟩ := @ih limbs hfits.tail.tail (by
        simp only [List.length_cons] at hlen
        omega)
      refine ⟨congrArg (· + 1) hwrd, ?_⟩
      rw [wordsOfLimbs, wordsNumber_cons, hnum, Limbs.number_cons, Limbs.number_cons,
        toNat_wordOfLimbs hfits.head hfits.tail.head]
      ring

theorem negateOut_eq (l : List Word) {carry : Word} (hcarry : carry.toNat ≤ 1) :
    negateOut l carry = negWords l carry := by
  induction l generalizing carry with
  | nil => rfl
  | cons a l ih =>
    have hnext : carryBit (carry != 0 && ~~~a + carry == 0) = carryBit (~~~a + carry < ~~~a) := by
      have ha := a.isLt
      rw [word_eq_iff, toNat_carryBit, toNat_carryBit]
      simp only [Bool.and_eq_true, bne_iff_ne, beq_iff_eq, ne_eq, word_eq_iff, toNat_zeroWord,
        decide_eq_true_eq, BitVec.lt_def, BitVec.toNat_add, BitVec.toNat_not]
      split_ifs <;> omega
    rw [negateOut, negWords, hnext, ih (toNat_carryBit_le _)]

theorem wordsOfLimbs_modEq {n : ℕ} (h : HoldsNumber s n) (hn : n < 2 ^ 256) (isNegative : Bool) :
    (if isNegative then negateOut (wordsOfLimbs s.1) 1 else wordsOfLimbs s.1).length = 4 ∧
      ((wordsNumber (if isNegative then negateOut (wordsOfLimbs s.1) 1 else wordsOfLimbs s.1) : ℕ) :
        ℤ) ≡ (if isNegative then -(n : ℤ) else n) [ZMOD 2 ^ 256] := by
  obtain ⟨hlen, hnum⟩ := wordsOfLimbs_spec h.fits (k := 4) h.length_eq
  rw [h.number, Nat.mod_eq_of_lt hn] at hnum
  cases isNegative with
  | false =>
    refine ⟨hlen, ?_⟩
    rw [if_neg Bool.false_ne_true, if_neg Bool.false_ne_true, hnum]
  | true =>
    rw [if_pos rfl, if_pos rfl, negateOut_eq _ (by decide)]
    refine ⟨(length_negWords _ _).trans hlen, ?_⟩
    have hneg := wordsNumber_negWords (wordsOfLimbs s.1) (show (1 : Word).toNat ≤ 1 by decide)
    rw [hlen, hnum] at hneg
    have hzero : wordsNumber (negWords (wordsOfLimbs s.1) 1) + n ≡ 0 [MOD 2 ^ 256] :=
      Nat.ModEq.add_right_cancel' 1 hneg
    have hcast := (Int.natCast_modEq_iff.mpr hzero).sub_right n
    push_cast at hcast
    rwa [add_sub_cancel_right, zero_sub] at hcast

theorem toNat_fourWords {out : List Word} (h : out.length = 4) :
    (fourWords out).toNat = wordsNumber out := by
  obtain ⟨a, b, c, d, rfl⟩ := List.length_eq_four.mp h
  rfl

theorem toNat_lowTwoWords {out : List Word} (h : out.length = 4) :
    ((lowTwoWords out).toNat : ℤ) ≡ wordsNumber out [ZMOD 2 ^ 128] := by
  rw [← toNat_fourWords h]
  obtain ⟨a, b, c, d, rfl⟩ := List.length_eq_four.mp h
  exact Words256.toNat_lowWords (fourWords [a, b, c, d])

/-! ### The range -/

variable {T : ScalarType}

theorem contains_iff_checks (isNegative : Bool) (n : ℕ) :
    T.format.Contains (if isNegative then -(n : ℤ) else n) ↔
      ¬ (if T.isSigned then if isNegative then 2 ^ (T.bits - 1) < n else 2 ^ (T.bits - 1) ≤ n
        else 2 ^ T.bits ≤ n) ∧ ¬ (T.isSigned = false ∧ isNegative = true ∧ n ≠ 0) := by
  have hsize : T.format.size = ((2 ^ T.bits : ℕ) : ℤ) := by
    push_cast
    rfl
  have hpos := Nat.two_pow_pos T.bits
  cases hsig : T.isSigned with
  | false =>
    have hmin : T.format.min = 0 := T.format.min_of_unsigned hsig
    rw [IntFormat.Contains, hmin, hsize]
    generalize 2 ^ T.bits = size at *
    cases isNegative with
    | false => simp
    | true =>
      simp
      omega
  | true =>
    have hmin : T.format.min = -((2 ^ (T.bits - 1) : ℕ) : ℤ) := by
      rw [IntFormat.min, if_pos (show T.format.signed = true from hsig)]
      push_cast
      rfl
    have hhalf := T.format.two_mul_min hsig
    rw [hsize, hmin] at hhalf
    rw [IntFormat.Contains, hmin, hsize]
    generalize 2 ^ T.bits = size at *
    generalize 2 ^ (T.bits - 1) = half at *
    cases isNegative <;> simp <;> omega

theorem wideOfLimbs_spec (T : ScalarType) (isNegative : Bool) {n : ℕ} (h : HoldsNumber s n) :
    if T.format.Contains (if isNegative then -(n : ℤ) else n) then
      ∃ out, wideOfLimbs T.bits T.isSigned isNegative s.1 s.2 = .ok out ∧ out.length = 4 ∧
        (wordsNumber out : ℤ) ≡ (if isNegative then -(n : ℤ) else n) [ZMOD 2 ^ 256]
    else wideOfLimbs T.bits T.isSigned isNegative s.1 s.2 = .error "P0136" := by
  have hpos : 0 < T.bits := T.format.bits_pos
  have hbits : T.bits ≤ 256 := by cases T <;> decide
  have habove := isAboveRange_iff hpos hbits T.isSigned isNegative h
  have hchecks := contains_iff_checks (T := T) isNegative n
  have hle : 2 ^ T.bits ≤ 2 ^ 256 := Nat.pow_le_pow_right (by decide) hbits
  have hhalf : 2 ^ (T.bits - 1) < 2 ^ 256 := Nat.pow_lt_pow_right (by decide) (by omega)
  have hzero : (!s.1.all (· == 0)) = true ↔ n % 2 ^ 256 ≠ 0 := by
    rw [Bool.not_eq_true', ← Bool.not_eq_true, Limbs.number_eq_zero_iff, h.number]
  by_cases ha : isAboveRange T.bits T.isSigned isNegative s.1 s.2 = true
  · rw [if_neg fun hc => (hchecks.mp hc).1 (habove.mp ha), wideOfLimbs, ha, Bool.true_or, if_pos rfl]
  · have hrng := fun hn => ha (habove.mpr hn)
    have hn : n < 2 ^ 256 := by
      by_contra hn
      refine hrng ?_
      split_ifs <;> omega
    rw [Nat.mod_eq_of_lt hn] at hzero
    have htest : (isAboveRange T.bits T.isSigned isNegative s.1 s.2 ||
        (!T.isSigned && isNegative && !s.1.all (· == 0))) = true ↔
        ¬ T.format.Contains (if isNegative then -(n : ℤ) else n) := by
      rw [hchecks, Bool.or_eq_true, Bool.and_eq_true, Bool.and_eq_true, hzero, Bool.not_eq_true']
      refine ⟨fun htest hall => ?_, fun hall => .inr ?_⟩
      · rcases htest with h' | ⟨⟨h₁, h₂⟩, h₃⟩
        · exact ha h'
        · exact hall.2 ⟨h₁, h₂, h₃⟩
      · by_contra hne
        exact hall ⟨hrng, fun ⟨h₁, h₂, h₃⟩ => hne ⟨⟨h₁, h₂⟩, h₃⟩⟩
    by_cases hc : T.format.Contains (if isNegative then -(n : ℤ) else n)
    · rw [if_pos hc, wideOfLimbs, if_neg fun hif => htest.mp hif hc]
      exact ⟨_, rfl, wordsOfLimbs_modEq h hn isNegative⟩
    · rw [if_neg hc, wideOfLimbs, if_pos (htest.mpr hc)]

/-! ### The text -/

theorem isdigit_iff (c : UInt8) : isdigit c = true ↔ IsDigit c := by
  rw [isdigit, Bool.and_eq_true, decide_eq_true_eq, decide_eq_true_eq]
  rfl

theorem skipped_iff (c : UInt8) : skipped c = true ↔ IsLeadingSpace c := by
  simp only [skipped, Bool.or_eq_true, beq_iff_eq, IsLeadingSpace, or_assoc]

theorem wideInteger_of_text (bits : ℕ) (isSigned : Bool) {space sign digits tail : Text}
    (hsp : ∀ c ∈ space, IsLeadingSpace c)
    (hsign : sign = [] ∨ sign = [byte '+'] ∨ sign = [byte '-']) (hne : digits ≠ [])
    (hdig : ∀ c ∈ digits, IsDigit c) (htail : ∀ c ∈ tail, c = byte ' ') :
    stringToWideInteger bits isSigned (space ++ (sign ++ (digits ++ tail))) =
      wideOfLimbs bits isSigned (sign = [byte '-'])
        (limbsOfDigits digits (List.replicate 8 0, false)).1
        (limbsOfDigits digits (List.replicate 8 0, false)).2 := by
  obtain ⟨d, rest, rfl⟩ := List.exists_cons_of_ne_nil hne
  have hd := hdig d (List.mem_cons_self ..)
  have hnul : (space ++ (sign ++ (d :: rest ++ tail))).contains 0 = false := by
    rw [← Bool.not_eq_true, List.contains_iff_mem]
    intro hmem
    rcases List.mem_append.mp hmem with hmem | hmem
    · rcases hsp 0 hmem with h | h | h <;> exact absurd h (by decide)
    rcases List.mem_append.mp hmem with hmem | hmem
    · rcases hsign with rfl | rfl | rfl
      · exact absurd hmem List.not_mem_nil
      · exact absurd (List.mem_singleton.mp hmem) (by decide)
      · exact absurd (List.mem_singleton.mp hmem) (by decide)
    rcases List.mem_append.mp hmem with hmem | hmem
    · exact (byte_digit (hdig 0 hmem)).1 rfl
    · exact absurd (htail 0 hmem) (by decide)
  have hnotSkipped : skipped d = false := by
    rw [← Bool.not_eq_true, skipped_iff]
    rintro (rfl | rfl | rfl) <;> exact absurd hd.1 (by decide)
  have hst : (space ++ (sign ++ (d :: rest ++ tail))).dropWhile skipped =
      sign ++ (d :: rest ++ tail) := by
    refine (dropWhile_append_of_head (fun c hc => (skipped_iff c).mpr (hsp c hc)) ?_).1
    rcases hsign with rfl | rfl | rfl
    · simp [hnotSkipped]
    · rfl
    · rfl
  have hnext : tail.head?.all (!isdigit ·) = true := by
    cases tail with
    | nil => rfl
    | cons c tail =>
      rw [htail c (List.mem_cons_self ..)]
      rfl
  obtain ⟨hdrop, htake⟩ := dropWhile_append_of_head (l := d :: rest)
    (fun c hc => (isdigit_iff c).mpr (hdig c hc)) hnext
  have hsps : onlySpacesRemain tail = true := by
    rw [onlySpacesRemain, List.all_eq_true]
    exact fun c hc => beq_iff_eq.mpr (htail c hc)
  have hfst : isdigit (byteAt (d :: rest ++ tail) 0) = true := (isdigit_iff d).mpr hd
  have hsigns : (byteAt (sign ++ (d :: rest ++ tail)) 0 == byte '-') = decide (sign = [byte '-']) ∧
      (if decide (sign = [byte '-']) || byteAt (sign ++ (d :: rest ++ tail)) 0 == byte '+'
        then (sign ++ (d :: rest ++ tail)).drop 1 else sign ++ (d :: rest ++ tail)) =
        d :: rest ++ tail := by
    rcases hsign with rfl | rfl | rfl
    · have hneg := (byte_digit hd).2.2.1
      have hplus : d ≠ byte '+' := by
        rintro rfl
        exact absurd hd.1 (by decide)
      simp only [List.nil_append, List.cons_append, byteAt_zero]
      simpa using And.intro hneg hplus
    · exact ⟨rfl, rfl⟩
    · exact ⟨rfl, rfl⟩
  rw [stringToWideInteger, if_neg (by rw [hnul]; exact Bool.false_ne_true)]
  simp only [hst, hsigns, hfst, hdrop, htake, hsps, Bool.not_true, Bool.false_eq_true, if_false]

theorem wideInteger_of_not_text (bits : ℕ) (isSigned : Bool) {string : Text}
    (h : ¬ ∃ v, WideText string v) : stringToWideInteger bits isSigned string = .error "P0084" := by
  rw [stringToWideInteger]
  split_ifs with hnul
  · rfl
  have hspl := List.takeWhile_append_dropWhile (p := skipped) (l := string)
  have hsp : ∀ c ∈ string.takeWhile skipped, IsLeadingSpace c := fun c hc =>
    (skipped_iff c).mp (List.mem_takeWhile_imp hc)
  generalize string.takeWhile skipped = space at *
  generalize string.dropWhile skipped = start at *
  obtain ⟨sign, cursor, hsign, hst, hcur⟩ : ∃ sign cursor : Text,
      (sign = [] ∨ sign = [byte '+'] ∨ sign = [byte '-']) ∧ start = sign ++ cursor ∧
      (if byteAt start 0 == byte '-' || byteAt start 0 == byte '+' then start.drop 1 else start) =
        cursor := by
    split_ifs with hif
    · rw [Bool.or_eq_true, beq_iff_eq, beq_iff_eq] at hif
      cases start with
      | nil => exact absurd hif (by decide)
      | cons c start =>
        refine ⟨[c], start, ?_, rfl, rfl⟩
        rcases hif with hc | hc
        · exact .inr (.inr (by rw [← hc, byteAt_zero]))
        · exact .inr (.inl (by rw [← hc, byteAt_zero]))
    · exact ⟨[], start, .inl rfl, rfl, rfl⟩
  simp only [hcur]
  by_cases hfst : isdigit (byteAt cursor 0) = true
  · by_cases hsps : onlySpacesRemain (cursor.dropWhile isdigit) = true
    · have hdig := List.takeWhile_append_dropWhile (p := isdigit) (l := cursor)
      have hne : cursor.takeWhile isdigit ≠ [] := by
        cases cursor with
        | nil => exact absurd hfst (by decide)
        | cons c cursor =>
          rw [byteAt_zero] at hfst
          rw [List.takeWhile_cons_of_pos hfst]
          exact List.cons_ne_nil _ _
      rw [onlySpacesRemain, List.all_eq_true] at hsps
      have htext := WideText.mk space sign _ _ hsp hsign hne (fun c hc => (isdigit_iff c).mp
        (List.mem_takeWhile_imp hc)) fun c hc => beq_iff_eq.mp (hsps c hc)
      rw [hdig, ← hst, hspl] at htext
      exact absurd ⟨_, htext⟩ h
    · simp only [Bool.not_eq_true] at hsps
      simp [hfst, hsps]
  · simp only [Bool.not_eq_true] at hfst
    simp [hfst]

/-! ### The four conversions -/

section Conversions

variable {α : Type} {T : ScalarType} {toNat : α → ℕ} {assemble : List Word → α}

theorem wideInteger_accepts (hsize : T.format.size ∣ 2 ^ 256)
    (hassemble : ∀ out : List Word, out.length = 4 →
      (toNat (assemble out) : ℤ) ≡ wordsNumber out [ZMOD T.format.size])
    {string : Text} {v : ℤ} (htext : WideText string v) (hv : T.format.Contains v) :
    ∃ x, (stringToWideInteger T.bits T.isSigned string).map assemble = .ok x ∧
      convert T (toNat x) = v := by
  obtain ⟨space, sign, digits, tail, hsp, hsign, hne, hdig, htail⟩ := htext
  rw [wideInteger_of_text _ _ hsp hsign hne hdig htail]
  have hnum := limbsOfDigits_spec hdig .start
  have hspec := wideOfLimbs_spec T (decide (sign = [byte '-'])) hnum
  simp only [decide_eq_true_eq] at hspec
  rw [if_pos hv] at hspec
  obtain ⟨out, hout, hlen, hmod⟩ := hspec
  rw [hout]
  refine ⟨assemble out, rfl, ?_⟩
  have hmod' := (hassemble out hlen).trans (hmod.of_dvd hsize)
  exact (convert_congr hmod').trans (convert_of_contains hv)

theorem wideInteger_panics {string : Text}
    (h : ¬ ∃ v, WideText string v ∧ T.format.Contains v) :
    ∃ code, (stringToWideInteger T.bits T.isSigned string).map assemble = .error code := by
  by_cases htext : ∃ v, WideText string v
  · obtain ⟨v, hv⟩ := htext
    have hin : ¬ T.format.Contains v := fun hc => h ⟨v, hv, hc⟩
    obtain ⟨space, sign, digits, tail, hsp, hsign, hne, hdig, htail⟩ := hv
    rw [wideInteger_of_text _ _ hsp hsign hne hdig htail]
    have hnum := limbsOfDigits_spec hdig .start
    have hspec := wideOfLimbs_spec T (decide (sign = [byte '-'])) hnum
    simp only [decide_eq_true_eq] at hspec
    rw [if_neg hin] at hspec
    exact ⟨"P0136", by rw [hspec]; rfl⟩
  · exact ⟨"P0084", by rw [wideInteger_of_not_text _ _ htext]; rfl⟩

/-- The decimal texts of a type: printing and reading are inverse, and the conversion from a string
accepts the texts of the integers of the type only. -/
structure TextLaws (T : ScalarType) (value : α → ℤ) (print : α → Option Text)
    (fromString fromDecimal : Text → Except String α) : Prop where
  round_trip : ∀ x, ∃ text, print x = some text ∧ fromString text = .ok x ∧ fromDecimal text = .ok x
  accepts : ∀ string v, WideText string v → T.format.Contains v →
    ∃ x, fromString string = .ok x ∧ value x = v
  panics : ∀ string, (¬ ∃ v, WideText string v ∧ T.format.Contains v) →
    ∃ code, fromString string = .error code

theorem wideText_render (sign : Text) (hsign : sign = [] ∨ sign = [byte '-']) (n : ℕ) :
    WideText (sign ++ render n) (if sign = [byte '-'] then -(n : ℤ) else n) := by
  have htext := WideText.mk [] sign (render n) [] (fun c hc => absurd hc List.not_mem_nil)
    (hsign.imp_right .inr) (render_ne_nil n) (fun c hc => isDigit_of_mem_render hc)
    (fun c hc => absurd hc List.not_mem_nil)
  rwa [List.nil_append, List.append_nil, read_render] at htext

variable {isNeg isZero : α → Bool} {neg : α → α} {divmod : α → α → Except String (α × α)}
  {print : α → Option Text} {fromDecimal : Text → Except String α}

theorem TextLaws.of_unsigned (huns : T.format.signed = false)
    (hwrd : DividingWords T toNat isZero divmod) (hsize : T.format.size ∣ 2 ^ 256)
    (hassemble : ∀ out : List Word, out.length = 4 →
      (toNat (assemble out) : ℤ) ≡ wordsNumber out [ZMOD T.format.size])
    (hprint : ∀ x, print x = some (render (toNat x)))
    (hread : ∀ x, fromDecimal (render (toNat x)) = .ok x) :
    TextLaws T (fun x => convert T (toNat x)) print
      (fun string => (stringToWideInteger T.bits T.isSigned string).map assemble) fromDecimal where
  round_trip x := by
    refine ⟨render (toNat x), hprint x, ?_, hread x⟩
    have htext := wideText_render [] (.inl rfl) (toNat x)
    rw [if_neg (by decide), List.nil_append, ← hwrd.value_of_unsigned huns x] at htext
    obtain ⟨y, hy, hval⟩ := wideInteger_accepts hsize hassemble htext
      (contains_convert T _)
    exact hy.trans (congrArg Except.ok (hwrd.value_injective hval))
  accepts string v htext hv := wideInteger_accepts hsize hassemble htext hv
  panics string h := wideInteger_panics h

theorem TextLaws.of_signed (hsig : SignedWords T toNat isNeg neg)
    (hwrd : DividingWords T toNat isZero divmod) (hsize : T.format.size ∣ 2 ^ 256)
    (hassemble : ∀ out : List Word, out.length = 4 →
      (toNat (assemble out) : ℤ) ≡ wordsNumber out [ZMOD T.format.size])
    (hprint : ∀ x, print x = some (render (toNat x)))
    (hread : ∀ x, fromDecimal (render (toNat x)) = .ok x) :
    TextLaws T (fun x => convert T (toNat x)) (signedToString isNeg neg print)
      (fun string => (stringToWideInteger T.bits T.isSigned string).map assemble)
      (signedFromDecimal neg fromDecimal) where
  round_trip x := by
    obtain ⟨hstr, hdec⟩ := signedToString_spec hsig hwrd hprint hread x
    refine ⟨_, hstr, ?_, hdec⟩
    have htext := wideText_render (if isNeg x then [byte '-'] else [])
      (by split_ifs; exacts [.inr rfl, .inl rfl]) (convert T (toNat x)).natAbs
    have hval : (if (if isNeg x then [byte '-'] else []) = [byte '-'] then
        -((convert T (toNat x)).natAbs : ℤ) else (convert T (toNat x)).natAbs) =
        convert T (toNat x) := by
      have hneg := hsig.isNeg_iff_value hwrd x
      by_cases h : isNeg x = true
      · have := hneg.mp h
        rw [if_pos h, if_pos rfl]
        omega
      · have := not_lt.mp fun hlt => h (hneg.mpr hlt)
        rw [if_neg h, if_neg (by decide)]
        omega
    rw [hval] at htext
    obtain ⟨y, hy, hval⟩ := wideInteger_accepts hsize hassemble htext
      (contains_convert T _)
    exact hy.trans (congrArg Except.ok (hwrd.value_injective hval))
  accepts string v htext hv := wideInteger_accepts hsize hassemble htext hv
  panics string h := wideInteger_panics h

end Conversions

theorem assemble_128 (h : T.bits = 128) (out : List Word)
    (hlen : out.length = 4) :
    ((lowTwoWords out).toNat : ℤ) ≡ wordsNumber out [ZMOD T.format.size] := by
  rw [show T.format.size = 2 ^ 128 from size_128 h]
  exact toNat_lowTwoWords hlen

theorem assemble_256 (out : List Word) (hlen : out.length = 4) :
    ((fourWords out).toNat : ℤ) ≡ wordsNumber out [ZMOD T.format.size] := by
  rw [toNat_fourWords hlen]

/-- Printing and reading of wide integers are inverse, without a write outside the buffers, and the
conversions from strings accept the texts of the integers of their types only. -/
theorem wide_text_laws :
    TextLaws .i128 (Words128.value .i128) i128ToString stringToI128 i128FromDecimal ∧
    TextLaws .u128 (Words128.value .u128) u128ToString stringToU128 u128FromDecimal ∧
    TextLaws .i256 (Words256.value .i256) i256ToString stringToI256 i256FromDecimal ∧
    TextLaws .u256 (Words256.value .u256) u256ToString stringToU256 u256FromDecimal := by
  have hdvd : (2 ^ 128 : ℤ) ∣ 2 ^ 256 := ⟨2 ^ 128, by norm_num⟩
  refine ⟨?_, ?_, ?_, ?_⟩
  · exact .of_signed signed_i128 (dividing_128 rfl) hdvd (assemble_128 rfl)
      u128ToString_eq u128FromDecimal_render
  · exact .of_unsigned rfl (dividing_128 rfl) hdvd (assemble_128 rfl) u128ToString_eq
      u128FromDecimal_render
  · exact .of_signed signed_i256 (dividing_256 rfl) (dvd_refl _) assemble_256
      u256ToString_eq u256FromDecimal_render
  · exact .of_unsigned rfl (dividing_256 rfl) (dvd_refl _) assemble_256 u256ToString_eq
      u256FromDecimal_render

end Grayscale
