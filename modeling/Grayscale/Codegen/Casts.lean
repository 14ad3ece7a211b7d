import Grayscale.Library.FixedWidth
import Mathlib.Data.Int.Bitwise

/-!
# Numeric casts

`cast(v, T)` between integer types and `char`, and `cast(xs, [T])` element by element. The emitter
chooses a check of the runtime by the types; the two emissions choose apart.
-/

namespace Grayscale

open List

/-- The integer types and `char`. -/
inductive ScalarType
  | i8 | i16 | i32 | i64 | u8 | u16 | u32 | u64 | i128 | u128 | i256 | u256 | char
  deriving DecidableEq

namespace ScalarType

/-- The bits of the C type; a `char` is an `int32_t`. -/
def bits : ScalarType → ℕ
  | i8 | u8 => 8
  | i16 | u16 => 16
  | i32 | u32 | char => 32
  | i64 | u64 => 64
  | i128 | u128 => 128
  | i256 | u256 => 256

def isSigned : ScalarType → Bool
  | i8 | i16 | i32 | i64 | i128 | i256 | char => true
  | u8 | u16 | u32 | u64 | u128 | u256 => false

def format (T : ScalarType) : IntFormat where
  bits := T.bits
  signed := T.isSigned
  bits_pos := by cases T <;> decide

/-- `is_wide_integer_type_name`. -/
def isWide : ScalarType → Bool
  | i128 | u128 | i256 | u256 => true
  | _ => false

/-- `TYPE_KIND_SIGNED_INTEGER`. -/
def isSignedKind : ScalarType → Bool
  | i8 | i16 | i32 | i64 | i128 | i256 => true
  | _ => false

/-- `TYPE_KIND_UNSIGNED_INTEGER`. -/
def isUnsignedKind : ScalarType → Bool
  | u8 | u16 | u32 | u64 | u128 | u256 => true
  | _ => false

end ScalarType

def IsScalarValue (n : ℤ) : Prop := 0 ≤ n ∧ n ≤ 0x10FFFF ∧ ¬ (0xD800 ≤ n ∧ n ≤ 0xDFFF)

instance (n : ℤ) : Decidable (IsScalarValue n) := inferInstanceAs (Decidable (_ ∧ _ ∧ _))

/-- The type has a value that denotes the integer. -/
def ScalarType.Contains (T : ScalarType) (n : ℤ) : Prop :=
  T.format.Contains n ∧ (T = .char → IsScalarValue n)

instance (T : ScalarType) (n : ℤ) : Decidable (T.Contains n) :=
  inferInstanceAs (Decidable (_ ∧ (_ → _)))

abbrev ScalarType.Value (T : ScalarType) : Type := {n : ℤ // T.Contains n}

/-! ### The checks of the runtime -/

/-- C's conversion to the type. -/
def convert (T : ScalarType) (n : ℤ) : ℤ := (T.format.wrap n).1

/-- `gray_char_surrogate_check`: only `char` has the maximum U+10FFFF. -/
def charSurrogateCheck (value maximum : ℤ) : Except String ℤ :=
  if maximum = 0x10FFFF ∧ 0xD800 ≤ value ∧ value ≤ 0xDFFF then .error "P0019" else .ok value

def castCheck (value minimum maximum : ℤ) : Except String ℤ :=
  if value < minimum ∨ maximum < value then .error "P0018" else .ok value

def ucastCheck (value maximum : ℤ) : Except String ℤ :=
  if value < 0 ∨ maximum < value then .error "P0019" else charSurrogateCheck value maximum

def castCheckU64 (value maximum : ℤ) : Except String ℤ :=
  if maximum < value then .error "P0018" else .ok value

def ucastCheckU64 (value maximum : ℤ) : Except String ℤ :=
  if maximum < value then .error "P0019" else charSurrogateCheck value maximum

def u64ToI64Check (value : ℤ) : Except String ℤ :=
  if 9223372036854775807 < value then .error "P0018" else .ok value

/-- The `k`-th 64-bit word of an integer, the lowest first. -/
def word (value : ℤ) (k : ℕ) : ℤ := value / 2 ^ (64 * k) % 2 ^ 64

/-- The words of a wide type above the lowest. -/
def ScalarType.upperWords (T : ScalarType) : List ℕ :=
  match T with
  | .i128 | .u128 => [1]
  | _ => [1, 2, 3]

/-- The panic of `gray_<S>_to_i64`. -/
def wideToI64Panic : ScalarType → String
  | .i128 => "P0093"
  | .u128 => "P0095"
  | .i256 => "P0097"
  | _ => "P0099"

/-- The panic of `gray_<S>_to_u64`. -/
def wideToU64Panic : ScalarType → String
  | .i128 => "P0094"
  | .u128 => "P0096"
  | .i256 => "P0098"
  | _ => "P0100"

/-- `gray_<S>_to_i64`: the upper words repeat the sign of the lowest, or are zero above a lowest one
that is not above `INT64_MAX`. -/
def wideToI64 (S : ScalarType) (value : ℤ) : Except String ℤ :=
  let low := word value 0
  let fits : Bool :=
    if S.isSigned then
      S.upperWords.all fun k => word value k = if 2 ^ 63 ≤ low then 2 ^ 64 - 1 else 0
    else S.upperWords.all (fun k => word value k = 0) && low ≤ 2 ^ 63 - 1
  if fits then .ok (convert .i64 low) else .error (wideToI64Panic S)

/-- `gray_<S>_to_u64`: the upper words are zero. -/
def wideToU64 (S : ScalarType) (value : ℤ) : Except String ℤ :=
  if S.upperWords.all fun k => word value k = 0 then .ok (word value 0)
  else .error (wideToU64Panic S)

/-- `gray_wide_cast_words`: the bits from the sign bit of the destination on agree with the sign. -/
def wideCast (T : ScalarType) (value : ℤ) : Except String ℤ :=
  let isNegative : Bool := value < 0
  let firstCheckedBit := if T.isSigned then T.bits - 1 else T.bits
  let isInRange : Bool := (!isNegative || T.isSigned) &&
    (List.range' firstCheckedBit (256 - firstCheckedBit)).all fun bit =>
      value.testBit bit == isNegative
  if isInRange then .ok value else .error "P0138"

/-- `gray_cast_i64_to_u128` and `gray_cast_i64_to_u256`. -/
def castI64ToUnsignedWide (value : ℤ) : Except String ℤ :=
  if value < 0 then .error "P0138" else .ok value

/-! ### The emissions -/

inductive SizedBounds
  | signed (minimum maximum : ℤ)
  | unsigned (maximum : ℤ)

def integerTypeNameBounds : ScalarType → Option SizedBounds
  | .i8 => some (.signed (-128) 127)
  | .i16 => some (.signed (-32768) 32767)
  | .i32 => some (.signed (-2147483648) 2147483647)
  | .u8 => some (.unsigned 255)
  | .u16 => some (.unsigned 65535)
  | .u32 => some (.unsigned 4294967295)
  | _ => none

/-- The bounds of a cast to the type; a `char` that is not cast from a `char` has
`CHAR_CODEPOINT_MAX`. -/
def castBounds (S T : ScalarType) : Option SizedBounds :=
  if T = .char ∧ S ≠ .char then some (.unsigned 1114111) else integerTypeNameBounds T

/-- `emit_range_checked_narrowing`: a u64 is checked as it is. -/
def emitRangeCheckedNarrowing (S : ScalarType) (bounds : SizedBounds) (value : ℤ) :
    Except String ℤ :=
  match bounds with
  | .signed minimum maximum =>
    if S = .u64 then castCheckU64 value maximum else castCheck value minimum maximum
  | .unsigned maximum =>
    if S = .u64 then ucastCheckU64 value maximum else ucastCheck value maximum

/-- `emit_scalar_to_wide_integer`: the constructor for the source, or for an unsigned target. -/
def emitScalarToWideInteger (S T : ScalarType) (value : ℤ) : Except String ℤ :=
  if T.isSigned = false ∨ S.isUnsignedKind then .ok (convert .u64 value)
  else .ok (convert .i64 value)

def emitWideIntegerTargetConversion (S T : ScalarType) (value : ℤ) : Except String ℤ :=
  if S.isWide then
    if S = T then .ok value else wideCast T value
  else if T.isSigned = false ∧ S.isSignedKind then castI64ToUnsignedWide value
  else emitScalarToWideInteger S T value

def emitWideToScalar (S T : ScalarType) (bounds : Option SizedBounds) (value : ℤ) :
    Except String ℤ :=
  match bounds with
  | some (.unsigned maximum) => do
    let narrowed ← wideToU64 S value
    let checked ← ucastCheckU64 narrowed maximum
    return convert T checked
  | some (.signed minimum maximum) => do
    let narrowed ← wideToI64 S value
    let checked ← castCheck narrowed minimum maximum
    return convert T checked
  | none => do
    let narrowed ← if T = .u64 then wideToU64 S value else wideToI64 S value
    return convert T narrowed

/-- `emit_cast_expression` for a value. -/
def castScalar (S T : ScalarType) (value : ℤ) : Except String ℤ :=
  if T.isWide then emitWideIntegerTargetConversion S T value
  else if S.isWide then emitWideToScalar S T (integerTypeNameBounds T) value
  else match castBounds S T with
    | some bounds => do
      let checked ← emitRangeCheckedNarrowing S bounds value
      return convert T checked
    | none =>
      if T = .u64 ∧ S.isSignedKind then do
        let checked ← ucastCheck value 18446744073709551615
        return convert T checked
      else if T = .i64 ∧ S = .u64 then do
        let checked ← u64ToI64Check value
        return convert T checked
      else .ok (convert T value)

/-- `emit_cast_expression` for one element of an array; `none` where the emitted text names a
function that the runtime does not have. -/
def castElement (S T : ScalarType) : Option (ℤ → Except String ℤ) :=
  if T.isWide then
    if S.isWide then some fun value => if S = T then .ok value else wideCast T value
    else if T.isSigned = false ∧ S.isSignedKind then some castI64ToUnsignedWide
    else if S.isUnsignedKind then some fun value => .ok (convert .u64 value)
    -- There is no `gray_u128_from_i64` and no `gray_u256_from_i64`.
    else if T.isSigned then some fun value => .ok (convert .i64 value)
    else none
  else if S.isWide then some (emitWideToScalar S T (castBounds S T))
  else match castBounds S T with
    | some bounds => some fun value => do
      let checked ← emitRangeCheckedNarrowing S bounds value
      return convert T checked
    | none => some fun value => .ok (convert T value)

/-- `emit_cast_expression` for an array: the elements in order, up to the first panic. -/
def castArray (S T : ScalarType) (values : List ℤ) : Option (Except String (List ℤ)) :=
  (castElement S T).map fun cast => values.mapM cast

/-! ### The conversions of the wide types -/

theorem testBit_all_iff {first : ℕ} (hfst : first ≤ 256) {n : ℕ} (hn : n < 2 ^ 256) :
    (∀ bit ∈ List.range' first (256 - first), n.testBit bit = false) ↔ n < 2 ^ first := by
  constructor
  · intro h
    refine Nat.lt_pow_two_of_testBit n fun i hi => ?_
    by_cases hlt : i < 256
    · exact h i (mem_range'_1.mpr ⟨hi, by omega⟩)
    · exact Nat.testBit_lt_two_pow (hn.trans_le (Nat.pow_le_pow_right (by decide) (by omega)))
  · intro h bit hbit
    have hle := (mem_range'_1.mp hbit).1
    exact Nat.testBit_lt_two_pow (h.trans_le (Nat.pow_le_pow_right (by decide) hle))

/-- The bits of an integer from `first` on repeat its sign if it is a two's complement number of
`first` bits and a sign. -/
theorem signBits_all_iff {first : ℕ} (hfst : first ≤ 256) {v : ℤ} (hlow : -2 ^ 256 ≤ v)
    (hhigh : v < 2 ^ 256) :
    ((List.range' first (256 - first)).all fun bit => v.testBit bit == decide (v < 0)) = true ↔
      -2 ^ first ≤ v ∧ v < 2 ^ first := by
  rw [all_eq_true]
  cases v with
  | ofNat n =>
    have hsign : decide (Int.ofNat n < 0) = false := decide_eq_false (by simp)
    have hn : n < 2 ^ 256 := by
      have hcast : (n : ℤ) < ((2 ^ 256 : ℕ) : ℤ) := by simpa using hhigh
      exact_mod_cast hcast
    simp only [hsign, beq_iff_eq]
    refine (testBit_all_iff hfst hn).trans ⟨fun h => ⟨?_, ?_⟩, fun h => ?_⟩
    · exact (neg_nonpos.mpr (by positivity)).trans (Int.natCast_nonneg n)
    · rw [Int.ofNat_eq_natCast]
      exact_mod_cast h
    · have hupper := h.2
      rw [Int.ofNat_eq_natCast] at hupper
      exact_mod_cast hupper
  | negSucc n =>
    have hsign : decide (Int.negSucc n < 0) = true := decide_eq_true (Int.negSucc_lt_zero n)
    have hn : n < 2 ^ 256 := by
      rw [Int.negSucc_eq] at hlow
      have hcast : (n : ℤ) < ((2 ^ 256 : ℕ) : ℤ) := by
        push_cast
        omega
      exact_mod_cast hcast
    have hbit : ∀ bit, (Int.negSucc n).testBit bit = !n.testBit bit := fun _ => rfl
    simp only [hsign, beq_iff_eq, hbit, Bool.not_eq_true']
    refine (testBit_all_iff hfst hn).trans ⟨fun h => ⟨?_, ?_⟩, fun h => ?_⟩
    · have hcast : (n : ℤ) < 2 ^ first := by exact_mod_cast h
      rw [Int.negSucc_eq]
      omega
    · exact (Int.negSucc_lt_zero n).trans (by positivity)
    · have hlower := h.1
      rw [Int.negSucc_eq] at hlower
      have hcast : (n : ℤ) < 2 ^ first := by omega
      exact_mod_cast hcast

theorem bounds_of_isWide {S : ScalarType} {v : ℤ} (hS : S.isWide = true)
    (hv : S.format.Contains v) : -2 ^ 256 ≤ v ∧ v < 2 ^ 256 := by
  cases S with
  | i128 => exact ⟨le_trans (by decide) hv.1, lt_of_lt_of_le hv.2 (by decide)⟩
  | u128 => exact ⟨le_trans (by decide) hv.1, lt_of_lt_of_le hv.2 (by decide)⟩
  | i256 => exact ⟨le_trans (by decide) hv.1, lt_of_lt_of_le hv.2 (by decide)⟩
  | u256 => exact ⟨le_trans (by decide) hv.1, lt_of_lt_of_le hv.2 (by decide)⟩
  | _ => cases hS

variable {S T : ScalarType}

theorem wideCast_eq (hS : S.isWide = true) (hT : T.isWide = true) {v : ℤ}
    (hv : S.format.Contains v) :
    wideCast T v = if T.format.Contains v then .ok v else .error "P0138" := by
  obtain ⟨hlow, hhigh⟩ := bounds_of_isWide hS hv
  have hrng : ((!decide (v < 0) || T.isSigned) &&
      (List.range' (if T.isSigned then T.bits - 1 else T.bits)
        (256 - if T.isSigned then T.bits - 1 else T.bits)).all fun bit =>
          v.testBit bit == decide (v < 0)) = true ↔ T.format.Contains v := by
    rw [Bool.and_eq_true, signBits_all_iff (by cases T <;> decide) hlow hhigh]
    cases T with
    | i128 | i256 =>
      simp only [ScalarType.isSigned, Bool.or_true, true_and, if_true]
      exact Iff.rfl
    | u128 | u256 =>
      simp only [ScalarType.isSigned, Bool.or_false, Bool.not_eq_true', decide_eq_false_iff_not,
        not_lt, Bool.false_eq_true, if_false]
      refine ⟨fun h => ⟨h.1, h.2.2⟩, fun h => ⟨h.1, ?_, h.2⟩⟩
      exact le_trans (by decide) h.1
    | _ => cases hT
  simp only [wideCast, hrng]

theorem word_zero (v : ℤ) : word v 0 = v % 2 ^ 64 := by
  rw [word, mul_zero, pow_zero, Int.ediv_one]

theorem convert_of_contains {T : ScalarType} {n : ℤ} (h : T.format.Contains n) :
    convert T n = n := by
  rw [convert, IntFormat.wrap_of_contains _ h]

theorem convert_i64_word {v : ℤ} (h : ScalarType.i64.format.Contains v) :
    convert .i64 (word v 0) = v := by
  obtain ⟨hlow, hhigh⟩ := h
  have hmin : ScalarType.i64.format.min = -2 ^ 63 := rfl
  have hsize : ScalarType.i64.format.size = 2 ^ 64 := rfl
  rw [hmin] at hlow
  rw [hmin, hsize] at hhigh
  rw [convert, IntFormat.wrap_val, word_zero, hmin, hsize]
  omega

theorem contains_u64_iff {v : ℤ} : ScalarType.u64.format.Contains v ↔ 0 ≤ v ∧ v < 2 ^ 64 := Iff.rfl

theorem contains_i64_iff {v : ℤ} :
    ScalarType.i64.format.Contains v ↔ -2 ^ 63 ≤ v ∧ v < 2 ^ 63 := Iff.rfl

theorem upperWords_zero_iff {S : ScalarType} (hS : S.isWide = true) {v : ℤ}
    (hv : S.format.Contains v) :
    (S.upperWords.all fun k => decide (word v k = 0)) = true ↔ ScalarType.u64.format.Contains v := by
  rw [contains_u64_iff]
  cases S with
  | i128 | u128 =>
    have hlow : -2 ^ 127 ≤ v := le_trans (by decide) hv.1
    have hhigh : v < 2 ^ 128 := lt_of_lt_of_le hv.2 (by decide)
    simp only [ScalarType.upperWords, all_cons, all_nil, Bool.and_true, decide_eq_true_eq]
    simp only [word, Nat.reduceMul]
    omega
  | i256 | u256 =>
    have hlow : -2 ^ 255 ≤ v := le_trans (by decide) hv.1
    have hhigh : v < 2 ^ 256 := lt_of_lt_of_le hv.2 (by decide)
    simp only [ScalarType.upperWords, all_cons, all_nil, Bool.and_true, Bool.and_eq_true,
      decide_eq_true_eq]
    simp only [word, Nat.reduceMul]
    omega
  | _ => cases hS

theorem wideToU64_eq {S : ScalarType} (hS : S.isWide = true) {v : ℤ} (hv : S.format.Contains v) :
    wideToU64 S v =
      if ScalarType.u64.format.Contains v then .ok v else .error (wideToU64Panic S) := by
  rw [wideToU64]
  by_cases hfits : ScalarType.u64.format.Contains v
  · rw [if_pos hfits, if_pos ((upperWords_zero_iff hS hv).mpr hfits), word_zero,
      Int.emod_eq_of_lt (contains_u64_iff.mp hfits).1 (contains_u64_iff.mp hfits).2]
  · rw [if_neg hfits, if_neg fun h => hfits ((upperWords_zero_iff hS hv).mp h)]

theorem upperWords_sign_iff {S : ScalarType} (hS : S.isWide = true) (hsig : S.isSigned = true)
    {v : ℤ} (hv : S.format.Contains v) : (S.upperWords.all fun k =>
        decide (word v k = if 2 ^ 63 ≤ word v 0 then 2 ^ 64 - 1 else 0)) = true ↔
      ScalarType.i64.format.Contains v := by
  rw [contains_i64_iff]
  cases S with
  | i128 =>
    have hlow : -2 ^ 127 ≤ v := hv.1
    have hhigh : v < 2 ^ 127 := hv.2
    simp only [ScalarType.upperWords, all_cons, all_nil, Bool.and_true, decide_eq_true_eq]
    simp only [word, Nat.reduceMul, pow_zero, Int.ediv_one]
    split <;> omega
  | i256 =>
    have hlow : -2 ^ 255 ≤ v := hv.1
    have hhigh : v < 2 ^ 255 := hv.2
    simp only [ScalarType.upperWords, all_cons, all_nil, Bool.and_true, Bool.and_eq_true,
      decide_eq_true_eq]
    simp only [word, Nat.reduceMul, pow_zero, Int.ediv_one]
    split <;> omega
  | u128 | u256 => cases hsig
  | _ => cases hS

theorem wideToI64_eq {S : ScalarType} (hS : S.isWide = true) {v : ℤ} (hv : S.format.Contains v) :
    wideToI64 S v =
      if ScalarType.i64.format.Contains v then .ok v else .error (wideToI64Panic S) := by
  have hfits : (if S.isSigned then
      S.upperWords.all fun k => decide (word v k = if 2 ^ 63 ≤ word v 0 then 2 ^ 64 - 1 else 0)
    else (S.upperWords.all fun k => decide (word v k = 0)) && decide (word v 0 ≤ 2 ^ 63 - 1)) =
      true ↔ ScalarType.i64.format.Contains v := by
    cases hsig : S.isSigned with
    | true => exact upperWords_sign_iff hS hsig hv
    | false =>
      have hnn : 0 ≤ v := by
        have hlow := hv.1
        rwa [S.format.min_of_unsigned hsig] at hlow
      rw [if_neg Bool.false_ne_true, Bool.and_eq_true, upperWords_zero_iff hS hv, decide_eq_true_eq,
        word_zero, contains_u64_iff, contains_i64_iff]
      omega
  rw [wideToI64]
  by_cases h : ScalarType.i64.format.Contains v
  · simp only [hfits.mpr h, if_true, if_pos h, convert_i64_word h]
  · rw [if_neg h]
    exact if_neg fun hall => h (hfits.mp hall)

/-! ### Keeping the value or panicking -/

/-- The result is the value if `P` holds, and a panic otherwise. -/
def CheckedAs (P : Prop) (v : ℤ) (result : Except String ℤ) : Prop :=
  (P → result = .ok v) ∧ (¬ P → ∃ code, result = .error code)

namespace CheckedAs

variable {P Q : Prop} {v : ℤ} {result : Except String ℤ}

theorem of_ite [Decidable P] (code : String) : CheckedAs P v (if P then .ok v else .error code) :=
  ⟨fun h => if_pos h, fun h => ⟨code, if_neg h⟩⟩

theorem of_panic_ite {R : Prop} [Decidable R] (h : P ↔ ¬ R) (code : String) :
    CheckedAs P v (if R then .error code else .ok v) :=
  ⟨fun hP => if_neg (h.mp hP), fun hP => ⟨code, if_pos (not_not.mp fun hR => hP (h.mpr hR))⟩⟩

theorem congr (h : CheckedAs P v result) (hPQ : P ↔ Q) : CheckedAs Q v result :=
  ⟨fun hQ => h.1 (hPQ.mpr hQ), fun hQ => h.2 fun hP => hQ (hPQ.mp hP)⟩

theorem bind {f : ℤ → Except String ℤ} (h : CheckedAs P v result)
    (hnext : P → CheckedAs Q v (f v)) : CheckedAs (P ∧ Q) v (result >>= f) := by
  refine ⟨fun hPQ => ?_, fun hPQ => ?_⟩
  · rw [h.1 hPQ.1]
    exact (hnext hPQ.1).1 hPQ.2
  · by_cases hP : P
    · obtain ⟨code, hcode⟩ := (hnext hP).2 fun hQ => hPQ ⟨hP, hQ⟩
      exact ⟨code, by rw [h.1 hP]; exact hcode⟩
    · obtain ⟨code, hcode⟩ := h.2 hP
      exact ⟨code, by rw [hcode]; rfl⟩

theorem convert {T : ScalarType} (h : CheckedAs P v result) (hT : P → T.format.Contains v) :
    CheckedAs P v (do let checked ← result; return convert T checked) := by
  refine (h.bind (Q := True) fun hP => ⟨fun _ => ?_, fun h => absurd trivial h⟩).congr
    (iff_of_eq (and_true P))
  rw [convert_of_contains (hT hP)]
  rfl

theorem panics_iff (h : CheckedAs P v result) : (∃ code, result = .error code) ↔ ¬ P := by
  refine ⟨fun ⟨code, hcode⟩ hP => ?_, h.2⟩
  rw [h.1 hP] at hcode
  cases hcode

end CheckedAs

variable (v maximum : ℤ)

theorem charSurrogateCheck_checked : CheckedAs (maximum = 0x10FFFF → ¬ (0xD800 ≤ v ∧ v ≤ 0xDFFF)) v
      (charSurrogateCheck v maximum) := CheckedAs.of_panic_ite not_and.symm _

theorem castCheck_checked (v minimum maximum : ℤ) :
    CheckedAs (minimum ≤ v ∧ v ≤ maximum) v (castCheck v minimum maximum) :=
  CheckedAs.of_panic_ite (by rw [not_or, not_lt, not_lt]) _

theorem checked_charSurrogateCheck {R : Prop} [Decidable R] {P : Prop} {v : ℤ} (maximum : ℤ)
    (h : P ↔ ¬ R) (code : String) :
    CheckedAs (P ∧ (maximum = 0x10FFFF → ¬ (0xD800 ≤ v ∧ v ≤ 0xDFFF))) v
      (if R then .error code else charSurrogateCheck v maximum) := by
  refine ⟨fun hP => ?_, fun hP => ?_⟩
  · rw [if_neg (h.mp hP.1)]
    exact (charSurrogateCheck_checked v maximum).1 hP.2
  · by_cases hR : R
    · exact ⟨code, if_pos hR⟩
    · rw [if_neg hR]
      exact (charSurrogateCheck_checked v maximum).2 fun hsurr => hP ⟨h.mpr hR, hsurr⟩

theorem ucastCheck_checked :
    CheckedAs ((0 ≤ v ∧ v ≤ maximum) ∧ (maximum = 0x10FFFF → ¬ (0xD800 ≤ v ∧ v ≤ 0xDFFF))) v
      (ucastCheck v maximum) :=
  checked_charSurrogateCheck maximum (by rw [not_or, not_lt, not_lt]) _

theorem ucastCheckU64_checked :
    CheckedAs (v ≤ maximum ∧ (maximum = 0x10FFFF → ¬ (0xD800 ≤ v ∧ v ≤ 0xDFFF))) v
      (ucastCheckU64 v maximum) := checked_charSurrogateCheck maximum not_lt.symm _

theorem castCheckU64_checked : CheckedAs (v ≤ maximum) v (castCheckU64 v maximum) :=
  CheckedAs.of_panic_ite not_lt.symm _

/-! ### The bounds of the sized types -/

theorem contains_iff_of_signed {minimum maximum : ℤ}
    (h : castBounds S T = some (.signed minimum maximum)) (v : ℤ) :
    (T.Contains v ↔ minimum ≤ v ∧ v ≤ maximum) ∧ minimum ≤ 0 ∧ -2 ^ 63 ≤ minimum ∧
      maximum < 2 ^ 63 := by
  have hne : T ≠ .char := by
    rintro rfl
    rw [castBounds] at h
    split at h <;> cases h
  rw [castBounds, if_neg fun hT => hne hT.1] at h
  have hin : T.Contains v ↔ T.format.Contains v :=
    ⟨fun hv => hv.1, fun hv => ⟨hv, fun hT => absurd hT hne⟩⟩
  rw [hin]
  cases T with
  | i8 =>
    cases h
    refine ⟨?_, by decide⟩
    change -128 ≤ v ∧ v < 127 + 1 ↔ _
    omega
  | i16 =>
    cases h
    refine ⟨?_, by decide⟩
    change -32768 ≤ v ∧ v < 32767 + 1 ↔ _
    omega
  | i32 =>
    cases h
    refine ⟨?_, by decide⟩
    change -2147483648 ≤ v ∧ v < 2147483647 + 1 ↔ _
    omega
  | _ => cases h

theorem contains_iff_of_unsigned {maximum : ℤ}
    (h : castBounds S T = some (.unsigned maximum)) (v : ℤ) : (T.Contains v ↔
      (0 ≤ v ∧ v ≤ maximum) ∧ (maximum = 0x10FFFF → ¬ (0xD800 ≤ v ∧ v ≤ 0xDFFF))) ∧
        maximum < 2 ^ 63 := by
  by_cases hchar : T = .char ∧ S ≠ .char
  · rw [castBounds, if_pos hchar] at h
    cases h
    obtain ⟨rfl, -⟩ := hchar
    refine ⟨⟨fun hv => ?_, fun hv => ⟨?_, fun _ => ?_⟩⟩, by decide⟩
    · obtain ⟨hlow, hhigh, hsurr⟩ := hv.2 rfl
      exact ⟨⟨hlow, hhigh⟩, fun _ => hsurr⟩
    · change -2 ^ 31 ≤ v ∧ v < -2 ^ 31 + 2 ^ 32
      omega
    · exact ⟨hv.1.1, hv.1.2, hv.2 rfl⟩
  · rw [castBounds, if_neg hchar] at h
    have hin : T ≠ .char → (T.Contains v ↔ T.format.Contains v) := fun hne =>
      ⟨fun hv => hv.1, fun hv => ⟨hv, fun hT => absurd hT hne⟩⟩
    cases T with
    | u8 =>
      cases h
      refine ⟨(hin (by decide)).trans ?_, by decide⟩
      change 0 ≤ v ∧ v < 255 + 1 ↔ _
      omega
    | u16 =>
      cases h
      refine ⟨(hin (by decide)).trans ?_, by decide⟩
      change 0 ≤ v ∧ v < 65535 + 1 ↔ _
      omega
    | u32 =>
      cases h
      refine ⟨(hin (by decide)).trans ?_, by decide⟩
      change 0 ≤ v ∧ v < 4294967295 + 1 ↔ _
      omega
    | _ => cases h

theorem bounds_of_not_isWide {S : ScalarType} (hS : S.isWide = false) {v : ℤ} (hv : S.Contains v) :
    -2 ^ 63 ≤ v ∧ v < 2 ^ 64 ∧ (S ≠ .u64 → v < 2 ^ 63) ∧ (S.isSignedKind = false → 0 ≤ v) := by
  obtain ⟨⟨hlow, hhigh⟩, hscal⟩ := hv
  cases S with
  | i8 | i16 | i32 | i64 =>
    exact ⟨le_trans (by decide) hlow, lt_of_lt_of_le hhigh (by decide),
      fun _ => lt_of_lt_of_le hhigh (by decide), fun h => by cases h⟩
  | u8 | u16 | u32 =>
    exact ⟨le_trans (by decide) hlow, lt_of_lt_of_le hhigh (by decide),
      fun _ => lt_of_lt_of_le hhigh (by decide), fun _ => hlow⟩
  | u64 => exact ⟨le_trans (by decide) hlow, hhigh, fun h => absurd rfl h, fun _ => hlow⟩
  | char =>
    exact ⟨le_trans (by decide) hlow, lt_of_lt_of_le hhigh (by decide),
      fun _ => lt_of_lt_of_le hhigh (by decide), fun _ => (hscal rfl).1⟩
  | _ => cases hS

theorem emitRangeCheckedNarrowing_checked {bounds : SizedBounds}
    (hbnd : castBounds S T = some bounds) (hS : S.isWide = false) {v : ℤ} (hv : S.Contains v) :
    CheckedAs (T.Contains v) v (emitRangeCheckedNarrowing S bounds v) := by
  have hnn : S = .u64 → 0 ≤ v := fun h => (bounds_of_not_isWide hS hv).2.2.2 (by rw [h]; rfl)
  cases bounds with
  | signed minimum maximum =>
    obtain ⟨hin, hminimum, -, -⟩ := contains_iff_of_signed hbnd v
    by_cases hu64 : S = .u64
    · rw [emitRangeCheckedNarrowing, if_pos hu64]
      have := hnn hu64
      exact (castCheckU64_checked v maximum).congr (by rw [hin]; omega)
    · rw [emitRangeCheckedNarrowing, if_neg hu64]
      exact (castCheck_checked v minimum maximum).congr hin.symm
  | unsigned maximum =>
    obtain ⟨hin, -⟩ := contains_iff_of_unsigned hbnd v
    by_cases hu64 : S = .u64
    · rw [emitRangeCheckedNarrowing, if_pos hu64]
      have := hnn hu64
      exact (ucastCheckU64_checked v maximum).congr
        (by rw [hin]; exact and_congr_left' ⟨fun h => ⟨this, h⟩, fun h => h.2⟩)
    · rw [emitRangeCheckedNarrowing, if_neg hu64]
      exact (ucastCheck_checked v maximum).congr hin.symm

/-! ### The emissions keep the value or panic -/

theorem contains_iff_of_ne_char {T : ScalarType} (h : T ≠ .char) (v : ℤ) :
    T.Contains v ↔ T.format.Contains v := ⟨fun hv => hv.1, fun hv => ⟨hv, fun hT => absurd hT h⟩⟩

theorem wideToU64_checked {S : ScalarType} (hS : S.isWide = true) {v : ℤ} (hv : S.Contains v) :
    CheckedAs (ScalarType.u64.format.Contains v) v (wideToU64 S v) := by
  rw [wideToU64_eq hS hv.1]
  exact CheckedAs.of_ite _

theorem wideToI64_checked {S : ScalarType} (hS : S.isWide = true) {v : ℤ} (hv : S.Contains v) :
    CheckedAs (ScalarType.i64.format.Contains v) v (wideToI64 S v) := by
  rw [wideToI64_eq hS hv.1]
  exact CheckedAs.of_ite _

theorem eq_of_castBounds_none (h : castBounds S T = none)
    (hT : T.isWide = false) : T = .i64 ∨ T = .u64 ∨ (T = .char ∧ S = .char) := by
  rw [castBounds] at h
  split at h
  · cases h
  · rename_i hchar
    cases T with
    | i64 => exact .inl rfl
    | u64 => exact .inr (.inl rfl)
    | char => exact .inr (.inr ⟨rfl, not_not.mp fun hS => hchar ⟨rfl, hS⟩⟩)
    | i128 | u128 | i256 | u256 => cases hT
    | _ => cases h

theorem emitWideToScalar_checked (hS : S.isWide = true) (hT : T.isWide = false)
    {v : ℤ} (hv : S.Contains v) :
    CheckedAs (T.Contains v) v (emitWideToScalar S T (castBounds S T) v) := by
  cases hbnd : castBounds S T with
  | none =>
    have hchar : T ≠ .char := by
      rcases eq_of_castBounds_none hbnd hT with h | h | ⟨-, h⟩
      · rw [h]; decide
      · rw [h]; decide
      · rw [h] at hS; cases hS
    rw [contains_iff_of_ne_char hchar]
    by_cases hu64 : T = .u64
    · subst hu64
      exact (wideToU64_checked hS hv).convert id
    · have hi64 : T = .i64 := by
        rcases eq_of_castBounds_none hbnd hT with h | h | ⟨h, -⟩
        · exact h
        · exact absurd h hu64
        · exact absurd h hchar
      subst hi64
      exact (wideToI64_checked hS hv).convert id
  | some bounds =>
    cases bounds with
    | signed minimum maximum =>
      obtain ⟨hin, -, hlow, hhigh⟩ := contains_iff_of_signed hbnd v
      have hiff : ScalarType.i64.format.Contains v ∧ minimum ≤ v ∧ v ≤ maximum ↔ T.Contains v := by
        rw [hin, contains_i64_iff]
        omega
      have hchk := ((wideToI64_checked hS hv).bind (f := (castCheck · minimum maximum)) fun _ =>
        castCheck_checked v minimum maximum).congr hiff
      simpa [emitWideToScalar] using hchk.convert fun h => h.1
    | unsigned maximum =>
      obtain ⟨hin, hhigh⟩ := contains_iff_of_unsigned hbnd v
      have hiff : ScalarType.u64.format.Contains v ∧ v ≤ maximum ∧
          (maximum = 0x10FFFF → ¬ (0xD800 ≤ v ∧ v ≤ 0xDFFF)) ↔ T.Contains v := by
        rw [hin, contains_u64_iff]
        constructor
        · rintro ⟨⟨hnn, -⟩, hle, hsurr⟩
          exact ⟨⟨hnn, hle⟩, hsurr⟩
        · rintro ⟨⟨hnn, hle⟩, hsurr⟩
          exact ⟨⟨hnn, by omega⟩, hle, hsurr⟩
      have hchk := ((wideToU64_checked hS hv).bind (f := (ucastCheckU64 · maximum)) fun _ =>
        ucastCheckU64_checked v maximum).congr hiff
      simpa [emitWideToScalar] using hchk.convert fun h => h.1

theorem contains_wide_iff (hS : S.isWide = false) (hT : T.isWide = true) {v : ℤ}
    (hv : S.Contains v) : T.Contains v ↔ T.isSigned = true ∨ 0 ≤ v := by
  obtain ⟨hlow, hhigh, -, -⟩ := bounds_of_not_isWide hS hv
  cases T with
  | i128 | i256 =>
    refine iff_of_true ⟨⟨le_trans (by decide) hlow, hhigh.trans (by decide)⟩, fun h => by cases h⟩
      (.inl rfl)
  | u128 | u256 =>
    refine ⟨fun h => .inr h.1.1, fun h => ⟨⟨?_, hhigh.trans (by decide)⟩, fun h => by cases h⟩⟩
    rcases h with h | h
    · cases h
    · exact h
  | _ => cases hT

theorem castI64ToUnsignedWide_checked (v : ℤ) : CheckedAs (0 ≤ v) v (castI64ToUnsignedWide v) :=
  CheckedAs.of_panic_ite not_lt.symm _

theorem convert_u64_checked {S : ScalarType} {P : Prop} (hP : P) (hS : S.isWide = false) {v : ℤ}
    (hv : S.Contains v) (hkind : S.isSignedKind = false) :
    CheckedAs P v (.ok (convert .u64 v)) := by
  obtain ⟨-, hhigh, -, hnn⟩ := bounds_of_not_isWide hS hv
  refine ⟨fun _ => ?_, fun h => absurd hP h⟩
  rw [convert_of_contains (contains_u64_iff.mpr ⟨hnn hkind, hhigh⟩)]

theorem convert_i64_checked {S : ScalarType} {P : Prop} (hP : P) (hS : S.isWide = false) {v : ℤ}
    (hv : S.Contains v) (hne : S ≠ .u64) : CheckedAs P v (.ok (convert .i64 v)) := by
  obtain ⟨hlow, -, hhigh, -⟩ := bounds_of_not_isWide hS hv
  refine ⟨fun _ => ?_, fun h => absurd hP h⟩
  rw [convert_of_contains (contains_i64_iff.mpr ⟨hlow, hhigh hne⟩)]

theorem wideConversion_checked (hS : S.isWide = true) (hT : T.isWide = true)
    {v : ℤ} (hv : S.Contains v) :
    CheckedAs (T.Contains v) v (if S = T then .ok v else wideCast T v) := by
  by_cases heq : S = T
  · rw [if_pos heq]
    exact ⟨fun _ => rfl, fun h => absurd (heq ▸ hv) h⟩
  · have hchar : T ≠ .char := by
      rintro rfl
      cases hT
    rw [if_neg heq, wideCast_eq hS hT hv.1, contains_iff_of_ne_char hchar]
    exact CheckedAs.of_ite _

theorem emitWideIntegerTargetConversion_checked (hT : T.isWide = true) {v : ℤ}
    (hv : S.Contains v) : CheckedAs (T.Contains v) v (emitWideIntegerTargetConversion S T v) := by
  rw [emitWideIntegerTargetConversion]
  cases hS : S.isWide with
  | true =>
    rw [if_pos rfl]
    exact wideConversion_checked hS hT hv
  | false =>
    have hin := contains_wide_iff hS hT hv
    have hnn := (bounds_of_not_isWide hS hv).2.2.2
    rw [if_neg Bool.false_ne_true]
    by_cases hchk : T.isSigned = false ∧ S.isSignedKind = true
    · rw [if_pos hchk]
      refine (castI64ToUnsignedWide_checked v).congr ?_
      rw [hin, hchk.1]
      simp
    · rw [if_neg hchk, emitScalarToWideInteger]
      by_cases hu64 : T.isSigned = false ∨ S.isUnsignedKind = true
      · have hkind : S.isSignedKind = false := by
          rcases hu64 with h | h
          · exact Bool.eq_false_iff.mpr fun hsig => hchk ⟨h, hsig⟩
          · cases S <;> first | rfl | cases h
        rw [if_pos hu64]
        exact convert_u64_checked (hin.mpr (.inr (hnn hkind))) hS hv hkind
      · rw [not_or, Bool.not_eq_false] at hu64
        have hne : S ≠ .u64 := by
          rintro rfl
          exact hu64.2 rfl
        rw [if_neg (by simp [hu64])]
        exact convert_i64_checked (hin.mpr (.inl hu64.1)) hS hv hne

theorem castScalar_checked (h : ¬ (S.isWide = true ∧ T = .char)) {v : ℤ}
    (hv : S.Contains v) : CheckedAs (T.Contains v) v (castScalar S T v) := by
  rw [castScalar]
  cases hT : T.isWide with
  | true =>
    rw [if_pos rfl]
    exact emitWideIntegerTargetConversion_checked hT hv
  | false =>
    rw [if_neg Bool.false_ne_true]
    cases hS : S.isWide with
    | true =>
      have hchar : T ≠ .char := fun hchar => h ⟨hS, hchar⟩
      have hbnd : integerTypeNameBounds T = castBounds S T := by
        rw [castBounds, if_neg fun hT => hchar hT.1]
      rw [if_pos rfl, hbnd]
      exact emitWideToScalar_checked hS hT hv
    | false =>
      rw [if_neg Bool.false_ne_true]
      obtain ⟨hlow, hhigh, hsml, hnn⟩ := bounds_of_not_isWide hS hv
      cases hbnd : castBounds S T with
      | some bounds => exact (emitRangeCheckedNarrowing_checked hbnd hS hv).convert fun h => h.1
      | none =>
        rcases eq_of_castBounds_none hbnd hT with rfl | rfl | ⟨rfl, rfl⟩
        · rw [if_neg (by simp), contains_iff_of_ne_char (by decide), contains_i64_iff]
          by_cases hu64 : S = .u64
          · rw [if_pos ⟨rfl, hu64⟩, u64ToI64Check]
            exact (CheckedAs.of_panic_ite (by omega) _).convert contains_i64_iff.mpr
          · rw [if_neg fun h => hu64 h.2]
            exact convert_i64_checked ⟨hlow, hsml hu64⟩ hS hv hu64
        · rw [contains_iff_of_ne_char (by decide), contains_u64_iff]
          cases hkind : S.isSignedKind with
          | true =>
            rw [if_pos ⟨rfl, rfl⟩]
            refine ((ucastCheck_checked v 18446744073709551615).congr ?_).convert contains_u64_iff.mpr
            refine ⟨fun h => ⟨h.1.1, hhigh⟩, fun h => ⟨⟨h.1, by omega⟩, fun h => by cases h⟩⟩
          | false =>
            rw [if_neg (by simp), if_neg (by simp)]
            exact convert_u64_checked ⟨hnn hkind, hhigh⟩ hS hv hkind
        · refine ⟨fun h => ?_, fun h => absurd hv h⟩
          rw [if_neg (by decide), if_neg (by decide), convert_of_contains h.1]

/-- The casts that do not check the elements of an array: between signed integers and u64. -/
def isRawElementCast (S T : ScalarType) : Bool :=
  !S.isWide && ((T = .u64 && S.isSignedKind) || (T = .i64 && S = .u64))

/-- The casts of the elements of an array for which there is no code. -/
def hasNoElementCast (S T : ScalarType) : Bool := S = .char && (T = .u128 || T = .u256)

theorem castElement_none_iff (S T : ScalarType) :
    castElement S T = none ↔ hasNoElementCast S T = true := by
  cases S <;> cases T <;> simp [castElement, hasNoElementCast, castBounds, integerTypeNameBounds,
    ScalarType.isWide, ScalarType.isSigned, ScalarType.isSignedKind, ScalarType.isUnsignedKind]

theorem castElement_of_isRawElementCast (h : isRawElementCast S T = true) :
    castElement S T = some fun v => .ok (convert T v) := by
  rw [isRawElementCast, Bool.and_eq_true, Bool.not_eq_true'] at h
  obtain ⟨hS, hraw⟩ := h
  have hT : T.isWide = false ∧ castBounds S T = none := by
    rw [Bool.or_eq_true, Bool.and_eq_true, Bool.and_eq_true, decide_eq_true_eq, decide_eq_true_eq]
      at hraw
    rcases hraw with ⟨rfl, -⟩ | ⟨rfl, -⟩
    · exact ⟨rfl, rfl⟩
    · exact ⟨rfl, rfl⟩
  rw [castElement, hT.1, hS, hT.2, if_neg Bool.false_ne_true, if_neg Bool.false_ne_true]

variable {f : ℤ → Except String ℤ}

theorem castElement_checked
    (hf : castElement S T = some f) (hraw : isRawElementCast S T = false) {v : ℤ}
    (hv : S.Contains v) : CheckedAs (T.Contains v) v (f v) := by
  rw [castElement] at hf
  cases hT : T.isWide with
  | true =>
    rw [hT, if_pos rfl] at hf
    cases hS : S.isWide with
    | true =>
      rw [hS, if_pos rfl] at hf
      cases hf
      exact wideConversion_checked hS hT hv
    | false =>
      rw [hS, if_neg Bool.false_ne_true] at hf
      have hin := contains_wide_iff hS hT hv
      have hnn := (bounds_of_not_isWide hS hv).2.2.2
      split at hf
      · rename_i hchk
        cases hf
        refine (castI64ToUnsignedWide_checked v).congr ?_
        rw [hin, hchk.1]
        simp
      · split at hf
        · rename_i huns
          have hkind : S.isSignedKind = false := by
            cases S <;> first | rfl | cases huns
          cases hf
          exact convert_u64_checked (hin.mpr (.inr (hnn hkind))) hS hv hkind
        · rename_i huns
          have hne : S ≠ .u64 := by
            rintro rfl
            exact huns rfl
          split at hf
          · rename_i hsig
            cases hf
            exact convert_i64_checked (hin.mpr (.inl hsig)) hS hv hne
          · cases hf
  | false =>
    rw [hT, if_neg Bool.false_ne_true] at hf
    cases hS : S.isWide with
    | true =>
      rw [hS, if_pos rfl] at hf
      cases hf
      exact emitWideToScalar_checked hS hT hv
    | false =>
      rw [hS, if_neg Bool.false_ne_true] at hf
      cases hbnd : castBounds S T with
      | some bounds =>
        rw [hbnd] at hf
        cases hf
        exact (emitRangeCheckedNarrowing_checked hbnd hS hv).convert fun h => h.1
      | none =>
        rw [hbnd] at hf
        cases hf
        obtain ⟨hlow, hhigh, hsml, hnn⟩ := bounds_of_not_isWide hS hv
        rcases eq_of_castBounds_none hbnd hT with rfl | rfl | ⟨rfl, rfl⟩
        · have hu64 : S ≠ .u64 := by
            rintro rfl
            cases hraw
          exact convert_i64_checked ((contains_iff_of_ne_char (by decide) v).mpr
            (contains_i64_iff.mpr ⟨hlow, hsml hu64⟩)) hS hv hu64
        · have hkind : S.isSignedKind = false := by
            simpa [isRawElementCast, hS] using hraw
          exact convert_u64_checked ((contains_iff_of_ne_char (by decide) v).mpr
            (contains_u64_iff.mpr ⟨hnn hkind, hhigh⟩)) hS hv hkind
        · exact ⟨fun h => congrArg Except.ok (convert_of_contains h.1), fun h => absurd hv h⟩

/-! ### Arrays -/

section Elements

variable {α β ε : Type*} {f g : α → Except ε β} {values : List α}

theorem mapM_error_iff : (∃ e, values.mapM f = .error e) ↔ ∃ v ∈ values, ∃ e, f v = .error e := by
  induction values with
  | nil => simp [pure, Except.pure]
  | cons v values ih =>
    simp only [mapM_cons, mem_cons, exists_eq_or_imp, ← ih]
    cases hv : f v with
    | error e => simp [bind, Except.bind]
    | ok y =>
      cases hvals : values.mapM f with
      | error e => simp [bind, Except.bind]
      | ok ys => simp [bind, Except.bind, pure, Except.pure]

theorem mapM_congr_of_mem (h : ∀ v ∈ values, f v = g v) : values.mapM f = values.mapM g := by
  induction values with
  | nil => rfl
  | cons v values ih =>
    rw [mapM_cons, mapM_cons, h v mem_cons_self, ih fun w hw => h w (mem_cons_of_mem v hw)]

end Elements

/-- A cast of a value keeps it if the target has it, and panics otherwise. -/
def CastMeets (S T : ScalarType) (v : S.Value) : Prop := CheckedAs (T.Contains v.1) v.1 (castScalar S T v.1)

/-- A cast of an array panics if and only if the cast of an element does, and gives the casts of the
elements otherwise. -/
def ArrayCastMeets (S T : ScalarType) (values : List S.Value) : Prop :=
  ∃ result, castArray S T (values.map Subtype.val) = some result ∧
    ((∃ code, result = .error code) ↔ ∃ v ∈ values, ∃ code, castScalar S T v.1 = .error code) ∧
    ∀ converted, result = .ok converted →
      (values.map Subtype.val).mapM (castScalar S T) = .ok converted

theorem arrayMeets_iff_of_some
    (hf : castElement S T = some f) (values : List S.Value) : ArrayCastMeets S T values ↔
      ((∃ v ∈ values, ∃ code, f v.1 = .error code) ↔
        ∃ v ∈ values, ∃ code, castScalar S T v.1 = .error code) ∧
      ∀ converted, (values.map Subtype.val).mapM f = .ok converted →
        (values.map Subtype.val).mapM (castScalar S T) = .ok converted := by
  have hres : castArray S T (values.map Subtype.val) = some ((values.map Subtype.val).mapM f) := by
    rw [castArray, hf]
    rfl
  have hpanics : (∃ code, (values.map Subtype.val).mapM f = .error code) ↔
      ∃ v ∈ values, ∃ code, f v.1 = .error code := by
    rw [mapM_error_iff]
    simp only [mem_map, exists_exists_and_eq_and]
  rw [← hpanics]
  constructor
  · rintro ⟨result, hcast, hmt⟩
    rw [hres, Option.some.injEq] at hcast
    exact hcast ▸ hmt
  · intro hmt
    exact ⟨_, hres, hmt⟩

theorem mapM_val_congr {S : ScalarType} {f g : ℤ → Except String ℤ} {values : List S.Value}
    (h : ∀ v ∈ values, f v.1 = g v.1) :
    (values.map Subtype.val).mapM f = (values.map Subtype.val).mapM g := by
  refine mapM_congr_of_mem fun n hn => ?_
  obtain ⟨v, hv, rfl⟩ := mem_map.mp hn
  exact h v hv

theorem not_error_of_mapM_ok {S : ScalarType} {f : ℤ → Except String ℤ} {values : List S.Value}
    {converted : List ℤ} (h : (values.map Subtype.val).mapM f = .ok converted) {v : S.Value}
    (hv : v ∈ values) : ¬ ∃ code, f v.1 = .error code := by
  intro hpanic
  obtain ⟨code, hcode⟩ := mapM_error_iff.mpr ⟨v.1, mem_map_of_mem hv, hpanic⟩
  rw [h] at hcode
  cases hcode

theorem arrayMeets_of_checked
    (hf : castElement S T = some f) (hraw : isRawElementCast S T = false)
    (hchar : ¬ (S.isWide = true ∧ T = .char)) (values : List S.Value) :
    ArrayCastMeets S T values := by
  have helem := fun v : S.Value => castElement_checked hf hraw v.2
  have hscal := fun v : S.Value => castScalar_checked hchar v.2
  rw [arrayMeets_iff_of_some hf]
  refine ⟨?_, fun converted hconv => ?_⟩
  · simp only [(helem _).panics_iff, (hscal _).panics_iff]
  · rw [← hconv]
    refine mapM_val_congr fun v hv => ?_
    have hin : T.Contains v.1 :=
      not_not.mp fun h => not_error_of_mapM_ok hconv hv ((helem v).panics_iff.mpr h)
    rw [(helem v).1 hin, (hscal v).1 hin]

theorem arrayMeets_iff_of_raw (hraw : isRawElementCast S T = true)
    (values : List S.Value) : ArrayCastMeets S T values ↔ ∀ v ∈ values, T.Contains v.1 := by
  have hchar : ¬ (S.isWide = true ∧ T = .char) := by
    rintro ⟨hS, -⟩
    rw [isRawElementCast, hS] at hraw
    cases hraw
  have hscal := fun v : S.Value => castScalar_checked hchar v.2
  rw [arrayMeets_iff_of_some (castElement_of_isRawElementCast hraw)]
  constructor
  · rintro ⟨hpanics, -⟩ v hv
    by_contra hin
    obtain ⟨w, -, code, hcode⟩ := hpanics.mpr ⟨v, hv, (hscal v).panics_iff.mpr hin⟩
    cases hcode
  · intro h
    refine ⟨iff_of_false ?_ ?_, fun converted hconv => ?_⟩
    · rintro ⟨v, -, code, hcode⟩
      cases hcode
    · rintro ⟨v, hv, hpanic⟩
      exact (hscal v).panics_iff.mp hpanic (h v hv)
    · rw [← hconv]
      refine mapM_val_congr fun v hv => ?_
      rw [(hscal v).1 (h v hv), convert_of_contains (h v hv).1]

/-! ### Wide integers to char -/

theorem castScalar_wide_char {S : ScalarType} (hS : S.isWide = true) {v : ℤ} (hv : S.Contains v) :
    castScalar S .char v = if ScalarType.i64.format.Contains v then .ok (convert .char v)
      else .error (wideToI64Panic S) := by
  have hemit : castScalar S .char v = (do
      let narrowed ← wideToI64 S v
      return convert .char narrowed) := by
    rw [castScalar, if_neg (by decide), if_pos hS]
    rfl
  rw [hemit, wideToI64_eq hS hv.1]
  split <;> rfl

theorem contains_i64_of_char {v : ℤ} (h : ScalarType.char.Contains v) :
    ScalarType.i64.format.Contains v := by
  obtain ⟨hlow, hhigh, -⟩ := h.2 rfl
  exact contains_i64_iff.mpr ⟨by omega, by omega⟩

theorem castMeets_wide_char_iff {S : ScalarType} (hS : S.isWide = true) (v : S.Value) :
    CastMeets S .char v ↔ ¬ (ScalarType.i64.format.Contains v.1 ∧ ¬ ScalarType.char.Contains v.1) := by
  rw [CastMeets, castScalar_wide_char hS v.2]
  constructor
  · rintro hmt ⟨hi64, hchar⟩
    obtain ⟨code, hcode⟩ := hmt.2 hchar
    rw [if_pos hi64] at hcode
    cases hcode
  · intro h
    refine ⟨fun hchar => ?_, fun hchar => ⟨_, if_neg fun hi64 => h ⟨hi64, hchar⟩⟩⟩
    rw [if_pos (contains_i64_of_char hchar), convert_of_contains hchar.1]

theorem arrayMeets_wide_char_iff {S : ScalarType} (hS : S.isWide = true)
    (values : List S.Value) :
    ArrayCastMeets S .char values ↔ (∀ v ∈ values, ScalarType.char.Contains v.1) ∨
      ∃ v ∈ values, ¬ ScalarType.i64.format.Contains v.1 := by
  have hraw : isRawElementCast S .char = false := by
    rw [isRawElementCast, hS]
    rfl
  obtain ⟨f, hf⟩ : ∃ f, castElement S .char = some f := by
    rw [castElement, if_neg (by decide), if_pos hS]
    exact ⟨_, rfl⟩
  have helem := fun v : S.Value => castElement_checked hf hraw v.2
  have hscal : ∀ v : S.Value, (∃ code, castScalar S .char v.1 = .error code) ↔
      ¬ ScalarType.i64.format.Contains v.1 := by
    intro v
    rw [castScalar_wide_char hS v.2]
    exact (CheckedAs.of_ite (P := ScalarType.i64.format.Contains v.1) (v := convert .char v.1)
      (wideToI64Panic S)).panics_iff
  rw [arrayMeets_iff_of_some hf]
  simp only [(helem _).panics_iff, hscal]
  constructor
  · rintro ⟨hpanics, -⟩
    by_cases hall : ∀ v ∈ values, ScalarType.char.Contains v.1
    · exact .inl hall
    · push Not at hall
      exact .inr (hpanics.mp hall)
  · rintro (hall | ⟨v, hv, hi64⟩)
    · refine ⟨iff_of_false ?_ ?_, fun converted hconv => ?_⟩
      · rintro ⟨v, hv, hchar⟩
        exact hchar (hall v hv)
      · rintro ⟨v, hv, hi64⟩
        exact hi64 (contains_i64_of_char (hall v hv))
      · rw [← hconv]
        refine mapM_val_congr fun v hv => ?_
        rw [(helem v).1 (hall v hv), castScalar_wide_char hS v.2,
          if_pos (contains_i64_of_char (hall v hv)), convert_of_contains (hall v hv).1]
    · have hchar : ¬ ScalarType.char.Contains v.1 := fun h => hi64 (contains_i64_of_char h)
      refine ⟨iff_of_true ⟨v, hv, hchar⟩ ⟨v, hv, hi64⟩, fun converted hconv => ?_⟩
      exact absurd ((helem v).panics_iff.mpr hchar) (not_error_of_mapM_ok hconv hv)

/-- Casts of values and of arrays keep the value or panic, except for wide integers cast to `char`
and, in arrays, for the elements that are not checked and the conversions without code. -/
theorem casts_meet_iff (S T : ScalarType) :
    (∀ v : S.Value, CastMeets S T v ↔ ¬ (S.isWide = true ∧ T = .char ∧
        ScalarType.i64.format.Contains v.1 ∧ ¬ ScalarType.char.Contains v.1)) ∧
      ∀ values : List S.Value, ArrayCastMeets S T values ↔ hasNoElementCast S T = false ∧
        (isRawElementCast S T = true → ∀ v ∈ values, T.Contains v.1) ∧
        (S.isWide = true → T = .char → (∀ v ∈ values, ScalarType.char.Contains v.1) ∨
          ∃ v ∈ values, ¬ ScalarType.i64.format.Contains v.1) := by
  constructor
  · intro v
    by_cases h : S.isWide = true ∧ T = .char
    · obtain ⟨hS, rfl⟩ := h
      rw [castMeets_wide_char_iff hS]
      simp [hS]
    · exact iff_of_true (castScalar_checked h v.2) fun hwide => h ⟨hwide.1, hwide.2.1⟩
  · intro values
    cases hf : castElement S T with
    | none =>
      have hnone := (castElement_none_iff S T).mp hf
      refine iff_of_false ?_ fun h => by rw [hnone] at h; cases h.1
      rintro ⟨result, hres, -⟩
      rw [castArray, hf] at hres
      cases hres
    | some f =>
      have hsome : hasNoElementCast S T = false := by
        rw [← Bool.not_eq_true, ← castElement_none_iff, hf]
        simp
      by_cases h : S.isWide = true ∧ T = .char
      · obtain ⟨hS, rfl⟩ := h
        rw [arrayMeets_wide_char_iff hS]
        simp [hsome, hS, isRawElementCast]
      · cases hraw : isRawElementCast S T with
        | true =>
          rw [arrayMeets_iff_of_raw hraw]
          refine ⟨fun hall => ⟨hsome, fun _ => hall, fun hS hT => absurd ⟨hS, hT⟩ h⟩, fun hall => ?_⟩
          exact hall.2.1 rfl
        | false =>
          refine iff_of_true (arrayMeets_of_checked hf hraw h values) ⟨hsome, ?_, ?_⟩
          · rintro ⟨⟩
          · exact fun hS hT => absurd ⟨hS, hT⟩ h

/-- `cast(xs, [u64])` for an array with `-1` gives an array with `2 ^ 64 - 1`. -/
theorem not_arrayCastMeets_i64_u64 : ¬ ArrayCastMeets .i64 .u64 [⟨-1, by decide⟩] := by
  rw [arrayMeets_iff_of_raw (by decide)]
  decide

end Grayscale
