import Grayscale.Library.DecimalText
import Grayscale.Runtime.WideIntegerLaws
import Grayscale.Util.Bytes

/-!
# Decimal texts of wide integers

Printing of i128, u128, i256 and u256 into buffers of fixed sizes, and the constructors from decimal
literals.
-/

namespace Grayscale

open DecimalText List

/-! ### Printing -/

def u128MaxDigits : ℕ := 21

def i256MaxDigits : ℕ := 40

def u256MaxDigits : ℕ := 80

/-- `snprintf` of a `uint64_t` with `PRIu64`: what the buffer holds in front of its NUL. -/
def snprintfU64 (size : ℕ) (value : Word) : Text := (render value.toNat).take (size - 1)

section Printing

variable {α : Type}

/-- The words of a width, as the printing of the width uses them. -/
structure DigitSource (α : Type) where
  isZero : α → Bool
  divmod : α → α → Except String (α × α)
  ten : α
  low : α → Word

/-- The loop over the digits: `buffer[--position]`, in front of what is written. -/
def digitsLoop (source : DigitSource α) : ℕ → α → Text → Option (ℕ × Text)
  | 0, remaining, written => if source.isZero remaining then some (0, written) else none
  | position + 1, remaining, written =>
    if source.isZero remaining then some (position + 1, written)
    else
      match source.divmod remaining source.ten with
      | .ok s =>
        digitsLoop source position s.1 ((48 + (source.low s.2).toNat.toUInt8) :: written)
      | .error _ => none

/-- A value that does not fit one word, in a buffer of `size` bytes. -/
def wideDigits (source : DigitSource α) (size : ℕ) (value : α) : Option Text := do
  let (position, written) ← digitsLoop source (size - 1) value []
  if position = size - 1 then
    if position = 0 then none else some (48 :: written)
  else some written

/-- A signed value: the sign in front of the magnitude. -/
def signedToString (isNeg : α → Bool) (neg : α → α) (toString : α → Option Text) (value : α) :
    Option Text :=
  if isNeg value then (toString (neg value)).map (byte '-' :: ·) else toString value

end Printing

/-- `ten_value` and the helpers of the u128 printing. -/
def digitSource128 : DigitSource U128 := ⟨Words128.isZero, u128Divmod, ⟨10, 0⟩, Words128.low⟩

/-- `ten_value` and the helpers of the u256 printing. -/
def digitSource256 : DigitSource U256 :=
  ⟨Words256.isZero, u256Divmod, ⟨[10, 0, 0, 0], rfl⟩, fun x => x.w.getD 0 0⟩

def u128ToString (value : U128) : Option Text :=
  if value.high = 0 then some (snprintfU64 u128MaxDigits value.low)
  else wideDigits digitSource128 i256MaxDigits value

def u256ToString (value : U256) : Option Text :=
  if value.fitsWord then some (snprintfU64 u128MaxDigits (value.w.getD 0 0))
  else wideDigits digitSource256 u256MaxDigits value

def i128ToString : I128 → Option Text := signedToString i128IsNeg i128Neg u128ToString

def i256ToString : I256 → Option Text := signedToString i256IsNeg i256Neg u256ToString

/-! ### Constructors -/

section Constructors

variable {α : Type}

/-- The loop of a constructor: a NUL ends the text. -/
def fromDecimalLoop (mul add : α → α → α) (ten : α) (digit : Word → α) : Text → α → Except String α
  | [], result => .ok result
  | c :: text, result =>
    if c = 0 then .ok result
    else if c = byte '_' then fromDecimalLoop mul add ten digit text result
    else if c < byte '0' ∨ byte '9' < c then .error "P0102"
    else fromDecimalLoop mul add ten digit text
      (add (mul result ten) (digit (BitVec.ofNat 64 (c - byte '0').toNat)))

/-- A signed constructor: a sign in front of the magnitude. -/
def signedFromDecimal (neg : α → α) (fromDecimal : Text → Except String α) (text : Text) :
    Except String α :=
  if byteAt text 0 = byte '-' then (fromDecimal (text.drop 1)).map neg else fromDecimal text

end Constructors

def u128FromDecimal (text : Text) : Except String U128 :=
  fromDecimalLoop u128Mul u128Add ⟨10, 0⟩ (fun w => ⟨w, 0⟩) text u128Zero

def u256FromDecimal (text : Text) : Except String U256 :=
  fromDecimalLoop u256Mul u256Add ⟨[10, 0, 0, 0], rfl⟩ (fun w => ⟨[w, 0, 0, 0], length_oneWord w⟩) text
    u256Zero

def i128FromDecimal : Text → Except String I128 := signedFromDecimal i128Neg u128FromDecimal

def i256FromDecimal : Text → Except String I256 := signedFromDecimal i256Neg u256FromDecimal

/-! ### What is printed -/

section Prints

variable {α : Type} {T : ScalarType} {toNat : α → ℕ} {isNeg isZero : α → Bool} {neg : α → α}
  {divmod : α → α → Except String (α × α)}

/-- The helpers of a width do what the printing needs. -/
structure DigitSource.Sound (source : DigitSource α) (toNat : α → ℕ) : Prop where
  isZero_iff : ∀ x, source.isZero x = true ↔ toNat x = 0
  divmod_ten : ∀ x, ∃ s : α × α, source.divmod x source.ten = .ok s ∧ toNat s.1 = toNat x / 10 ∧
    toNat s.2 = toNat x % 10
  low : ∀ x, toNat x < 10 → (source.low x).toNat = toNat x

theorem digitsLoop_eq {source : DigitSource α} (hsrc : source.Sound toNat) {position : ℕ} {x : α}
    (hx : toNat x < 10 ^ position) (written : Text) : digitsLoop source position x written =
      some (position - (digits (toNat x)).length, digits (toNat x) ++ written) := by
  induction position generalizing x written with
  | zero =>
    have hzero : toNat x = 0 := by
      rw [Nat.pow_zero] at hx
      omega
    rw [digitsLoop, if_pos ((hsrc.isZero_iff x).mpr hzero), hzero]
    rfl
  | succ position ih =>
    rw [digitsLoop]
    by_cases hzero : toNat x = 0
    · rw [if_pos ((hsrc.isZero_iff x).mpr hzero), hzero]
      rfl
    · obtain ⟨s, hs, hquot, hrem⟩ := hsrc.divmod_ten x
      have hlow := hsrc.low s.2 (by rw [hrem]; exact Nat.mod_lt _ (by decide))
      have hfits : toNat s.1 < 10 ^ position := by
        rw [hquot, Nat.div_lt_iff_lt_mul (by decide), ← Nat.pow_succ]
        exact hx
      rw [if_neg fun h => hzero ((hsrc.isZero_iff x).mp h), hs]
      dsimp only
      rw [ih hfits, digits_of_ne_zero hzero, hquot, hlow, hrem, length_append,
        append_assoc, length_singleton]
      refine congrArg some (Prod.ext ?_ rfl)
      dsimp only
      omega

theorem wideDigits_eq {source : DigitSource α} (hsrc : source.Sound toNat) {size : ℕ} {x : α}
    (hx : toNat x < 10 ^ (size - 1)) (hzero : toNat x ≠ 0) :
    wideDigits source size x = some (render (toNat x)) := by
  have hlen := length_digits_le hx
  have hpos := length_pos_of_ne_nil (digits_ne_nil hzero)
  rw [wideDigits, digitsLoop_eq hsrc hx, append_nil]
  dsimp only [Option.bind_eq_bind, Option.bind_some]
  rw [if_neg (by omega), render, if_neg hzero]

theorem snprintfU64_eq (value : Word) : snprintfU64 u128MaxDigits value = render value.toNat := by
  refine take_of_length_le (length_render_le (by decide) ?_)
  exact value.isLt.trans (by decide)

end Prints

theorem digitSource128_sound : digitSource128.Sound Words128.toNat where
  isZero_iff := Words128.isZero_iff
  divmod_ten x := u128Divmod_eq (show Words128.toNat ⟨10, 0⟩ ≠ 0 by decide)
  low x h := by
    rw [Words128.toNat] at h ⊢
    change x.low.toNat = _
    omega

theorem digitSource256_sound : digitSource256.Sound Words256.toNat where
  isZero_iff := Words256.isZero_iff
  divmod_ten x := u256Divmod_eq (show Words256.toNat ⟨[10, 0, 0, 0], rfl⟩ ≠ 0 by decide)
  low x h := by
    obtain ⟨a, b, c, d, hw⟩ := x.exists_words
    rw [Words256.toNat_of_words hw] at h ⊢
    change (x.w.getD 0 0).toNat = _
    rw [hw]
    change a.toNat = _
    omega

theorem u128ToString_eq (x : U128) : u128ToString x = some (render x.toNat) := by
  rw [u128ToString]
  split_ifs with h
  · rw [snprintfU64_eq, Words128.toNat, h, toNat_zeroWord, Nat.mul_zero, Nat.add_zero]
  · refine wideDigits_eq digitSource128_sound (x.toNat_lt.trans (by decide)) ?_
    intro hzero
    rw [Words128.toNat] at hzero
    exact h (word_eq_iff.mpr (by rw [toNat_zeroWord]; omega))

theorem u256ToString_eq (x : U256) : u256ToString x = some (render x.toNat) := by
  rw [u256ToString]
  split_ifs with h
  · rw [snprintfU64_eq, Words256.toNat_of_fitsWord h]
  · refine wideDigits_eq digitSource256_sound (x.toNat_lt.trans (by decide)) ?_
    intro hzero
    have hall := (x.isZero_iff).mpr hzero
    rw [Words256.isZero, all_eq_true] at hall
    refine h ?_
    rw [Words256.fitsWord, all_eq_true]
    exact fun w hw => hall w (mem_of_mem_drop hw)

/-! ### What is read -/

theorem byte_digit {c : UInt8} (h : IsDigit c) :
    c ≠ 0 ∧ c ≠ byte '_' ∧ c ≠ byte '-' ∧ ¬ (c < byte '0' ∨ byte '9' < c) := by
  obtain ⟨hlow, hhigh⟩ := h
  refine ⟨?_, ?_, ?_, ?_⟩
  · rintro rfl
    exact absurd hlow (by decide)
  · rintro rfl
    exact absurd hhigh (by decide)
  · rintro rfl
    exact absurd hlow (by decide)
  · rintro (h | h)
    · exact absurd hlow (UInt8.not_le.mpr h)
    · exact absurd hhigh (UInt8.not_le.mpr h)

section Reads

variable {α : Type} {toNat : α → ℕ} {mul add : α → α → α} {ten : α} {digit : Word → α} {size : ℕ}

theorem fromDecimalLoop_digits
    (hmul : ∀ x y, toNat (mul x y) ≡ toNat x * toNat y [MOD size])
    (hadd : ∀ x y, toNat (add x y) ≡ toNat x + toNat y [MOD size]) (hten : toNat ten = 10)
    (hdig : ∀ w, toNat (digit w) = w.toNat) {text : Text} (htext : ∀ c ∈ text, IsDigit c)
    (x : α) : ∃ y, fromDecimalLoop mul add ten digit text x = .ok y ∧
      toNat y ≡ read (toNat x) text [MOD size] := by
  induction text generalizing x with
  | nil => exact ⟨x, rfl, rfl⟩
  | cons c text ih =>
    have hc := htext c (mem_cons_self ..)
    obtain ⟨hzero, hunderscore, -, hrng⟩ := byte_digit hc
    obtain ⟨y, hy, hval⟩ := ih (fun d hd => htext d (mem_cons_of_mem c hd))
      (add (mul x ten) (digit (BitVec.ofNat 64 (c - byte '0').toNat)))
    refine ⟨y, ?_, hval.trans ?_⟩
    · rw [fromDecimalLoop, if_neg hzero, if_neg hunderscore, if_neg hrng, hy]
    · have hdigitValue : (BitVec.ofNat 64 (c - byte '0').toNat).toNat = digitValue c := by
        have hlt := (c - byte '0').toNat_lt
        rw [BitVec.toNat_ofNat, Nat.mod_eq_of_lt (hlt.trans (by decide))]
        rfl
      have hstep := (hadd (mul x ten) (digit (BitVec.ofNat 64 (c - byte '0').toNat))).trans
        ((hmul x ten).add_right _)
      rw [hten, hdig, hdigitValue] at hstep
      exact read_modEq hstep text

end Reads

theorem toNat_lowWord (a : Word) : (⟨a, 0⟩ : Words128).toNat = a.toNat := by
  rw [Words128.toNat, toNat_zeroWord, Nat.mul_zero, Nat.add_zero]

theorem u128FromDecimal_render (x : U128) : u128FromDecimal (render x.toNat) = .ok x := by
  obtain ⟨y, hy, hval⟩ := fromDecimalLoop_digits Words128.toNat_mul Words128.toNat_add
    (show Words128.toNat ⟨10, 0⟩ = 10 by decide)
    toNat_lowWord (fun c (hc : c ∈ render x.toNat) => isDigit_of_mem_render hc) u128Zero
  rw [show u128Zero.toNat = 0 from rfl, read_render] at hval
  rw [u128FromDecimal]
  exact hy.trans (congrArg Except.ok (Words128.toNat_injective
    (hval.eq_of_lt_of_lt y.toNat_lt x.toNat_lt)))

theorem u256FromDecimal_render (x : U256) : u256FromDecimal (render x.toNat) = .ok x := by
  obtain ⟨y, hy, hval⟩ := fromDecimalLoop_digits Words256.toNat_mul Words256.toNat_add
    (show Words256.toNat ⟨[10, 0, 0, 0], rfl⟩ = 10 by decide) toNat_oneWord
    (fun c (hc : c ∈ render x.toNat) => isDigit_of_mem_render hc) u256Zero
  rw [toNat_u256Zero, read_render] at hval
  rw [u256FromDecimal]
  exact hy.trans (congrArg Except.ok (Words256.toNat_injective
    (hval.eq_of_lt_of_lt y.toNat_lt x.toNat_lt)))

section Signed

variable {α : Type} {T : ScalarType} {toNat : α → ℕ} {isNeg isZero : α → Bool} {neg : α → α}
  {divmod : α → α → Except String (α × α)}

theorem SignedWords.neg_neg (hsig : SignedWords T toNat isNeg neg)
    (hwrd : DividingWords T toNat isZero divmod) (x : α) : neg (neg x) = x := by
  refine hwrd.value_injective ?_
  rw [hsig.value_neg, hsig.value_neg]
  have hmod := (convert_modEq T (-convert T (toNat x))).neg
  rw [Int.neg_neg] at hmod
  exact (convert_congr hmod).trans (convert_of_contains (contains_convert T _))

theorem signedToString_spec (hsig : SignedWords T toNat isNeg neg)
    (hwrd : DividingWords T toNat isZero divmod) {print : α → Option Text}
    {fromDecimal : Text → Except String α} (hprint : ∀ x, print x = some (render (toNat x)))
    (hread : ∀ x, fromDecimal (render (toNat x)) = .ok x) (x : α) :
    signedToString isNeg neg print x = some ((if isNeg x then [byte '-'] else []) ++
        render (convert T (toNat x)).natAbs) ∧
      signedFromDecimal neg fromDecimal ((if isNeg x then [byte '-'] else []) ++
        render (convert T (toNat x)).natAbs) = .ok x := by
  have hmag := hsig.toNat_magnitude hwrd x
  rw [← hmag]
  cases h : isNeg x with
  | true =>
    refine ⟨?_, ?_⟩
    · rw [signedToString, if_pos h, hprint]
      rfl
    · rw [signedFromDecimal, if_pos rfl]
      change (fromDecimal (render (toNat (neg x)))).map neg = _
      rw [hread]
      exact congrArg Except.ok (hsig.neg_neg hwrd x)
  | false =>
    refine ⟨?_, ?_⟩
    · rw [signedToString, if_neg (by rw [h]; exact Bool.false_ne_true), hprint]
      rfl
    · have hfst : byteAt (render (toNat x)) 0 ≠ byte '-' := by
        cases hren : render (toNat x) with
        | nil => exact absurd hren (render_ne_nil _)
        | cons c text =>
          have hc : c ∈ render (toNat x) := hren ▸ mem_cons_self ..
          exact (byte_digit (isDigit_of_mem_render hc)).2.2.1
      exact (if_neg hfst).trans (hread x)

end Signed

end Grayscale
