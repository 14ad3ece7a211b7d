import Grayscale.Library.Limbs
import Grayscale.Library.LongDivision
import Grayscale.Codegen.Casts

/-!
# Wide integers

The types i128, u128, i256 and u256 of the runtime, held in words of 64 bits, and their arithmetic.
A signed type and the unsigned type of its width have the same words; a conversion between the two
keeps them.
-/

namespace Grayscale

/-- `uint64_t`. -/
abbrev Word : Type := BitVec 64

/-- The words of a `gray_u128` or a `gray_i128`; the high word of an i128 is an `int64_t`. -/
structure Words128 where
  low : Word
  high : Word
  deriving DecidableEq

/-- The words `w[4]` of a `gray_u256` or a `gray_i256`, the lowest first. -/
structure Words256 where
  w : List Word
  length_w : w.length = 4
  deriving DecidableEq

/-- `gray_u128`. -/
abbrev U128 : Type := Words128

/-- `gray_i128`. -/
abbrev I128 : Type := Words128

/-- `gray_u256`. -/
abbrev U256 : Type := Words256

/-- `gray_i256`. -/
abbrev I256 : Type := Words256

def wordsNumber (l : List Word) : ℕ := Limbs.number 64 (l.map BitVec.toNat)

/-- The words as an unsigned number. -/
def Words128.toNat (x : Words128) : ℕ := x.low.toNat + 2 ^ 64 * x.high.toNat

def Words256.toNat (x : Words256) : ℕ := wordsNumber x.w

def Words128.value (T : ScalarType) (x : Words128) : ℤ := convert T x.toNat

def Words256.value (T : ScalarType) (x : Words256) : ℤ := convert T x.toNat

theorem length_oneWord (w : Word) : [w, 0, 0, 0].length = 4 := rfl

/-- `GRAY_U128_ZERO`. -/
def u128Zero : U128 := ⟨0, 0⟩

/-- `GRAY_U256_ZERO`. -/
def u256Zero : U256 := ⟨[0, 0, 0, 0], rfl⟩

def Words128.isZero (x : Words128) : Bool := x.high == 0 && x.low == 0

def Words256.isZero (x : Words256) : Bool := x.w.all (· == 0)

/-- `value.high < 0`. -/
def i128IsNeg (x : I128) : Bool := x.high.msb

def i256IsNeg (x : I256) : Bool := (x.w.getD 3 0).msb

/-- The bit of a word that a condition sets. -/
def carryBit (b : Bool) : Word := if b then 1 else 0

/-! ### Products of words -/

def low32Mask : Word := 0xFFFFFFFF

/-- The high word of the product of two words, from halves of 32 bits; each multiplication of the
source spells it out. -/
def productHigh (left right : Word) : Word :=
  let leftLow := left &&& low32Mask
  let leftHigh := left >>> 32
  let rightLow := right &&& low32Mask
  let rightHigh := right >>> 32
  let productLowLow := leftLow * rightLow
  let productLowHigh := leftLow * rightHigh
  let productHighLow := leftHigh * rightLow
  let productHighHigh := leftHigh * rightHigh
  let middle := productLowHigh + (productLowLow >>> 32)
  productHighHigh + (middle >>> 32) + (((middle &&& low32Mask) + productHighLow) >>> 32)

/-! ### Two words -/

/-- The sum, word by word. -/
def Words128.add (left right : Words128) : Words128 :=
  let low := left.low + right.low
  ⟨low, left.high + right.high + carryBit (low < left.low)⟩

/-- The difference, word by word. -/
def Words128.sub (left right : Words128) : Words128 :=
  ⟨left.low - right.low, left.high - right.high - carryBit (left.low < right.low)⟩

/-- The schoolbook product. -/
def Words128.mul (left right : Words128) : Words128 := ⟨left.low * right.low,
    productHigh left.low right.low + left.low * right.high + left.high * right.low⟩

def u128Add : U128 → U128 → U128 := Words128.add

def u128Sub : U128 → U128 → U128 := Words128.sub

def u128Mul : U128 → U128 → U128 := Words128.mul

def i128Add : I128 → I128 → I128 := Words128.add

def i128Sub : I128 → I128 → I128 := Words128.sub

def i128Mul : I128 → I128 → I128 := Words128.mul

def i128Neg (value : I128) : I128 :=
  let low := ~~~value.low + 1
  ⟨low, ~~~value.high + carryBit (low == 0)⟩

def u128Lt (left right : U128) : Bool :=
  left.high < right.high || (left.high == right.high && left.low < right.low)

/-! ### Four words -/

/-- The loop of `gray_u256_add`. -/
def addWords : List Word → List Word → Word → List Word
  | a :: l, b :: m, carry =>
    let limbSum := a + b + carry
    limbSum :: addWords l m (carryBit (limbSum < a || (carry != 0 && limbSum == a)))
  | _, _, _ => []

/-- The loop of `gray_u256_sub`. -/
def subWords : List Word → List Word → Word → List Word
  | a :: l, b :: m, borrow =>
    (a - b - borrow) :: subWords l m (carryBit (a < b || a - b < borrow))
  | _, _, _ => []

/-- The loop of `gray_i256_neg`. -/
def negWords : List Word → Word → List Word
  | a :: l, carry =>
    let limbSum := ~~~a + carry
    limbSum :: negWords l (carryBit (limbSum < ~~~a))
  | [], _ => []

/-- The inner loop of `gray_u256_mul`: `factor` times the words, added to the words of the result
from the place of `factor` on. -/
def mulWordsRow (factor : Word) : List Word → List Word → Word → List Word
  | b :: m, previous :: result, carry =>
    let limb := previous + b * factor + carry
    let next := productHigh b factor + carryBit (limb < previous + b * factor) +
      carryBit (previous + b * factor < previous)
    limb :: mulWordsRow factor m result next
  | _, _, _ => []

/-- The outer loop of `gray_u256_mul`: no later row reaches the lowest word of a row. -/
def mulWords (left : List Word) : List Word → List Word → List Word
  | factor :: right, result =>
    match mulWordsRow factor left result 0 with
    | limb :: rest => limb :: mulWords left right rest
    | [] => []
  | [], result => result

theorem length_addWords {l m : List Word} (h : l.length = m.length) (carry : Word) :
    (addWords l m carry).length = l.length := by
  induction l generalizing m carry with
  | nil => rfl
  | cons a l ih =>
    cases m with
    | nil => cases h
    | cons b m => exact congrArg (· + 1) (ih (Nat.succ.inj h) _)

theorem length_subWords {l m : List Word} (h : l.length = m.length) (borrow : Word) :
    (subWords l m borrow).length = l.length := by
  induction l generalizing m borrow with
  | nil => rfl
  | cons a l ih =>
    cases m with
    | nil => cases h
    | cons b m => exact congrArg (· + 1) (ih (Nat.succ.inj h) _)

theorem length_negWords (l : List Word) (carry : Word) : (negWords l carry).length = l.length := by
  induction l generalizing carry with
  | nil => rfl
  | cons a l ih => exact congrArg (· + 1) (ih _)

theorem length_mulWordsRow (factor : Word) {m result : List Word}
    (h : result.length ≤ m.length) (carry : Word) :
    (mulWordsRow factor m result carry).length = result.length := by
  induction result generalizing m carry with
  | nil => cases m <;> rfl
  | cons previous result ih =>
    cases m with
    | nil => cases h
    | cons b m => exact congrArg (· + 1) (ih (Nat.le_of_succ_le_succ h) _)

theorem length_mulWords {left : List Word} (right : List Word) {result : List Word}
    (h : result.length ≤ left.length) : (mulWords left right result).length = result.length := by
  induction right generalizing result with
  | nil => rfl
  | cons factor right ih =>
    have hrow := length_mulWordsRow factor h 0
    rw [mulWords]
    cases hlist : mulWordsRow factor left result 0 with
    | nil => rw [← hrow, hlist]
    | cons limb rest =>
      rw [hlist, List.length_cons] at hrow
      rw [List.length_cons, ih (by omega), hrow]

/-- The sum, word by word. -/
def Words256.add (left right : Words256) : Words256 where
  w := addWords left.w right.w 0
  length_w := (length_addWords (left.length_w.trans right.length_w.symm) 0).trans left.length_w

/-- The difference, word by word. -/
def Words256.sub (left right : Words256) : Words256 where
  w := subWords left.w right.w 0
  length_w := (length_subWords (left.length_w.trans right.length_w.symm) 0).trans left.length_w

/-- The low words of the schoolbook product. -/
def Words256.mul (left right : Words256) : Words256 where
  w := mulWords left.w right.w u256Zero.w
  length_w := length_mulWords right.w (u256Zero.length_w.trans left.length_w.symm).le

def u256Add : U256 → U256 → U256 := Words256.add

def u256Sub : U256 → U256 → U256 := Words256.sub

def u256Mul : U256 → U256 → U256 := Words256.mul

def i256Add : I256 → I256 → I256 := Words256.add

def i256Sub : I256 → I256 → I256 := Words256.sub

def i256Mul : I256 → I256 → I256 := Words256.mul

def i256Neg (value : I256) : I256 where
  w := negWords value.w 1
  length_w := (length_negWords value.w 1).trans value.length_w

/-- `gray_u256_lt`, from the highest word down. -/
def u256Lt (left right : U256) : Bool :=
  if left.w.getD 3 0 ≠ right.w.getD 3 0 then left.w.getD 3 0 < right.w.getD 3 0
  else if left.w.getD 2 0 ≠ right.w.getD 2 0 then left.w.getD 2 0 < right.w.getD 2 0
  else if left.w.getD 1 0 ≠ right.w.getD 1 0 then left.w.getD 1 0 < right.w.getD 1 0
  else left.w.getD 0 0 < right.w.getD 0 0

/-! ### Division -/

/-- One round of `gray_u128_divmod`, on the quotient and the remainder. -/
def u128DivmodStep (dividend divisor : U128) (bitIndex : ℕ) (s : U128 × U128) : U128 × U128 :=
  let high := (s.2.high <<< 1) ||| (s.2.low >>> 63)
  let bit := if 64 ≤ bitIndex then (dividend.high >>> (bitIndex - 64)) &&& 1
    else (dividend.low >>> bitIndex) &&& 1
  let low := (s.2.low <<< 1) ||| bit
  if divisor.high < high ∨ high = divisor.high ∧ divisor.low ≤ low then
    let borrow := carryBit (low < divisor.low)
    let quotient : U128 :=
      if 64 ≤ bitIndex then ⟨s.1.low, s.1.high ||| ((1 : Word) <<< (bitIndex - 64))⟩
      else ⟨s.1.low ||| ((1 : Word) <<< bitIndex), s.1.high⟩
    (quotient, ⟨low - divisor.low, high - (divisor.high + borrow)⟩)
  else (s.1, ⟨low, high⟩)

def u128Divmod (dividend divisor : U128) : Except String (U128 × U128) :=
  if divisor.isZero then .error "P0078"
  else if dividend.high = 0 ∧ divisor.high = 0 then
    .ok (⟨dividend.low / divisor.low, 0⟩, ⟨dividend.low % divisor.low, 0⟩)
  else .ok (LongDivision.loop (u128DivmodStep dividend divisor) 128 (u128Zero, u128Zero))

/-- The words shifted left by one, with a bit that comes in. -/
def shiftWordsOne : Word → List Word → List Word
  | incoming, d :: l => ((d <<< 1) ||| incoming) :: shiftWordsOne (d >>> 63) l
  | _, [] => []

/-- The comparison of `gray_u256_divmod`: the words are given from the highest down. -/
def isAtLeast : List Word → List Word → Bool
  | r :: l, d :: m => if r > d then true else if r < d then false else isAtLeast l m
  | _, _ => true

theorem length_shiftWordsOne (incoming : Word) (l : List Word) :
    (shiftWordsOne incoming l).length = l.length := by
  induction l generalizing incoming with
  | nil => rfl
  | cons d l ih => exact congrArg (· + 1) (ih _)

/-- The words shifted left by one, with a bit that comes in. -/
def Words256.shiftOne (incoming : Word) (x : Words256) : Words256 where
  w := shiftWordsOne incoming x.w
  length_w := (length_shiftWordsOne incoming x.w).trans x.length_w

/-- One round of `gray_u256_divmod`, on the quotient and the remainder. -/
def u256DivmodStep (dividend divisor : U256) (i : ℕ) (s : U256 × U256) : U256 × U256 :=
  let word := i / 64
  let bitIndex := i % 64
  let bit := (dividend.w.getD word 0 >>> bitIndex) &&& 1
  let remainder := s.2.shiftOne bit
  if isAtLeast remainder.w.reverse divisor.w.reverse then
    (⟨s.1.w.modify word (· ||| ((1 : Word) <<< bitIndex)),
      (List.length_modify ..).trans s.1.length_w⟩, remainder.sub divisor)
  else (s.1, remainder)

/-- The words above the lowest are zero. -/
def Words256.fitsWord (x : Words256) : Bool := (x.w.drop 1).all (· == 0)

def u256Divmod (dividend divisor : U256) : Except String (U256 × U256) :=
  if divisor.isZero then .error "P0078"
  else if dividend.fitsWord && divisor.fitsWord then
    .ok (⟨[dividend.w.getD 0 0 / divisor.w.getD 0 0, 0, 0, 0], rfl⟩,
      ⟨[dividend.w.getD 0 0 % divisor.w.getD 0 0, 0, 0, 0], rfl⟩)
  else .ok (LongDivision.loop (u256DivmodStep dividend divisor) 256 (u256Zero, u256Zero))

section Families

variable {α : Type}

/-- A signed division: the magnitudes are divided, and the sign is put back. -/
def signedDiv (isNeg : α → Bool) (neg : α → α) (divmod : α → α → Except String (α × α))
    (left right : α) : Except String α := do
  let magLeft := if isNeg left then neg left else left
  let magRight := if isNeg right then neg right else right
  let (quotient, _) ← divmod magLeft magRight
  return if isNeg left != isNeg right then neg quotient else quotient

def u128Div (left right : U128) : Except String U128 := (u128Divmod left right).map Prod.fst

def u256Div (left right : U256) : Except String U256 := (u256Divmod left right).map Prod.fst

def i128Div : I128 → I128 → Except String I128 := signedDiv i128IsNeg i128Neg u128Divmod

def i256Div : I256 → I256 → Except String I256 := signedDiv i256IsNeg i256Neg u256Divmod

/-! ### Checked arithmetic -/

/-- A signed sum: the operands have one sign and the result has the other. -/
def signedAddChecked (isNeg : α → Bool) (add : α → α → α) (code : String) (left right : α) :
    Except String α :=
  let result := add left right
  if (!isNeg left && !isNeg right && isNeg result) || (isNeg left && isNeg right && !isNeg result)
  then .error code else .ok result

def signedSubChecked (isNeg : α → Bool) (sub : α → α → α) (code : String) (left right : α) :
    Except String α :=
  let result := sub left right
  if (!isNeg left && isNeg right && isNeg result) || (isNeg left && !isNeg right && !isNeg result)
  then .error code else .ok result

def unsignedAddChecked (lt : α → α → Bool) (add : α → α → α) (code : String) (left right : α) :
    Except String α :=
  let result := add left right
  if lt result left then .error code else .ok result

def unsignedSubChecked (lt : α → α → Bool) (sub : α → α → α) (code : String) (left right : α) :
    Except String α :=
  if lt left right then .error code else .ok (sub left right)

/-- A product: what is no product with zero is divided back. -/
def mulChecked [DecidableEq α] (isZero : α → Bool) (mul : α → α → α)
    (div : α → α → Except String α) (code : String) (left right : α) : Except String α :=
  let result := mul left right
  if !isZero left && !isZero right then do
    let check ← div result right
    if check ≠ left then .error code else .ok result
  else .ok result

end Families

def i128AddChecked : I128 → I128 → Except String I128 := signedAddChecked i128IsNeg i128Add "P0021"

def i128SubChecked : I128 → I128 → Except String I128 := signedSubChecked i128IsNeg i128Sub "P0022"

def i128MulChecked : I128 → I128 → Except String I128 :=
  mulChecked Words128.isZero i128Mul i128Div "P0023"

def u128AddChecked : U128 → U128 → Except String U128 := unsignedAddChecked u128Lt u128Add "P0024"

def u128SubChecked : U128 → U128 → Except String U128 := unsignedSubChecked u128Lt u128Sub "P0025"

def u128MulChecked : U128 → U128 → Except String U128 :=
  mulChecked Words128.isZero u128Mul u128Div "P0026"

def i256AddChecked : I256 → I256 → Except String I256 := signedAddChecked i256IsNeg i256Add "P0027"

def i256SubChecked : I256 → I256 → Except String I256 := signedSubChecked i256IsNeg i256Sub "P0028"

def i256MulChecked : I256 → I256 → Except String I256 :=
  mulChecked Words256.isZero i256Mul i256Div "P0029"

def u256AddChecked : U256 → U256 → Except String U256 := unsignedAddChecked u256Lt u256Add "P0030"

def u256SubChecked : U256 → U256 → Except String U256 := unsignedSubChecked u256Lt u256Sub "P0031"

def u256MulChecked : U256 → U256 → Except String U256 :=
  mulChecked Words256.isZero u256Mul u256Div "P0032"

end Grayscale
