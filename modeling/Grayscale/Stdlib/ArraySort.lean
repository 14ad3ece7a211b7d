import Grayscale.Runtime.WideInteger
import Grayscale.Stdlib.Sort
import Grayscale.Util.Bytes

/-!
# The sort of arrays by their element kind

`gray_arrays_sort` and `gray_arrays_is_sorted`, of an array that no `for_each` walks, and the
comparison of elements. `qsort` is a parameter.
-/

namespace Grayscale

/-! ### Comparisons -/

def grayOrder {α : Type} [LT α] [DecidableLT α] (a b : α) : ℤ :=
  (if b < a then 1 else 0) - (if a < b then 1 else 0)

def graySortLessThan {α : Type} [LT α] [DecidableLT α] (left right : α) : Bool :=
  decide (left < right)

/-- `memcmp` of as many bytes as both texts have: its sign. -/
def memcmp : Text → Text → ℤ
  | x :: left, y :: right => if x = y then memcmp left right else if x < y then -1 else 1
  | _, _ => 0

def graySortStringLessThan (left right : Text) : Bool :=
  let minimumLength := if left.length < right.length then left.length else right.length
  let comparison := memcmp (left.take minimumLength) (right.take minimumLength)
  if comparison ≠ 0 then decide (comparison < 0) else decide (left.length < right.length)

def stringOrder (left right : Text) : ℤ :=
  let shorter := if left.length < right.length then left.length else right.length
  let bytes := if 0 < shorter then memcmp (left.take shorter) (right.take shorter) else 0
  if bytes ≠ 0 then (if bytes < 0 then -1 else 1) else grayOrder left.length right.length

/-- A floating point number by its bits: the sign and the magnitude as an integer, which has the
order of the numbers and is 0 for both zeros. `none` for a NaN. -/
def floatValue (width infinity bits : ℕ) : Option ℤ :=
  let magnitude := bits % 2 ^ (width - 1)
  if infinity < magnitude then none
  else if 2 ^ (width - 1) ≤ bits then some (-magnitude) else some magnitude

/-- `<` of floating point numbers. -/
def floatLt : Option ℤ → Option ℤ → Bool
  | some left, some right => decide (left < right)
  | _, _ => false

/-- `==` of floating point numbers. -/
def floatEq : Option ℤ → Option ℤ → Bool
  | some left, some right => decide (left = right)
  | _, _ => false

def graySortFloatLessThan (left right : Option ℤ) : Bool :=
  floatLt left right || floatEq left left && !floatEq right right

def floatOrder (left right : Option ℤ) : ℤ :=
  if !floatEq left left then if !floatEq right right then 0 else 1
  else if !floatEq right right then -1
  else (if floatLt right left then 1 else 0) - (if floatLt left right then 1 else 0)

/-- The value of a `float`. -/
def float32Value (bits : UInt32) : Option ℤ := floatValue 32 0x7F800000 bits.toNat

/-- The value of a `double`. -/
def float64Value (bits : UInt64) : Option ℤ := floatValue 64 0x7FF0000000000000 bits.toNat

def i128Lt (left right : I128) : Bool :=
  left.high.slt right.high || (left.high == right.high && left.low < right.low)

def i256Lt (left right : I256) : Bool :=
  if left.w.getD 3 0 ≠ right.w.getD 3 0 then (left.w.getD 3 0).slt (right.w.getD 3 0)
  else if left.w.getD 2 0 ≠ right.w.getD 2 0 then left.w.getD 2 0 < right.w.getD 2 0
  else if left.w.getD 1 0 ≠ right.w.getD 1 0 then left.w.getD 1 0 < right.w.getD 1 0
  else left.w.getD 0 0 < right.w.getD 0 0

/-- The comparison of wide integers by their `lt`. -/
def wideOrder {α : Type} (lt : α → α → Bool) (left right : α) : ℤ :=
  if lt left right then -1 else if lt right left then 1 else 0

/-! ### Elements -/

/-- `GrayElemKind`. -/
inductive ElemKind
  | other
  | i8 | i16 | i32 | i64 | i128 | i256
  | u8 | u16 | u32 | u64 | u128 | u256
  | f32 | f64
  | bool | char
  | string | array | map
  deriving DecidableEq

/-- What an element holds; a `float` and a `double` by their bits, and what is compared as bytes by
these. -/
def ElemKind.Value : ElemKind → Type
  | .i8 => Int8
  | .i16 => Int16
  | .i32 | .char => Int32
  | .i64 => Int64
  | .i128 => I128
  | .i256 => I256
  | .u8 | .bool => UInt8
  | .u16 => UInt16
  | .u32 | .f32 => UInt32
  | .u64 | .f64 => UInt64
  | .u128 => U128
  | .u256 => U256
  | .string => Text
  | .other | .array | .map => Text

def grayElemCompare : (kind : ElemKind) → kind.Value → kind.Value → ℤ
  | .i8 => fun (left right : Int8) => grayOrder left right
  | .i16 => fun (left right : Int16) => grayOrder left right
  | .i32 | .char => fun (left right : Int32) => grayOrder left right
  | .i64 => fun (left right : Int64) => grayOrder left right
  | .u8 | .bool => fun (left right : UInt8) => grayOrder left right
  | .u16 => fun (left right : UInt16) => grayOrder left right
  | .u32 => fun (left right : UInt32) => grayOrder left right
  | .u64 => fun (left right : UInt64) => grayOrder left right
  | .f32 => fun left right => floatOrder (float32Value left) (float32Value right)
  | .f64 => fun left right => floatOrder (float64Value left) (float64Value right)
  | .i128 => wideOrder i128Lt
  | .u128 => wideOrder u128Lt
  | .i256 => wideOrder i256Lt
  | .u256 => wideOrder u256Lt
  | .string => stringOrder
  | .other | .array | .map => memcmp

/-- `GrayArray`, without its capacity. -/
structure GrayArray (kind : ElemKind) where
  data : ℕ → kind.Value
  len : ℕ

def GrayArray.toList {kind : ElemKind} (array : GrayArray kind) : List kind.Value :=
  (List.range array.len).map array.data

/-! ### Sort -/

/-- The type of `qsort`, on a memory of `count` elements. -/
def Qsort : Type 1 := ∀ α : Type, (α → α → ℤ) → ℕ → (ℕ → α) → ℕ → α

/-- The kinds that `gray_arrays_sort` has a case for. -/
def ElemKind.isSortable : ElemKind → Bool
  | .other | .array | .map => false
  | _ => true

/-- The cases of `gray_arrays_sort`. -/
def sortElements (qsort : Qsort) :
    (kind : ElemKind) → ℕ → (ℕ → kind.Value) → Option (ℕ → kind.Value)
  | .i8 => graySort fun (left right : Int8) => graySortLessThan left right
  | .i16 => graySort fun (left right : Int16) => graySortLessThan left right
  | .i32 | .char => graySort fun (left right : Int32) => graySortLessThan left right
  | .i64 => graySort fun (left right : Int64) => graySortLessThan left right
  | .u8 | .bool => graySort fun (left right : UInt8) => graySortLessThan left right
  | .u16 => graySort fun (left right : UInt16) => graySortLessThan left right
  | .u32 => graySort fun (left right : UInt32) => graySortLessThan left right
  | .u64 => graySort fun (left right : UInt64) => graySortLessThan left right
  | .f32 => graySort fun left right =>
    graySortFloatLessThan (float32Value left) (float32Value right)
  | .f64 => graySort fun left right =>
    graySortFloatLessThan (float64Value left) (float64Value right)
  | .string => graySort graySortStringLessThan
  | .i128 => fun count values => some (qsort I128 (grayElemCompare .i128) count values)
  | .u128 => fun count values => some (qsort U128 (grayElemCompare .u128) count values)
  | .i256 => fun count values => some (qsort I256 (grayElemCompare .i256) count values)
  | .u256 => fun count values => some (qsort U256 (grayElemCompare .u256) count values)
  | .other | .array | .map => fun _ values => some values

/-- The loop that reverses the elements from `front_index` to `back_index`. -/
def reverseLoop {α : Type} (count frontIndex backIndex : ℕ) (values : ℕ → α) : Option (ℕ → α) :=
  if frontIndex < backIndex then
    (swapAt count values frontIndex backIndex).bind
      (reverseLoop count (frontIndex + 1) (backIndex - 1))
  else some values
termination_by backIndex - frontIndex

def grayArraysSort (qsort : Qsort) {kind : ElemKind} (array : GrayArray kind) (descending : Bool) :
    Option (GrayArray kind) :=
  if array.len ≤ 1 then some array
  else if kind.isSortable then do
    let data ← sortElements qsort kind array.len array.data
    let data ← if descending then reverseLoop array.len 0 (array.len - 1) data else some data
    some { array with data }
  else some array

/-- The loop of `gray_arrays_is_sorted`. -/
def isSortedLoop {kind : ElemKind} (array : GrayArray kind) (i : ℕ) : Bool :=
  if i < array.len then
    if 0 < grayElemCompare kind (array.data (i - 1)) (array.data i) then false
    else isSortedLoop array (i + 1)
  else true
termination_by array.len - i

def grayArraysIsSorted {kind : ElemKind} (array : GrayArray kind) : Bool := isSortedLoop array 1

/-! ### What is documented of `qsort` -/

/-- The comparison is one of an order, as `qsort` asks for. -/
structure IsComparison {α : Type} (compare : α → α → ℤ) : Prop where
  pos_iff : ∀ x y, 0 < compare x y ↔ compare y x < 0
  order : IsStrictWeakOrder α fun x y => compare x y < 0

/-- `qsort` sorts in place by the comparison. -/
def IsQsort (qsort : Qsort) : Prop :=
  ∀ (α : Type) (compare : α → α → ℤ), IsComparison compare → ∀ (count : ℕ) (values : ℕ → α),
    Rearranged 0 count values (qsort α compare count values) ∧ ∀ p q, p < q → q < count →
        compare (qsort α compare count values p) (qsort α compare count values q) ≤ 0

end Grayscale
