import Grayscale.Runtime.WideIntegerWords
import Grayscale.Stdlib.ArraySort
import Grayscale.Stdlib.SortLaws
import Mathlib.Data.Int.ConditionallyCompleteOrder

/-!
# Arrays are sorted

`gray_arrays_sort` leaves every array of a sortable kind in order, ascending or descending, and
`gray_arrays_is_sorted` agrees.
-/

namespace Grayscale

open List

/-! ### Orders by a key -/

section Key

variable {α κ : Type} [LinearOrder κ] {less : α → α → Bool} {compare : α → α → ℤ} (key : α → κ)

theorem isStrictWeakOrder_of_key {r : α → α → Prop} (h : ∀ x y, r x y ↔ key x < key y) :
    IsStrictWeakOrder α r where
  irrefl x hx := lt_irrefl _ ((h x x).mp hx)
  trans x y z hxy hyz := (h x z).mpr (lt_trans ((h x y).mp hxy) ((h y z).mp hyz))
  incomp_trans x y z hxy hyz := by
    simp only [h, not_lt] at hxy hyz ⊢
    exact ⟨le_trans hyz.1 hxy.1, le_trans hxy.2 hyz.2⟩

def IsInOrder (compare : α → α → ℤ) (count : ℕ) (v : ℕ → α) : Prop :=
  ∀ p q, p < q → q < count → ¬ 0 < compare (v p) (v q)

theorem graySort_isInOrder (hless : ∀ x y, less x y = true ↔ key x < key y)
    (hcompare : ∀ x y, 0 < compare x y ↔ key y < key x) (count : ℕ) (v : ℕ → α) :
    ∃ v', graySort less count v = some v' ∧ Rearranged 0 count v v' ∧ IsInOrder compare count v' := by
  have hord : IsStrictWeakOrder α fun x y => less x y = true := isStrictWeakOrder_of_key key hless
  obtain ⟨v', hrun, hperm, hsort⟩ := graySort_spec less count v
  refine ⟨v', hrun, hperm, fun p q hpq hq hpos => ?_⟩
  have hback := (hless _ _).mpr ((hcompare _ _).mp hpos)
  exact Bool.eq_false_iff.mp (hsort p q (Nat.zero_le p) hpq hq) hback

theorem wideOrder_pos {lt : α → α → Bool} (hlt : ∀ x y, lt x y = true ↔ key x < key y) (x y : α) :
    0 < wideOrder lt x y ↔ key y < key x := by
  rw [wideOrder, ← hlt y x]
  by_cases hxy : lt x y = true
  · have hyx : ¬ lt y x = true := fun h => lt_asymm ((hlt x y).mp hxy) ((hlt y x).mp h)
    simp [hxy, hyx]
  · by_cases hyx : lt y x = true <;> simp [hxy, hyx]

theorem wideOrder_neg {lt : α → α → Bool} (hlt : ∀ x y, lt x y = true ↔ key x < key y) (x y : α) :
    wideOrder lt x y < 0 ↔ key x < key y := by
  rw [wideOrder, ← hlt x y]
  by_cases hxy : lt x y = true
  · simp [hxy]
  · by_cases hyx : lt y x = true <;> simp [hxy, hyx]

theorem qsort_isInOrder {qsort : Qsort} (hqsort : IsQsort qsort) {lt : α → α → Bool}
    (hlt : ∀ x y, lt x y = true ↔ key x < key y) (count : ℕ) (v : ℕ → α) :
    ∃ v', some (qsort α (wideOrder lt) count v) = some v' ∧ Rearranged 0 count v v' ∧
      IsInOrder (wideOrder lt) count v' := by
  have hcomparison : IsComparison (wideOrder lt) := {
    pos_iff := fun x y => (wideOrder_pos key hlt x y).trans (wideOrder_neg key hlt y x).symm
    order := isStrictWeakOrder_of_key key (wideOrder_neg key hlt) }
  obtain ⟨hperm, hsort⟩ := hqsort α (wideOrder lt) hcomparison count v
  exact ⟨_, rfl, hperm, fun p q hpq hq => not_lt.mpr (hsort p q hpq hq)⟩

end Key

section Scalar

variable {α κ : Type} [LT α] [DecidableLT α] [LinearOrder κ] (key : α → κ)
  (hkey : ∀ x y : α, x < y ↔ key x < key y)

include hkey

theorem grayOrder_pos (x y : α) : 0 < grayOrder x y ↔ key y < key x := by
  rw [grayOrder, ← hkey]
  by_cases hyx : y < x
  · have hxy : ¬ x < y := fun h => lt_asymm ((hkey x y).mp h) ((hkey y x).mp hyx)
    simp [hyx, hxy]
  · by_cases hxy : x < y <;> simp [hyx, hxy]

theorem graySort_scalar (count : ℕ) (v : ℕ → α) :
    ∃ v', graySort (fun left right => graySortLessThan left right) count v = some v' ∧
      Rearranged 0 count v v' ∧ IsInOrder (fun left right => grayOrder left right) count v' :=
  graySort_isInOrder key (fun x y => decide_eq_true_iff.trans (hkey x y)) (grayOrder_pos key hkey)
    count v

end Scalar

/-! ### Strings -/

/-- The bytes of a text as numbers, to compare them one by one. -/
def textKey (t : Text) : List ℕ := t.map UInt8.toNat

variable (left right : Text)

theorem memcmp_take :
    memcmp (left.take (min left.length right.length)) (right.take (min left.length right.length)) =
      memcmp left right := by
  induction left generalizing right with
  | nil => simp [memcmp]
  | cons x left ih =>
    cases right with
    | nil => simp [memcmp]
    | cons y right =>
      simp only [length_cons, Nat.succ_min_succ, Nat.succ_eq_add_one, take_succ_cons, memcmp, ih]

theorem memcmp_neg : memcmp right left = -memcmp left right := by
  induction left generalizing right with
  | nil => cases right <;> rfl
  | cons x left ih =>
    cases right with
    | nil => rfl
    | cons y right =>
      simp only [memcmp]
      by_cases hxy : x = y
      · rw [if_pos hxy, if_pos hxy.symm, ih]
      · have hne : x.toNat ≠ y.toNat := fun h => hxy (UInt8.toNat_inj.mp h)
        rw [if_neg hxy, if_neg (Ne.symm hxy)]
        simp only [UInt8.lt_iff_toNat_lt]
        by_cases hlt : x.toNat < y.toNat
        · rw [if_pos hlt, if_neg (by omega), Int.neg_neg]
        · rw [if_neg hlt, if_pos (by omega)]

theorem textKey_lt_iff : textKey left < textKey right ↔
    memcmp left right < 0 ∨ memcmp left right = 0 ∧ left.length < right.length := by
  induction left generalizing right with
  | nil => cases right <;> simp [textKey, memcmp]
  | cons x left ih =>
    cases right with
    | nil => simp [textKey, memcmp]
    | cons y right =>
      have hih := ih right
      simp only [textKey] at hih
      simp only [textKey, map_cons, cons_lt_cons_iff, memcmp, hih, length_cons,
        UInt8.toNat_inj, UInt8.lt_iff_toNat_lt]
      by_cases hxy : x = y
      · simp [hxy]
      · by_cases hlt : x.toNat < y.toNat <;> simp [hxy, hlt]

theorem graySortStringLessThan_iff :
    graySortStringLessThan left right = true ↔ textKey left < textKey right := by
  have hmin : (if left.length < right.length then left.length else right.length) =
      min left.length right.length := by split <;> omega
  simp only [graySortStringLessThan, hmin, memcmp_take, textKey_lt_iff]
  split <;> simp <;> omega

theorem stringOrder_pos : 0 < stringOrder left right ↔ textKey right < textKey left := by
  have hmin : (if left.length < right.length then left.length else right.length) =
      min left.length right.length := by split <;> omega
  have hsho : (if 0 < min left.length right.length then memcmp left right else 0) =
      memcmp left right := by
    split
    · rfl
    · cases left <;> cases right <;> simp_all [memcmp]
  simp only [stringOrder, hmin, memcmp_take, hsho, textKey_lt_iff, memcmp_neg left right]
  have hlen := grayOrder_pos id (fun _ _ => Iff.rfl) left.length right.length
  simp only [id] at hlen
  split
  · split <;> omega
  · omega

/-! ### Floating point numbers -/

/-- A NaN is above all others. -/
def floatKey : Option ℤ → WithTop ℤ
  | none => ⊤
  | some x => x

theorem graySortFloatLessThan_iff (left right : Option ℤ) :
    graySortFloatLessThan left right = true ↔ floatKey left < floatKey right := by
  cases left <;> cases right <;> simp [graySortFloatLessThan, floatLt, floatEq, floatKey]

theorem floatOrder_pos (left right : Option ℤ) :
    0 < floatOrder left right ↔ floatKey right < floatKey left := by
  cases left with
  | none => cases right <;> simp [floatOrder, floatEq, floatKey]
  | some x =>
    cases right with
    | none => simp [floatOrder, floatEq, floatKey]
    | some y =>
      have hxy := grayOrder_pos id (fun _ _ => Iff.rfl) x y
      simpa [floatOrder, floatEq, floatLt, floatKey, grayOrder] using hxy

/-! ### Wide integers -/

/-- The words as a signed number. -/
def signedKey128 (x : I128) : ℤ := 2 ^ 64 * x.high.toInt + x.low.toNat

theorem i128Lt_iff (x y : I128) : i128Lt x y = true ↔ signedKey128 x < signedKey128 y := by
  have hx := x.low.isLt
  have hy := y.low.isLt
  have heq : x.high = y.high ↔ x.high.toInt = y.high.toInt := BitVec.toInt_inj.symm
  simp only [i128Lt, signedKey128, Bool.or_eq_true, Bool.and_eq_true, BitVec.slt, decide_eq_true_eq,
    beq_iff_eq, BitVec.lt_def, heq]
  omega

/-- The words as a signed number. -/
def signedKey256 (x : I256) : ℤ := 2 ^ 192 * (x.w.getD 3 0).toInt + 2 ^ 128 * (x.w.getD 2 0).toNat +
    2 ^ 64 * (x.w.getD 1 0).toNat + (x.w.getD 0 0).toNat

theorem i256Lt_iff (x y : I256) : i256Lt x y = true ↔ signedKey256 x < signedKey256 y := by
  have hlt := fun (z : I256) (k : ℕ) => (z.w.getD k 0).isLt
  have hx₀ := hlt x 0
  have hx₁ := hlt x 1
  have hx₂ := hlt x 2
  have hy₀ := hlt y 0
  have hy₁ := hlt y 1
  have hy₂ := hlt y 2
  have heq : ∀ a b : Word, a = b ↔ a.toNat = b.toNat := fun a b => BitVec.toNat_inj.symm
  have heq₃ : x.w.getD 3 0 = y.w.getD 3 0 ↔ (x.w.getD 3 0).toInt = (y.w.getD 3 0).toInt :=
    BitVec.toInt_inj.symm
  simp only [i256Lt, signedKey256, ne_eq, heq₃, heq (x.w.getD 2 0), heq (x.w.getD 1 0)]
  split_ifs <;> simp only [BitVec.slt, BitVec.lt_def, decide_eq_true_eq] <;> omega

/-! ### The kinds -/

theorem sortElements_spec {qsort : Qsort} (hqsort : IsQsort qsort) (kind : ElemKind)
    (hkind : kind.isSortable = true) (count : ℕ) (v : ℕ → kind.Value) :
    ∃ v', sortElements qsort kind count v = some v' ∧ Rearranged 0 count v v' ∧
      IsInOrder (grayElemCompare kind) count v' := by
  cases kind with
  | other | array | map => cases hkind
  | i8 => exact graySort_scalar Int8.toInt (fun _ _ => Int8.lt_iff_toInt_lt) count v
  | i16 => exact graySort_scalar Int16.toInt (fun _ _ => Int16.lt_iff_toInt_lt) count v
  | i32 | char => exact graySort_scalar Int32.toInt (fun _ _ => Int32.lt_iff_toInt_lt) count v
  | i64 => exact graySort_scalar Int64.toInt (fun _ _ => Int64.lt_iff_toInt_lt) count v
  | u8 | bool => exact graySort_scalar UInt8.toNat (fun _ _ => UInt8.lt_iff_toNat_lt) count v
  | u16 => exact graySort_scalar UInt16.toNat (fun _ _ => UInt16.lt_iff_toNat_lt) count v
  | u32 => exact graySort_scalar UInt32.toNat (fun _ _ => UInt32.lt_iff_toNat_lt) count v
  | u64 => exact graySort_scalar UInt64.toNat (fun _ _ => UInt64.lt_iff_toNat_lt) count v
  | f32 =>
    exact graySort_isInOrder (fun x => floatKey (float32Value x))
      (fun _ _ => graySortFloatLessThan_iff _ _) (fun _ _ => floatOrder_pos _ _) count v
  | f64 =>
    exact graySort_isInOrder (fun x => floatKey (float64Value x))
      (fun _ _ => graySortFloatLessThan_iff _ _) (fun _ _ => floatOrder_pos _ _) count v
  | string => exact graySort_isInOrder textKey graySortStringLessThan_iff stringOrder_pos count v
  | i128 => exact qsort_isInOrder signedKey128 hqsort i128Lt_iff count v
  | u128 => exact qsort_isInOrder Words128.toNat hqsort u128Lt_iff count v
  | i256 => exact qsort_isInOrder signedKey256 hqsort i256Lt_iff count v
  | u256 => exact qsort_isInOrder Words256.toNat hqsort u256Lt_iff count v

/-! ### Arrays -/

variable {α : Type}

theorem reverseLoop_spec {count : ℕ} (front : ℕ) {back : ℕ} (hback : back < count)
    (v : ℕ → α) : ∃ v', reverseLoop count front back v = some v' ∧
      ∀ i, v' i = if front ≤ i ∧ i ≤ back then v (front + back - i) else v i := by
  induction hn : back - front using Nat.strongRecOn generalizing front back v with
  | ind n ih =>
    rw [reverseLoop]
    by_cases hlt : front < back
    · obtain ⟨v', hrun, hv'⟩ := ih (back - 1 - (front + 1)) (by omega) (front + 1)
        (show back - 1 < count by omega) (v ∘ Equiv.swap front back) rfl
      refine ⟨v', ?_, fun i => ?_⟩
      · rw [if_pos hlt, swapAt_eq (by omega) hback, Option.bind_some, hrun]
      · rw [hv', Function.comp_apply, Function.comp_apply]
        rcases Nat.lt_trichotomy i front with hi | rfl | hi
        · rw [if_neg (by omega), if_neg (by omega), Equiv.swap_apply_of_ne_of_ne (by omega)
            (by omega)]
        · rw [if_neg (by omega), if_pos (by omega), Equiv.swap_apply_left, Nat.add_sub_cancel_left]
        · rcases Nat.lt_trichotomy i back with hib | rfl | hib
          · rw [if_pos (by omega), if_pos (by omega), Equiv.swap_apply_of_ne_of_ne (by omega)
              (by omega)]
            congr 1
            omega
          · rw [if_neg (by omega), if_pos (by omega), Equiv.swap_apply_right, Nat.add_sub_cancel]
          · rw [if_neg (by omega), if_neg (by omega), Equiv.swap_apply_of_ne_of_ne (by omega)
              (by omega)]
    · refine ⟨v, if_neg hlt, fun i => ?_⟩
      split
      · congr 1
        omega
      · rfl

theorem isSortedLoop_of_isInOrder {kind : ElemKind} {array : GrayArray kind}
    (h : IsInOrder (grayElemCompare kind) array.len array.data) {i : ℕ} (hi : 1 ≤ i) :
    isSortedLoop array i = true := by
  fun_induction isSortedLoop array i with
  | case1 i hlen hpos => exact absurd hpos (h (i - 1) i (by omega) hlen)
  | case2 i hlen hpos ih => exact ih (by omega)
  | case3 i hlen => rfl

theorem map_reversed {n : ℕ} {v v' : ℕ → α}
    (h : ∀ i, v' i = if 0 ≤ i ∧ i ≤ n - 1 then v (0 + (n - 1) - i) else v i) :
    (List.range n).map v' = ((List.range n).map v).reverse := by
  refine ext_getElem (by simp) fun i hi _ => ?_
  simp only [length_map, length_range] at hi
  rw [getElem_reverse]
  simp only [getElem_map, getElem_range, length_map, length_range]
  rw [h, if_pos (by omega), Nat.zero_add]

theorem isInOrder_of_le {compare : α → α → ℤ} {count : ℕ} (h : count ≤ 1) (v : ℕ → α) :
    IsInOrder compare count v := fun p q hpq hq => by omega

theorem grayArraysSort_spec {qsort : Qsort} (hqsort : IsQsort qsort) {kind : ElemKind}
    (hkind : kind.isSortable = true) (array : GrayArray kind) :
    ∃ sorted, grayArraysSort qsort array false = some sorted ∧ sorted.len = array.len ∧
      Rearranged 0 array.len array.data sorted.data ∧
      IsInOrder (grayElemCompare kind) sorted.len sorted.data ∧
      ∃ reversed, grayArraysSort qsort array true = some reversed ∧
        reversed.toList = sorted.toList.reverse := by
  by_cases hlen : array.len ≤ 1
  · refine ⟨array, if_pos hlen, rfl, .refl _ _ _, isInOrder_of_le hlen _, array, if_pos hlen, ?_⟩
    have hsho : array.toList.length ≤ 1 := by simpa [GrayArray.toList] using hlen
    match array.toList, hsho with
    | [], _ => rfl
    | [x], _ => rfl
  · obtain ⟨data, hsort, hperm, hord⟩ := sortElements_spec hqsort kind hkind array.len array.data
    obtain ⟨reversed, hreverse, hmirror⟩ :=
      reverseLoop_spec 0 (show array.len - 1 < array.len by omega) data
    refine ⟨{ array with data }, ?_, rfl, hperm, hord, { array with data := reversed }, ?_,
      map_reversed hmirror⟩
    · simp only [grayArraysSort, if_neg hlen, hkind, if_true, hsort, Option.bind_eq_bind,
        Option.bind_some, Bool.false_eq_true, if_false]
    · simp only [grayArraysSort, if_neg hlen, hkind, if_true, hsort, hreverse, Option.bind_eq_bind,
        Option.bind_some]

/-- The introsort of every element type is correct, and so is the sort of arrays: it ends, stays in
the memory, and leaves the elements in order, or in the opposite order. -/
theorem introsort_correct (qsort : Qsort) (hqsort : IsQsort qsort) :
    (∀ (α : Type) (less : α → α → Bool), IsStrictWeakOrder α (fun x y => less x y = true) →
      ∀ (count : ℕ) (values : ℕ → α), ∃ values', graySort less count values = some values' ∧
        ((List.range count).map values').Perm ((List.range count).map values) ∧
        ∀ i, i + 1 < count → less (values' (i + 1)) (values' i) = false) ∧
      ∀ kind : ElemKind, kind.isSortable = true → ∀ array : GrayArray kind, ∃ sorted reversed,
        grayArraysSort qsort array false = some sorted ∧ sorted.toList.Perm array.toList ∧
        IsInOrder (grayElemCompare kind) sorted.len sorted.data ∧
        grayArraysIsSorted sorted = true ∧ grayArraysSort qsort array true = some reversed ∧
        reversed.toList = sorted.toList.reverse := by
  constructor
  · intro α less hless count values
    obtain ⟨values', hrun, hperm, hsort⟩ := graySort_spec less count values
    exact ⟨values', hrun, hperm.perm, fun i hi =>
      hsort i (i + 1) (Nat.zero_le i) (Nat.lt_succ_self i) hi⟩
  · intro kind hkind array
    obtain ⟨sorted, hrun, hlen, hperm, hord, reversed, hreverse, hmirror⟩ :=
      grayArraysSort_spec hqsort hkind array
    refine ⟨sorted, reversed, hrun, ?_, hord, isSortedLoop_of_isInOrder hord (Nat.le_refl 1),
      hreverse, hmirror⟩
    rw [GrayArray.toList, GrayArray.toList, hlen]
    exact hperm.perm

/-- An insertion sort in the place of `qsort`. -/
def qsortByInsertion : Qsort := fun _ compare count values =>
  (graySortInsertion (fun x y => decide (compare x y < 0)) count 0 (count - 1) values).getD values

theorem isQsort_qsortByInsertion : IsQsort qsortByInsertion := by
  intro α compare hcompare count values
  rcases Nat.eq_zero_or_pos count with rfl | hpos
  · have hnone : qsortByInsertion α compare 0 values = values := by
      rw [qsortByInsertion, graySortInsertion, insertionLoop, if_neg (by decide)]
      rfl
    rw [hnone]
    exact ⟨.refl _ _ _, fun p q _ hq => absurd hq (Nat.not_lt_zero q)⟩
  · have hord : IsStrictWeakOrder α fun x y => decide (compare x y < 0) = true := by
      simpa only [decide_eq_true_eq] using hcompare.order
    obtain ⟨values', hrun, hperm, hsort⟩ :=
      graySortInsertion_spec (fun x y => decide (compare x y < 0)) (Nat.zero_le (count - 1))
        (show count - 1 < count by omega) values
    have hvals : qsortByInsertion α compare count values = values' := by
      rw [qsortByInsertion, hrun, Option.getD_some]
    rw [Nat.sub_add_cancel hpos] at hperm hsort
    rw [hvals]
    refine ⟨hperm, fun p q hpq hq => not_lt.mp fun hlt => ?_⟩
    exact of_decide_eq_false (hsort p q (Nat.zero_le p) hpq hq) ((hcompare.pos_iff _ _).mp hlt)

/-- Three wide integers. -/
theorem introsort_correct_three : ∃ sorted reversed, grayArraysSort qsortByInsertion
      (⟨fun i => (⟨i, 3 - i⟩ : U128), 3⟩ : GrayArray .u128) false = some sorted ∧
    sorted.toList.Perm (⟨fun i => (⟨i, 3 - i⟩ : U128), 3⟩ : GrayArray .u128).toList ∧
    IsInOrder (grayElemCompare .u128) sorted.len sorted.data ∧ grayArraysIsSorted sorted = true ∧
    grayArraysSort qsortByInsertion
      (⟨fun i => (⟨i, 3 - i⟩ : U128), 3⟩ : GrayArray .u128) true = some reversed ∧
    reversed.toList = sorted.toList.reverse :=
  (introsort_correct qsortByInsertion isQsort_qsortByInsertion).2 .u128 rfl _

end Grayscale
