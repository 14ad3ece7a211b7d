import Grayscale.Runtime.WideCasts

/-!
# Shifts of wide integers

The shifts that the runtime makes for its four wide types, on the words of a value, and the
narrowing of a wide integer that is the amount of a shift.
-/

namespace Grayscale

/-! ### The loops -/

/-- One round of `gray_bigint_shift_left_words`: the word `i` of the result. -/
def shiftLeftWord (words : List Word) (wordShift bitShift i : ℕ) : Word :=
  let word := if wordShift ≤ i then words.getD (i - wordShift) 0 <<< bitShift else 0
  if bitShift ≠ 0 ∧ wordShift + 1 ≤ i then
    word ||| (words.getD (i - wordShift - 1) 0 >>> (64 - bitShift))
  else word

/-- The rounds of `gray_bigint_shift_left_words` for the words below a number, from the highest
down; each round overwrites its word. -/
def shiftLeftRounds (wordShift bitShift : ℕ) : ℕ → List Word → List Word
  | 0, words => words
  | i + 1, words =>
    shiftLeftRounds wordShift bitShift i (words.set i (shiftLeftWord words wordShift bitShift i))

def grayBigintShiftLeftWords (words : List Word) (amount : ℕ) : List Word :=
  shiftLeftRounds (amount / 64) (amount % 64) words.length words

/-- One round of `gray_bigint_shift_right_words`: the word `i` of the result. -/
def shiftRightWord (words : List Word) (fill : Word) (wordShift bitShift i : ℕ) : Word :=
  let source := i + wordShift
  let word := if source < words.length then words.getD source 0 >>> bitShift else fill
  if bitShift ≠ 0 then
    word ||| ((if source + 1 < words.length then words.getD (source + 1) 0 else fill) <<<
      (64 - bitShift))
  else word

/-- A number of rounds of `gray_bigint_shift_right_words`, from the word `i` up. -/
def shiftRightRounds (fill : Word) (wordShift bitShift : ℕ) : ℕ → ℕ → List Word → List Word
  | 0, _, words => words
  | rounds + 1, i, words =>
    shiftRightRounds fill wordShift bitShift rounds (i + 1)
      (words.set i (shiftRightWord words fill wordShift bitShift i))

/-- The word that `gray_bigint_shift_right_words` shifts in. -/
def fillWord (words : List Word) (arithmetic : Bool) : Word :=
  if arithmetic && (words.getD (words.length - 1) 0).msb then ~~~0 else 0

def grayBigintShiftRightWords (words : List Word) (amount : ℕ) (arithmetic : Bool) : List Word :=
  shiftRightRounds (fillWord words arithmetic) (amount / 64) (amount % 64) words.length 0 words

/-! ### The functions of a type -/

/-- What `GRAY_BIGINT_BITWISE` is given: a type with its words, which it copies out and back. -/
structure BigintType (α : Type) where
  words : α → List Word
  ofWords : List Word → α
  signed : Bool

section Families

variable {α : Type}

/-- `T_shl`. -/
def BigintType.shl (type : BigintType α) (value : α) (amount : ℤ) : Except String α :=
  let words := type.words value
  if amount < 0 ∨ (words.length * 64 : ℕ) ≤ amount then .error "P0092"
  else .ok (type.ofWords (grayBigintShiftLeftWords words amount.toNat))

/-- `T_shr`. -/
def BigintType.shr (type : BigintType α) (value : α) (amount : ℤ) : Except String α :=
  let words := type.words value
  if amount < 0 ∨ (words.length * 64 : ℕ) ≤ amount then .error "P0092"
  else .ok (type.ofWords (grayBigintShiftRightWords words amount.toNat type.signed))

/-- `T_shift_amount`. -/
def BigintType.shiftAmount (type : BigintType α) (value : α) : Except String ℤ :=
  let words := type.words value
  let lowest := words.getD 0 0
  let extension : Word := if type.signed && lowest.msb then ~~~0 else 0
  let fits := (type.signed || !lowest.msb) && (words.drop 1).all (· == extension)
  if fits then .ok lowest.toInt else .error "P0092"

end Families

def Words128.ofWords (words : List Word) : Words128 := ⟨words.getD 0 0, words.getD 1 0⟩

def Words256.ofWords (words : List Word) : Words256 where
  w := (List.range 4).map fun i => words.getD i 0
  length_w := rfl

/-- `GRAY_BIGINT_BITWISE(gray_i128, 2, true)`. -/
def grayI128 : BigintType I128 := ⟨Words128.words, Words128.ofWords, true⟩

/-- `GRAY_BIGINT_BITWISE(gray_u128, 2, false)`. -/
def grayU128 : BigintType U128 := ⟨Words128.words, Words128.ofWords, false⟩

/-- `GRAY_BIGINT_BITWISE(gray_i256, 4, true)`. -/
def grayI256 : BigintType I256 := ⟨Words256.w, Words256.ofWords, true⟩

/-- `GRAY_BIGINT_BITWISE(gray_u256, 4, false)`. -/
def grayU256 : BigintType U256 := ⟨Words256.w, Words256.ofWords, false⟩

def i128Shl : I128 → ℤ → Except String I128 := grayI128.shl

def i128Shr : I128 → ℤ → Except String I128 := grayI128.shr

def i128ShiftAmount : I128 → Except String ℤ := grayI128.shiftAmount

def u128Shl : U128 → ℤ → Except String U128 := grayU128.shl

def u128Shr : U128 → ℤ → Except String U128 := grayU128.shr

def u128ShiftAmount : U128 → Except String ℤ := grayU128.shiftAmount

def i256Shl : I256 → ℤ → Except String I256 := grayI256.shl

def i256Shr : I256 → ℤ → Except String I256 := grayI256.shr

def i256ShiftAmount : I256 → Except String ℤ := grayI256.shiftAmount

def u256Shl : U256 → ℤ → Except String U256 := grayU256.shl

def u256Shr : U256 → ℤ → Except String U256 := grayU256.shr

def u256ShiftAmount : U256 → Except String ℤ := grayU256.shiftAmount

/-! ### The rounds -/

variable (words : List Word)

theorem getD_set (i j : ℕ) (word : Word) :
    (words.set i word).getD j 0 = if i = j ∧ j < words.length then word else words.getD j 0 := by
  simp only [List.getD_eq_getElem?_getD, List.getElem?_set]
  split_ifs with h h' h'' <;> simp_all

theorem shiftLeftWord_set {i j : ℕ} (h : j < i) (words : List Word) (word : Word)
    (wordShift bitShift : ℕ) : shiftLeftWord (words.set i word) wordShift bitShift j =
      shiftLeftWord words wordShift bitShift j := by
  have hget : ∀ k ≤ j, (words.set i word).getD k 0 = words.getD k 0 := fun k hk => by
    rw [getD_set, if_neg (by omega)]
  unfold shiftLeftWord
  rw [hget _ (by omega), hget _ (by omega)]

theorem length_shiftLeftRounds (wordShift bitShift n : ℕ) (words : List Word) :
    (shiftLeftRounds wordShift bitShift n words).length = words.length := by
  induction n generalizing words with
  | zero => rfl
  | succ i ih => rw [shiftLeftRounds, ih, List.length_set]

theorem getD_shiftLeftRounds (wordShift bitShift : ℕ) {n : ℕ} {words : List Word}
    (hn : n ≤ words.length) (j : ℕ) : (shiftLeftRounds wordShift bitShift n words).getD j 0 =
      if j < n then shiftLeftWord words wordShift bitShift j else words.getD j 0 := by
  induction n generalizing words with
  | zero => rw [shiftLeftRounds, if_neg (Nat.not_lt_zero j)]
  | succ i ih =>
    rw [shiftLeftRounds, ih (by rw [List.length_set]; omega)]
    rcases Nat.lt_trichotomy j i with h | rfl | h
    · rw [if_pos h, if_pos (by omega), shiftLeftWord_set h]
    · rw [if_neg (Nat.lt_irrefl j), if_pos (Nat.lt_succ_self j), getD_set, if_pos ⟨rfl, hn⟩]
    · rw [if_neg (by omega), if_neg (by omega), getD_set, if_neg (by omega)]

theorem shiftRightWord_set {i j : ℕ} (h : i < j) (words : List Word) (word fill : Word)
    (wordShift bitShift : ℕ) : shiftRightWord (words.set i word) fill wordShift bitShift j =
      shiftRightWord words fill wordShift bitShift j := by
  have hget : ∀ k, j ≤ k → (words.set i word).getD k 0 = words.getD k 0 := fun k hk => by
    rw [getD_set, if_neg (by omega)]
  simp only [shiftRightWord, List.length_set, hget (j + wordShift) (by omega),
    hget (j + wordShift + 1) (by omega)]

theorem length_shiftRightRounds (fill : Word) (wordShift bitShift rounds i : ℕ)
    (words : List Word) :
    (shiftRightRounds fill wordShift bitShift rounds i words).length = words.length := by
  induction rounds generalizing i words with
  | zero => rfl
  | succ rounds ih => rw [shiftRightRounds, ih, List.length_set]

theorem getD_shiftRightRounds (fill : Word) (wordShift bitShift : ℕ) {rounds i : ℕ}
    {words : List Word} (h : i + rounds ≤ words.length) (j : ℕ) :
    (shiftRightRounds fill wordShift bitShift rounds i words).getD j 0 =
      if i ≤ j ∧ j < i + rounds then shiftRightWord words fill wordShift bitShift j
      else words.getD j 0 := by
  induction rounds generalizing i words with
  | zero => rw [shiftRightRounds, if_neg (by omega)]
  | succ rounds ih =>
    rw [shiftRightRounds, ih (by rw [List.length_set]; omega)]
    rcases Nat.lt_trichotomy i j with hj | rfl | hj
    · rw [shiftRightWord_set hj, getD_set, if_neg (show ¬ (i = j ∧ j < words.length) by omega)]
      refine if_congr ?_ rfl rfl
      omega
    · rw [if_neg (by omega), if_pos (by omega), getD_set, if_pos ⟨rfl, by omega⟩]
    · rw [if_neg (by omega), if_neg (by omega), getD_set, if_neg (by omega)]

/-! ### The bits -/

theorem testBit_word (i : ℕ) {k : ℕ} (hk : k < 64) :
    (words.getD i 0).getLsbD k = (wordsNumber words).testBit (64 * i + k) := by
  rw [testBit_wordsNumber, BitVec.testBit_toNat, Nat.mul_add_div (by decide), Nat.mul_add_mod,
    Nat.div_eq_of_lt hk, Nat.mod_eq_of_lt hk, Nat.add_zero]

theorem testBit_shiftLeftWord (wordShift i : ℕ) {bitShift k : ℕ}
    (hbit : bitShift < 64) (hk : k < 64) : (shiftLeftWord words wordShift bitShift i).getLsbD k =
      (decide (64 * wordShift + bitShift ≤ 64 * i + k) &&
        (wordsNumber words).testBit (64 * i + k - (64 * wordShift + bitShift))) := by
  unfold shiftLeftWord
  rcases Nat.lt_or_ge i wordShift with hi | hi
  · rw [if_neg (by omega), if_neg (by omega), decide_eq_false (by omega), Bool.false_and]
    exact BitVec.getLsbD_zero
  obtain ⟨m, rfl⟩ := Nat.exists_eq_add_of_le' hi
  have hword : (words.getD m 0 <<< bitShift).getLsbD k =
      (decide (64 * wordShift + bitShift ≤ 64 * (m + wordShift) + k) && !decide (k < bitShift) &&
        (wordsNumber words).testBit (64 * (m + wordShift) + k - (64 * wordShift + bitShift))) := by
    rw [BitVec.getLsbD_shiftLeft, decide_eq_true hk, Bool.true_and]
    by_cases hlow : k < bitShift
    · rw [decide_eq_true hlow, Bool.not_true, Bool.false_and, Bool.and_false, Bool.false_and]
    · rw [decide_eq_false hlow, decide_eq_true (by omega), testBit_word _ _ (by omega)]
      congr 2
      omega
  rw [if_pos hi, Nat.add_sub_cancel]
  split_ifs with hcarry
  · -- the low bits come from the word below
    rw [BitVec.getLsbD_or, hword, BitVec.getLsbD_ushiftRight]
    by_cases hlow : k < bitShift
    · rw [decide_eq_true hlow, decide_eq_true (by omega), testBit_word _ _ (by omega)]
      simp only [Bool.not_true, Bool.and_false, Bool.false_and, Bool.false_or, Bool.true_and]
      congr 1
      omega
    · rw [decide_eq_false hlow, BitVec.getLsbD_of_ge _ _ (by omega), Bool.or_false, Bool.not_false,
        Bool.and_true]
  · rw [hword]
    by_cases hlow : k < bitShift
    · rw [decide_eq_true hlow, decide_eq_false (by omega)]
      rfl
    · rw [decide_eq_false hlow, Bool.not_false, Bool.and_true]

theorem getLsbD_fill (fill : Bool) (k : ℕ) (hk : k < 64) :
    (if fill then ~~~0 else 0 : Word).getLsbD k = fill := by
  cases fill with
  | false => exact BitVec.getLsbD_zero
  | true =>
    have hzero : (0 : Word).getLsbD k = false := BitVec.getLsbD_zero
    rw [if_pos rfl, BitVec.getLsbD_not, decide_eq_true hk, hzero]
    rfl

theorem getLsbD_source {word : Word} {fill : Bool}
    (hfill : ∀ k < 64, word.getLsbD k = fill) (source : ℕ) {k : ℕ} (hk : k < 64) :
    (if source < words.length then words.getD source 0 else word).getLsbD k =
      if 64 * source + k < 64 * words.length then (wordsNumber words).testBit (64 * source + k)
      else fill := by
  by_cases h : source < words.length
  · rw [if_pos h, if_pos (by omega), testBit_word _ _ hk]
  · rw [if_neg h, if_neg (by omega), hfill k hk]

theorem testBit_shiftRightWord {word : Word} {fill : Bool}
    (hfill : ∀ k < 64, word.getLsbD k = fill) (wordShift i : ℕ) {bitShift k : ℕ}
    (hbit : bitShift < 64) (hk : k < 64) :
    (shiftRightWord words word wordShift bitShift i).getLsbD k =
      if 64 * i + k + (64 * wordShift + bitShift) < 64 * words.length then
        (wordsNumber words).testBit (64 * i + k + (64 * wordShift + bitShift))
      else fill := by
  rw [show 64 * i + k + (64 * wordShift + bitShift) = 64 * (i + wordShift) + (k + bitShift) by
    omega]
  simp only [shiftRightWord]
  rcases Nat.lt_or_ge (k + bitShift) 64 with hlow | hhigh
  · have hfst : (if i + wordShift < words.length then words.getD (i + wordShift) 0 >>> bitShift
        else word).getLsbD k =
        if 64 * (i + wordShift) + (k + bitShift) < 64 * words.length then
          (wordsNumber words).testBit (64 * (i + wordShift) + (k + bitShift)) else fill := by
      rw [← getLsbD_source words hfill _ hlow]
      by_cases h : i + wordShift < words.length
      · rw [if_pos h, if_pos h, BitVec.getLsbD_ushiftRight, Nat.add_comm bitShift k]
      · rw [if_neg h, if_neg h, hfill k hk, hfill _ hlow]
    by_cases hshf : bitShift = 0
    · rw [if_neg (not_not_intro hshf), hfst]
    · rw [if_pos hshf, BitVec.getLsbD_or, hfst, BitVec.getLsbD_shiftLeft,
        decide_eq_true (show k < 64 - bitShift by omega), Bool.not_true, Bool.and_false,
        Bool.false_and, Bool.or_false]
  · -- the bit comes from the word above
    have hfst : (if i + wordShift < words.length then words.getD (i + wordShift) 0 >>> bitShift
        else word).getLsbD k = (decide (¬ i + wordShift < words.length) && fill) := by
      by_cases h : i + wordShift < words.length
      · rw [if_pos h, BitVec.getLsbD_ushiftRight, BitVec.getLsbD_of_ge _ _ (by omega),
          decide_eq_false (not_not_intro h), Bool.false_and]
      · rw [if_neg h, hfill k hk, decide_eq_true h, Bool.true_and]
    rw [if_pos (by omega), BitVec.getLsbD_or, hfst, BitVec.getLsbD_shiftLeft, decide_eq_true hk,
      decide_eq_false (show ¬ k < 64 - bitShift by omega), Bool.not_false, Bool.true_and,
      Bool.true_and, getLsbD_source words hfill _ (by omega),
      show 64 * (i + wordShift + 1) + (k - (64 - bitShift)) =
        64 * (i + wordShift) + (k + bitShift) by omega]
    by_cases h : i + wordShift < words.length
    · rw [decide_eq_false (not_not_intro h), Bool.false_and, Bool.false_or]
    · rw [if_neg (by omega), decide_eq_true h, Bool.true_and, Bool.or_self]

theorem wordsNumber_shiftLeftWords (amount : ℕ) :
    wordsNumber (grayBigintShiftLeftWords words amount) =
      wordsNumber words * 2 ^ amount % 2 ^ (64 * words.length) := by
  refine Nat.eq_of_testBit_eq fun n => ?_
  have hamount : 64 * (amount / 64) + amount % 64 = amount := Nat.div_add_mod ..
  have hn : 64 * (n / 64) + n % 64 = n := Nat.div_add_mod ..
  have hlt : n % 64 < 64 := Nat.mod_lt _ (by decide)
  rw [Nat.testBit_mod_two_pow, Nat.testBit_mul_two_pow, testBit_wordsNumber, BitVec.testBit_toNat,
    grayBigintShiftLeftWords, getD_shiftLeftRounds _ _ le_rfl]
  split_ifs with h
  · rw [testBit_shiftLeftWord _ _ _ (Nat.mod_lt _ (by decide)) hlt, hamount, hn,
      decide_eq_true (show n < 64 * words.length by omega), Bool.true_and]
  · rw [decide_eq_false (show ¬ n < 64 * words.length by omega), Bool.false_and,
      List.getD_eq_default _ _ (Nat.not_lt.mp h)]
    exact BitVec.getLsbD_zero

theorem wordsNumber_shiftRightWords {amount : ℕ}
    (hamount : amount ≤ 64 * words.length) {arithmetic fill : Bool}
    (hfill : fillWord words arithmetic = if fill then ~~~0 else 0) :
    wordsNumber (grayBigintShiftRightWords words amount arithmetic) =
      2 ^ (64 * words.length - amount) * (if fill then 2 ^ amount - 1 else 0) +
        wordsNumber words / 2 ^ amount := by
  refine Nat.eq_of_testBit_eq fun n => ?_
  have hspl : 64 * (amount / 64) + amount % 64 = amount := Nat.div_add_mod ..
  have hn : 64 * (n / 64) + n % 64 = n := Nat.div_add_mod ..
  have hlt : n % 64 < 64 := Nat.mod_lt _ (by decide)
  have hquot : wordsNumber words / 2 ^ amount < 2 ^ (64 * words.length - amount) := by
    rw [Nat.div_lt_iff_lt_mul (Nat.two_pow_pos _), ← Nat.pow_add, Nat.sub_add_cancel hamount]
    exact wordsNumber_lt words
  rw [Nat.testBit_two_pow_mul_add _ hquot, Nat.testBit_div_two_pow, testBit_wordsNumber,
    BitVec.testBit_toNat, grayBigintShiftRightWords, getD_shiftRightRounds _ _ _ (by omega), hfill]
  have hbits : (if fill then 2 ^ amount - 1 else 0 : ℕ).testBit (n - (64 * words.length - amount)) =
      (fill && decide (n - (64 * words.length - amount) < amount)) := by
    cases fill with
    | false => exact Nat.zero_testBit _
    | true => exact Nat.testBit_two_pow_sub_one ..
  rw [hbits]
  rcases Nat.lt_or_ge (n / 64) words.length with h | h
  · rw [if_pos (by omega), testBit_shiftRightWord _ (getLsbD_fill fill) _ _
      (Nat.mod_lt _ (by decide)) hlt, hspl, hn]
    rcases Nat.lt_or_ge (n + amount) (64 * words.length) with hlow | hhigh
    · rw [if_pos hlow, if_pos (by omega)]
    · rw [if_neg (by omega), if_neg (by omega), decide_eq_true (by omega), Bool.and_true]
  · rw [if_neg (by omega), if_neg (by omega), List.getD_eq_default _ _ h,
      decide_eq_false (by omega), Bool.and_false]
    exact BitVec.getLsbD_zero

/-! ### The shifts of a type -/

/-- The words of a type hold its integers. -/
structure BigintType.Sound {α : Type} (type : BigintType α) (T : ScalarType) (toNat : α → ℕ)
    (value : α → ℤ) : Prop where
  length_words : ∀ x, 64 * (type.words x).length = T.bits
  wordsNumber_words : ∀ x, wordsNumber (type.words x) = toNat x
  toNat_ofWords : ∀ l : List Word, 64 * l.length = T.bits → toNat (type.ofWords l) = wordsNumber l
  value_eq : ∀ x, value x = convert T (toNat x)
  toNat_eq : ∀ x, (toNat x : ℤ) = value x + if decide (value x < 0) then 2 ^ T.bits else 0
  fillWord_words : ∀ x, fillWord (type.words x) type.signed =
    if decide (value x < 0) then ~~~0 else 0

/-- A left shift is a product up to the size of the type, and a right shift is the floor of a
quotient. -/
structure ArithmeticShifts {α : Type} (T : ScalarType) (value : α → ℤ)
    (shl shr : α → ℤ → Except String α) : Prop where
  shl : ∀ v (a : ℕ), a < T.bits → ∃ y, shl v a = .ok y ∧ value y = convert T (value v * 2 ^ a)
  shr : ∀ v (a : ℕ), a < T.bits → ∃ y, shr v a = .ok y ∧ value y = value v / 2 ^ a

theorem contains_ediv_two_pow {T : IntFormat} {v : ℤ} (hv : T.Contains v) (a : ℕ) :
    T.Contains (v / 2 ^ a) := by
  have hone : (1 : ℤ) ≤ 2 ^ a := one_le_pow₀ (by decide)
  have hzero := T.contains_zero
  rcases lt_or_ge v 0 with hneg | hnonneg
  · have hlow : v ≤ v / 2 ^ a := (Int.le_ediv_iff_mul_le (by omega)).mpr (by nlinarith)
    have hhigh : v / 2 ^ a < 0 := Int.ediv_neg_of_neg_of_pos hneg (by omega)
    exact ⟨hv.1.trans hlow, hhigh.trans hzero.2⟩
  · have hlow : 0 ≤ v / 2 ^ a := Int.ediv_nonneg hnonneg (by omega)
    have hhigh : v / 2 ^ a ≤ v := Int.ediv_le_self _ hnonneg
    exact ⟨hzero.1.trans hlow, hhigh.trans_lt hv.2⟩

theorem fill_add_ediv (v : ℤ) {bits a : ℕ} (ha : a ≤ bits) :
    2 ^ (bits - a) * (2 ^ a - 1) + (v + 2 ^ bits) / 2 ^ a = v / 2 ^ a + (2 : ℤ) ^ bits := by
  have hspl : (2 : ℤ) ^ bits = 2 ^ (bits - a) * 2 ^ a := by
    rw [← pow_add, Nat.sub_add_cancel ha]
  have hpos : (2 : ℤ) ^ a ≠ 0 := pow_ne_zero _ (by decide)
  rw [hspl, Int.add_mul_ediv_right _ _ hpos]
  ring

section Shifts

variable {α : Type} {type : BigintType α} {T : ScalarType} {toNat : α → ℕ} {value : α → ℤ}
  (h : type.Sound T toNat value)

include h

theorem BigintType.Sound.width (x : α) : (((type.words x).length * 64 : ℕ) : ℤ) = T.bits := by
  rw [Nat.mul_comm, h.length_words]

theorem BigintType.Sound.arithmeticShifts : ArithmeticShifts T value type.shl type.shr where
  shl v a hlt := by
    have hsize : T.format.size = ((2 ^ T.bits : ℕ) : ℤ) := by
      rw [Nat.cast_pow]
      rfl
    refine ⟨_, if_neg (by rw [h.width]; omega), ?_⟩
    have hlen : 64 * (grayBigintShiftLeftWords (type.words v) a).length = T.bits := by
      rw [grayBigintShiftLeftWords, length_shiftLeftRounds, h.length_words]
    rw [Int.toNat_natCast, h.value_eq, h.value_eq, h.toNat_ofWords _ hlen,
      wordsNumber_shiftLeftWords, h.length_words, h.wordsNumber_words]
    refine convert_congr ?_
    calc ((toNat v * 2 ^ a % 2 ^ T.bits : ℕ) : ℤ)
        ≡ ((toNat v * 2 ^ a : ℕ) : ℤ) [ZMOD T.format.size] := by
          rw [hsize]
          exact Int.natCast_modEq_iff.mpr (Nat.mod_modEq _ _)
      _ = (toNat v : ℤ) * 2 ^ a := by push_cast; rfl
      _ ≡ convert T (toNat v) * 2 ^ a [ZMOD T.format.size] :=
          (convert_modEq T (toNat v)).symm.mul_right _
  shr v a hlt := by
    refine ⟨_, if_neg (by rw [h.width]; omega), ?_⟩
    have hlen : 64 * (grayBigintShiftRightWords (type.words v) a type.signed).length = T.bits := by
      rw [grayBigintShiftRightWords, length_shiftRightRounds, h.length_words]
    have hle : a ≤ 64 * (type.words v).length := by
      rw [h.length_words]
      exact hlt.le
    have hin : T.format.Contains (value v / 2 ^ a) := by
      refine contains_ediv_two_pow ?_ a
      rw [h.value_eq]
      exact contains_convert T _
    rw [← convert_of_contains hin, Int.toNat_natCast, h.value_eq, h.toNat_ofWords _ hlen,
      wordsNumber_shiftRightWords _ hle (h.fillWord_words v), h.length_words, h.wordsNumber_words]
    refine convert_congr ?_
    have hval := h.toNat_eq v
    by_cases hneg : value v < 0
    · rw [decide_eq_true hneg, if_pos rfl] at hval
      rw [decide_eq_true hneg, if_pos rfl]
      push_cast [Nat.one_le_two_pow]
      rw [hval, fill_add_ediv _ hlt.le]
      exact Int.add_modEq_right
    · rw [decide_eq_false hneg, if_neg Bool.false_ne_true, add_zero] at hval
      rw [decide_eq_false hneg, if_neg Bool.false_ne_true]
      push_cast
      rw [mul_zero, zero_add, hval]

theorem BigintType.Sound.shl_out (v : α) {a : ℤ} (ha : ¬ (0 ≤ a ∧ a < T.bits)) :
    type.shl v a = .error "P0092" := if_pos (by rw [h.width]; omega)

theorem BigintType.Sound.shr_out (v : α) {a : ℤ} (ha : ¬ (0 ≤ a ∧ a < T.bits)) :
    type.shr v a = .error "P0092" := if_pos (by rw [h.width]; omega)

end Shifts

/-! ### The types -/

theorem toNat_ofWords_128 (l : List Word) (h : 64 * l.length = 128) :
    (Words128.ofWords l).toNat = wordsNumber l := by
  obtain ⟨a, b, rfl⟩ := List.length_eq_two.mp (show l.length = 2 by omega)
  rw [wordsNumber_cons, wordsNumber_cons]
  rfl

theorem toNat_ofWords_256 (l : List Word) (h : 64 * l.length = 256) :
    (Words256.ofWords l).toNat = wordsNumber l := by
  obtain ⟨a, b, c, d, rfl⟩ := (⟨l, by omega⟩ : Words256).exists_words
  rfl

theorem wordsNumber_words_128 (x : Words128) : wordsNumber x.words = x.toNat := by
  rw [Words128.words, wordsNumber_cons, wordsNumber_cons]
  rfl

theorem grayI128_sound : grayI128.Sound .i128 Words128.toNat (Words128.value .i128) where
  length_words _ := rfl
  wordsNumber_words := wordsNumber_words_128
  toNat_ofWords := toNat_ofWords_128
  value_eq _ := rfl
  toNat_eq x := by
    rw [← (source_i128 x).1, value_i128]
    change _ = _ + if x.high.msb then (2 : ℤ) ^ 128 else 0
    split_ifs <;> omega
  fillWord_words x := by
    rw [← (source_i128 x).1]
    rfl

theorem grayU128_sound : grayU128.Sound .u128 Words128.toNat (Words128.value .u128) where
  length_words _ := rfl
  wordsNumber_words := wordsNumber_words_128
  toNat_ofWords := toNat_ofWords_128
  value_eq _ := rfl
  toNat_eq x := by
    rw [← (source_u128 x).1, value_u128]
    exact (add_zero _).symm
  fillWord_words x := by
    rw [← (source_u128 x).1]
    rfl

theorem grayI256_sound : grayI256.Sound .i256 Words256.toNat (Words256.value .i256) where
  length_words x := congrArg (64 * ·) x.length_w
  wordsNumber_words _ := rfl
  toNat_ofWords := toNat_ofWords_256
  value_eq _ := rfl
  toNat_eq x := by
    have hlast : x.w.getLastD 0 = x.w.getD 3 0 := by
      obtain ⟨a, b, c, d, h⟩ := x.exists_words
      rw [h]
      rfl
    rw [← (source_i256 x).1, value_i256, hlast]
    change _ = _ + if (x.w.getD 3 0).msb then (2 : ℤ) ^ 256 else 0
    split_ifs <;> omega
  fillWord_words x := by
    obtain ⟨a, b, c, d, h⟩ := x.exists_words
    rw [← (source_i256 x).1, fillWord]
    change (if true && (x.w.getD (x.w.length - 1) 0).msb then _ else _) = _
    rw [h]
    rfl

theorem grayU256_sound : grayU256.Sound .u256 Words256.toNat (Words256.value .u256) where
  length_words x := congrArg (64 * ·) x.length_w
  wordsNumber_words _ := rfl
  toNat_ofWords := toNat_ofWords_256
  value_eq _ := rfl
  toNat_eq x := by
    rw [← (source_u256 x).1, value_u256]
    exact (add_zero _).symm
  fillWord_words x := by
    rw [← (source_u256 x).1]
    rfl

/-! ### The amounts -/

/-- An amount narrows to the integer it is, where `int64_t` has it. -/
def NarrowsAmount {α : Type} (value : α → ℤ) (shiftAmount : α → Except String ℤ) : Prop :=
  ∀ x, shiftAmount x =
    if ScalarType.i64.format.Contains (value x) then .ok (value x) else .error "P0092"

theorem amount_of_narrows {test P : Prop} [Decidable test] [Decidable P] {fits : Bool} {a : Word}
    {v : ℤ} {code : String} (htest : fits = true ↔ ¬ test)
    (h : ((if test then .error code else .ok a : Except String Word).map BitVec.toInt) =
      if P then .ok v else .error code) :
    (if fits then .ok a.toInt else .error "P0092" : Except String ℤ) =
      if P then .ok v else .error "P0092" := by
  by_cases ht : test
  · rw [if_pos ht] at h
    rw [if_neg fun hf => htest.mp hf ht]
    split_ifs at h ⊢ with hp
    · cases h
    · rfl
  · rw [if_neg ht] at h
    rw [if_pos (htest.mpr ht)]
    split_ifs at h ⊢ with hp
    · exact congrArg _ (Except.ok.inj h)
    · cases h

theorem not_msb_iff (a : Word) : (!a.msb) = true ↔ ¬ int64Max < a := by
  rw [BitVec.msb_eq_decide, Bool.not_eq_true', decide_eq_false_iff_not, BitVec.lt_def]
  change _ ↔ ¬ 2 ^ 63 - 1 < a.toNat
  change ¬ 2 ^ 63 ≤ a.toNat ↔ _
  omega

theorem narrowsAmount_i128 : NarrowsAmount (Words128.value .i128) i128ShiftAmount := by
  intro x
  refine amount_of_narrows ?_ (i128_narrows.1 x)
  have hext : (if grayI128.signed && x.low.msb then ~~~0 else 0 : Word) = signExtension x.low :=
    signWord_eq x.low
  change ((true || _) && ([x.high].all (· == (if grayI128.signed && x.low.msb then ~~~0 else 0)))) =
    true ↔ _
  rw [hext]
  simp

theorem narrowsAmount_u128 : NarrowsAmount (Words128.value .u128) u128ShiftAmount := by
  intro x
  refine amount_of_narrows ?_ (u128_narrows.1 x)
  change ((false || !x.low.msb) && ([x.high].all (· == 0))) = true ↔ _
  rw [Bool.false_or, Bool.and_eq_true, not_msb_iff]
  simp [and_comm]

theorem narrowsAmount_i256 : NarrowsAmount (Words256.value .i256) i256ShiftAmount := by
  intro x
  refine amount_of_narrows ?_ (i256_narrows.1 x)
  obtain ⟨a, b, c, d, h⟩ := x.exists_words
  have hext : (if grayI256.signed && a.msb then ~~~0 else 0 : Word) = signExtension a :=
    signWord_eq a
  change ((true || _) && ((x.w.drop 1).all (· ==
    (if grayI256.signed && (x.w.getD 0 0).msb then ~~~0 else 0)))) = true ↔ _
  rw [h]
  change ((true || _) && ([b, c, d].all (· == (if grayI256.signed && a.msb then ~~~0 else 0)))) =
    true ↔ ¬ (b ≠ signExtension a ∨ c ≠ signExtension a ∨ d ≠ signExtension a)
  rw [hext]
  simp

theorem narrowsAmount_u256 : NarrowsAmount (Words256.value .u256) u256ShiftAmount := by
  intro x
  refine amount_of_narrows ?_ (u256_narrows.1 x)
  obtain ⟨a, b, c, d, h⟩ := x.exists_words
  change ((false || !(x.w.getD 0 0).msb) && ((x.w.drop 1).all (· == 0))) = true ↔ _
  rw [h]
  change ((false || !a.msb) && ([b, c, d].all (· == 0))) = true ↔
    ¬ (b ≠ 0 ∨ c ≠ 0 ∨ d ≠ 0 ∨ int64Max < a)
  rw [Bool.false_or, Bool.and_eq_true, not_msb_iff]
  simp [and_comm, and_assoc]

/-- The narrowing of an amount and a shift of a width: the shift is by the integer that the amount
is, and the two panic exactly where that is outside the width. -/
def ChecksAmount {α β : Type} (value : α → ℤ) (shiftAmount : α → Except String ℤ) (width : ℕ)
    (shift : β → ℤ → Except String β) : Prop :=
  ∀ x v, ((shiftAmount x >>= shift v) = .error "P0092" ↔ ¬ (0 ≤ value x ∧ value x < width)) ∧
    (0 ≤ value x ∧ value x < width → (shiftAmount x >>= shift v) = shift v (value x))

theorem ArithmeticShifts.isOk {α : Type} {T : ScalarType} {value : α → ℤ}
    {shl shr : α → ℤ → Except String α} (h : ArithmeticShifts T value shl shr) (v : α) {a : ℤ}
    (ha : 0 ≤ a ∧ a < T.bits) : shl v a ≠ .error "P0092" ∧ shr v a ≠ .error "P0092" := by
  obtain ⟨n, rfl⟩ := Int.eq_ofNat_of_zero_le ha.1
  obtain ⟨y, hy, -⟩ := h.shl v n (by omega)
  obtain ⟨z, hz, -⟩ := h.shr v n (by omega)
  rw [hy, hz]
  exact ⟨fun heq => (by cases heq), fun heq => (by cases heq)⟩

theorem NarrowsAmount.checksAmount {α β : Type} {value : α → ℤ} {shiftAmount : α → Except String ℤ}
    (h : NarrowsAmount value shiftAmount) {width : ℕ} (hwid : width ≤ 256)
    {shift : β → ℤ → Except String β}
    (hin : ∀ v a, 0 ≤ a ∧ a < (width : ℤ) → shift v a ≠ .error "P0092")
    (hout : ∀ v a, ¬ (0 ≤ a ∧ a < (width : ℤ)) → shift v a = .error "P0092") :
    ChecksAmount value shiftAmount width shift := by
  intro x v
  rw [h x]
  by_cases hrng : 0 ≤ value x ∧ value x < width
  · have hcontains : ScalarType.i64.format.Contains (value x) := contains_i64_iff.mpr (by omega)
    rw [if_pos hcontains]
    exact ⟨⟨fun heq => (hin v _ hrng heq).elim, fun hnot => (hnot hrng).elim⟩, fun _ => rfl⟩
  · refine ⟨⟨fun _ => hrng, fun _ => ?_⟩, fun hyes => (hrng hyes).elim⟩
    split_ifs
    · exact hout v _ hrng
    · rfl

structure ChecksAmounts {α : Type} (value : α → ℤ) (shiftAmount : α → Except String ℤ) : Prop where
  i128Shl : ChecksAmount value shiftAmount 128 i128Shl
  i128Shr : ChecksAmount value shiftAmount 128 i128Shr
  u128Shl : ChecksAmount value shiftAmount 128 u128Shl
  u128Shr : ChecksAmount value shiftAmount 128 u128Shr
  i256Shl : ChecksAmount value shiftAmount 256 i256Shl
  i256Shr : ChecksAmount value shiftAmount 256 i256Shr
  u256Shl : ChecksAmount value shiftAmount 256 u256Shl
  u256Shr : ChecksAmount value shiftAmount 256 u256Shr

theorem BigintType.Sound.checksAmount {α β : Type} {type : BigintType β} {T : ScalarType}
    {toNat : β → ℕ} {valueT : β → ℤ} (hT : type.Sound T toNat valueT) (hbits : T.bits ≤ 256)
    {value : α → ℤ} {shiftAmount : α → Except String ℤ} (h : NarrowsAmount value shiftAmount) :
    ChecksAmount value shiftAmount T.bits type.shl ∧
      ChecksAmount value shiftAmount T.bits type.shr :=
  ⟨h.checksAmount hbits (fun v _ ha => (hT.arithmeticShifts.isOk v ha).1)
      fun v _ ha => hT.shl_out v ha,
    h.checksAmount hbits (fun v _ ha => (hT.arithmeticShifts.isOk v ha).2)
      fun v _ ha => hT.shr_out v ha⟩

theorem NarrowsAmount.checksAmounts {α : Type} {value : α → ℤ} {shiftAmount : α → Except String ℤ}
    (h : NarrowsAmount value shiftAmount) : ChecksAmounts value shiftAmount where
  i128Shl := (grayI128_sound.checksAmount (by decide) h).1
  i128Shr := (grayI128_sound.checksAmount (by decide) h).2
  u128Shl := (grayU128_sound.checksAmount (by decide) h).1
  u128Shr := (grayU128_sound.checksAmount (by decide) h).2
  i256Shl := (grayI256_sound.checksAmount (by decide) h).1
  i256Shr := (grayI256_sound.checksAmount (by decide) h).2
  u256Shl := (grayU256_sound.checksAmount (by decide) h).1
  u256Shr := (grayU256_sound.checksAmount (by decide) h).2

/-- The shifts of the wide types multiply and divide by a power of two, and an amount panics exactly
where it is outside the width. -/
theorem wide_shifts : (ArithmeticShifts .i128 (Words128.value .i128) i128Shl i128Shr ∧
      ArithmeticShifts .u128 (Words128.value .u128) u128Shl u128Shr ∧
      ArithmeticShifts .i256 (Words256.value .i256) i256Shl i256Shr ∧
      ArithmeticShifts .u256 (Words256.value .u256) u256Shl u256Shr) ∧
    ChecksAmounts (Words128.value .i128) i128ShiftAmount ∧
    ChecksAmounts (Words128.value .u128) u128ShiftAmount ∧
    ChecksAmounts (Words256.value .i256) i256ShiftAmount ∧
    ChecksAmounts (Words256.value .u256) u256ShiftAmount :=
  ⟨⟨grayI128_sound.arithmeticShifts, grayU128_sound.arithmeticShifts,
      grayI256_sound.arithmeticShifts, grayU256_sound.arithmeticShifts⟩,
    narrowsAmount_i128.checksAmounts, narrowsAmount_u128.checksAmounts,
    narrowsAmount_i256.checksAmounts, narrowsAmount_u256.checksAmounts⟩

example : (i128Shr ⟨-5, -1⟩ 1).map (Words128.value .i128) = .ok (-3) := by decide +kernel

end Grayscale
