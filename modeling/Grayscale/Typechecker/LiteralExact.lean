import Grayscale.Typechecker.Literal

/-!
# Exactness of literal arithmetic

The value of an integer literal expression, in the integers, and when `literal_fold` finds it. It
does so unless a bitwise operator has a result that takes more than 320 bits in two's complement,
or a shift count is itself too large: neither is reported.
-/

namespace Grayscale

open List
open Option (bind_eq_some_iff some.inj)
open Bool (false_eq_true not_eq_true or_eq_true)
open Nat (div_eq_of_lt eq_of_testBit_eq mod_eq_of_lt mod_lt pow_le_pow_right size_le
  testBit_lt_two_pow)

/-! ### Exact values -/

/-- The value of a bitwise operator, on infinite two's complement. -/
def bitwiseValue (operator : TokenType) (a b : ℤ) : ℤ :=
  if operator = .bitAnd then Int.land a b
  else if operator = .bitOr then Int.lor a b
  else Int.xor a b

/-- The value of a binary operator. Division truncates toward zero, a remainder has the sign of
the dividend, and a right shift rounds toward negative infinity. -/
def infixValue (operator : TokenType) (a b : ℤ) : Option ℤ :=
  if operator = .plus then some (a + b)
  else if operator = .minus then some (a - b)
  else if operator = .asterisk then some (a * b)
  else if operator = .slash then if b = 0 then none else some (a.tdiv b)
  else if operator = .percent then if b = 0 then none else some (a.tmod b)
  else if operator = .bitAnd ∨ operator = .bitOr ∨ operator = .bitXor then
    some (bitwiseValue operator a b)
  else if operator = .bitShiftLeft then if b < 0 then none else some (a * 2 ^ b.toNat)
  else if operator = .bitShiftRight then if b < 0 then none else some (a / 2 ^ b.toNat)
  else none

def prefixValue (operator : TokenType) (a : ℤ) : Option ℤ :=
  if operator = .minus then some (-a)
  else if operator = .bitNot then some (Int.lnot a)
  else none

/-- The value of an integer literal expression. -/
def exactValue : ConstantExpression → Option ℤ
  | .label _ => none
  | .integerLiteral literal => some (decimalNumber literal.literal)
  | .prefixExpression operator right => (exactValue right).bind (prefixValue operator)
  | .infixExpression left operator right =>
    (exactValue left).bind fun a => (exactValue right).bind (infixValue operator a)
  | .other => none

/-- Whether an expression with this value stays below `2 ^ 320`. -/
def BoundedValue (value : Option ℤ) : Prop := ∀ a ∈ value, a.natAbs < 2 ^ literalBits

/-- Every literal and every intermediate value of an expression is below `2 ^ 320`. -/
def Bounded : ConstantExpression → Prop
  | .label _ => True
  | .integerLiteral literal => decimalNumber literal.literal < 2 ^ literalBits
  | .prefixExpression operator right =>
    Bounded right ∧ BoundedValue (exactValue (.prefixExpression operator right))
  | .infixExpression left operator right =>
    Bounded left ∧ Bounded right ∧ BoundedValue (exactValue (.infixExpression left operator right))
  | .other => True

/-- Whether a value takes at most 320 bits in two's complement. -/
def FitsTwos (a : ℤ) : Prop := -2 ^ (literalBits - 1) ≤ a ∧ a < 2 ^ (literalBits - 1)

/-- No bitwise operator has a result of more than 320 bits while its operands are not too large,
and no shift has a count that is too large. -/
def FoldsSafely : ConstantExpression → Prop
  | .prefixExpression _ right => FoldsSafely right
  | .infixExpression left operator right =>
    FoldsSafely left ∧ FoldsSafely right ∧
      (operator = .bitAnd ∨ operator = .bitOr ∨ operator = .bitXor → Bounded left → Bounded right →
        ∀ a ∈ exactValue (.infixExpression left operator right), FitsTwos a) ∧
      (operator = .bitShiftLeft ∨ operator = .bitShiftRight → Bounded right)
  | _ => True

/-! ### Signs -/

theorem LiteralValue.toInt_natAbs (v : LiteralValue) : v.toInt.natAbs = v.magnitude.toNat := by
  unfold toInt
  split_ifs
  · rw [Int.natAbs_neg, Int.natAbs_natCast]
  · rw [Int.natAbs_natCast]

/-- A value in which zero has no sign. -/
def LiteralValue.Normal (v : LiteralValue) : Prop := v.magnitude.toNat = 0 → v.isNegative = false

theorem normalizeSign_normal (v : LiteralValue) : (literalNormalizeSign v).Normal := by
  unfold literalNormalizeSign
  split_ifs with h
  · exact fun _ => rfl
  · rw [magnitudeIsZero_iff] at h
    exact fun hzero => absurd hzero h

@[simp] theorem normalizeSign_toInt (v : LiteralValue) :
    (literalNormalizeSign v).toInt = v.toInt := by
  unfold literalNormalizeSign
  split_ifs with h
  · rw [magnitudeIsZero_iff] at h
    unfold LiteralValue.toInt
    dsimp only
    rw [h]
    simp
  · rfl

@[simp] theorem normalizeSign_isTooLarge (v : LiteralValue) :
    (literalNormalizeSign v).isTooLarge = v.isTooLarge := by
  unfold literalNormalizeSign
  split_ifs <;> rfl

theorem LiteralValue.toInt_neg (v : LiteralValue) :
    LiteralValue.toInt { v with isNegative := !v.isNegative } = -v.toInt := by
  unfold toInt
  cases v.isNegative <;> simp

/-- What a fold is worth: a value is marked as too large if a part of the expression is, a value
that is not marked is the exact one, and zero has no sign. -/
structure FoldsTo (v : LiteralValue) (exact : Option ℤ) (bounded : Prop) : Prop where
  exact_eq : v.isTooLarge = false → exact = some v.toInt
  isTooLarge_iff : v.isTooLarge = true ↔ ¬ bounded
  normal : v.Normal

/-! ### Sums -/

theorem literalAdd_normal (left right : LiteralValue) : (literalAdd left right).Normal :=
  normalizeSign_normal _

theorem literalAdd_spec (left right : LiteralValue) :
    ((literalAdd left right).isTooLarge = true ↔ left.isTooLarge = true ∨ right.isTooLarge = true ∨
        2 ^ literalBits ≤ (left.toInt + right.toInt).natAbs) ∧
      ((literalAdd left right).isTooLarge = false →
        (literalAdd left right).toInt = left.toInt + right.toInt) := by
  obtain ⟨largeLeft, negativeLeft, m⟩ := left
  obtain ⟨largeRight, negativeRight, n⟩ := right
  have hm := m.toNat_lt
  have hn := n.toNat_lt
  have hadd := magnitudeAdd_spec m n
  unfold literalAdd
  rw [normalizeSign_isTooLarge, normalizeSign_toInt, magnitudeCompare_eq]
  dsimp only
  generalize (2 : ℕ) ^ literalBits = base at *
  by_cases hsign : negativeLeft = negativeRight
  · subst hsign
    have habs : (LiteralValue.toInt ⟨largeLeft, negativeLeft, m⟩ +
        LiteralValue.toInt ⟨largeRight, negativeLeft, n⟩).natAbs = m.toNat + n.toNat := by
      unfold LiteralValue.toInt
      cases negativeLeft
      · simp only [false_eq_true, if_false]
        omega
      · simp only [if_true]
        omega
    rw [if_pos rfl, habs]
    dsimp only
    constructor
    · simp only [or_eq_true, Bool.not_eq_true', ← not_eq_true, hadd.1, Nat.not_lt]
      tauto
    · intro h
      simp only [Bool.or_eq_false_iff, Bool.not_eq_false'] at h
      have hsum := hadd.2 h.1.1.2
      unfold LiteralValue.toInt
      rw [hsum]
      cases negativeLeft
      · simp
      · simp only [if_true]
        omega
  · rw [if_neg hsign]
    have hrgt : negativeRight = !negativeLeft := by
      cases negativeLeft <;> cases negativeRight <;> simp_all
    subst hrgt
    by_cases hle : n.toNat ≤ m.toNat
    · rw [if_pos (by split_ifs <;> omega)]
      dsimp only
      have hval : LiteralValue.toInt ⟨largeLeft, negativeLeft, magnitudeSubtract m n⟩ =
          LiteralValue.toInt ⟨largeLeft, negativeLeft, m⟩ +
            LiteralValue.toInt ⟨largeRight, !negativeLeft, n⟩ := by
        unfold LiteralValue.toInt
        rw [toNat_magnitudeSubtract hle]
        cases negativeLeft <;> simp <;> omega
      have habs : ¬ base ≤ (LiteralValue.toInt ⟨largeLeft, negativeLeft, m⟩ +
          LiteralValue.toInt ⟨largeRight, !negativeLeft, n⟩).natAbs := by
        rw [← hval, LiteralValue.toInt_natAbs, toNat_magnitudeSubtract hle]
        omega
      refine ⟨?_, fun _ => hval⟩
      simp only [or_eq_true]
      tauto
    · rw [if_neg (by split_ifs <;> omega)]
      dsimp only
      have hval : LiteralValue.toInt ⟨largeRight, !negativeLeft, magnitudeSubtract n m⟩ =
          LiteralValue.toInt ⟨largeLeft, negativeLeft, m⟩ +
            LiteralValue.toInt ⟨largeRight, !negativeLeft, n⟩ := by
        unfold LiteralValue.toInt
        rw [toNat_magnitudeSubtract (by omega)]
        cases negativeLeft <;> simp <;> omega
      have habs : ¬ base ≤ (LiteralValue.toInt ⟨largeLeft, negativeLeft, m⟩ +
          LiteralValue.toInt ⟨largeRight, !negativeLeft, n⟩).natAbs := by
        rw [← hval, LiteralValue.toInt_natAbs, toNat_magnitudeSubtract (by omega)]
        omega
      refine ⟨?_, fun _ => hval⟩
      simp only [or_eq_true]
      tauto
/-! ### Literals -/

variable (m : Magnitude)

theorem Magnitude.limb_zero_eq : m.limb 0 = m.toNat % 2 ^ 32 := by
  refine eq_of_testBit_eq fun n => ?_
  rw [Nat.testBit_mod_two_pow, m.testBit_toNat]
  by_cases hn : n < 32
  · rw [decide_eq_true hn, Bool.true_and, div_eq_of_lt hn, mod_eq_of_lt hn]
  · rw [decide_eq_false hn, Bool.false_and]
    exact testBit_lt_two_pow (Nat.lt_of_lt_of_le (m.limb_lt 0)
      (pow_le_pow_right (by decide) (Nat.le_of_not_lt hn)))

theorem literalSetU64_toNat {value : ℕ} (h : value < 2 ^ 64) :
    (literalSetU64 value).magnitude.toNat = value := by
  refine eq_of_testBit_eq fun n => ?_
  rw [literalSetU64, Magnitude.testBit_ofLimbs]
  rcases Nat.lt_or_ge n 64 with hn | hn
  · rw [decide_eq_true (Nat.lt_of_lt_of_le hn (by decide)), Bool.true_and]
    rcases Nat.lt_or_ge n 32 with hlow | hhigh
    · rw [div_eq_of_lt hlow, mod_eq_of_lt hlow, if_pos rfl]
    · rw [show n / 32 = 1 by omega, if_neg (by decide), if_pos rfl, Nat.testBit_shiftRight,
        show 32 + n % 32 = n by omega]
  · rw [if_neg (by omega), if_neg (by omega), Nat.zero_testBit, Bool.and_false]
    exact (testBit_lt_two_pow (Nat.lt_of_lt_of_le h
      (pow_le_pow_right (by decide) hn))).symm

/-- The number of a decimal text, read on from `n`. -/
def decimalNumberFrom (n : ℕ) (text : Text) : ℕ :=
  text.foldl (fun n c => if isdigit c then 10 * n + (c.toNat - 48) else n) n

theorem le_decimalNumberFrom (n : ℕ) (text : Text) : n ≤ decimalNumberFrom n text := by
  induction text generalizing n with
  | nil => exact Nat.le_refl n
  | cons c text ih =>
    refine Nat.le_trans ?_ (ih _)
    dsimp only
    split_ifs <;> omega

theorem digit_lt {c : UInt8} (h : isdigit c) : c.toNat - 48 < 10 := by
  rw [isdigit, Bool.and_eq_true, decide_eq_true_iff, decide_eq_true_iff, UInt8.le_iff_toNat_le,
    UInt8.le_iff_toNat_le] at h
  have h9 : (byte '9').toNat = 57 := by decide
  omega

theorem decimalMagnitude_spec (text : Text) (m : Magnitude) : ((decimalMagnitude text m).2 = false →
        (decimalMagnitude text m).1.toNat = decimalNumberFrom m.toNat text) ∧
      ((decimalMagnitude text m).2 = true → 2 ^ literalBits ≤ decimalNumberFrom m.toNat text) := by
  induction text generalizing m with
  | nil => exact ⟨fun _ => rfl, fun h => by cases h⟩
  | cons c text ih =>
    rw [decimalMagnitude, decimalNumberFrom, foldl_cons]
    by_cases hc : isdigit c
    swap
    · rw [if_pos (by simpa using hc), if_neg hc]
      exact ih m
    rw [if_neg (by simpa using hc), if_pos hc]
    change _ ∧ (_ → 2 ^ literalBits ≤ decimalNumberFrom (10 * m.toNat + (c.toNat - 48)) text)
    have hdig := digit_lt hc
    have hten : (Magnitude.single 10).toNat = 10 := Magnitude.toNat_single (by decide)
    have hsing : (Magnitude.single (c.toNat - 48)).toNat = c.toNat - 48 :=
      Magnitude.toNat_single (Nat.lt_trans hdig (by decide))
    have hmultiply := magnitudeMultiply_spec m (.single 10)
    rw [hten] at hmultiply
    have hle := le_decimalNumberFrom (10 * m.toNat + (c.toNat - 48)) text
    cases hprod : magnitudeMultiply m (.single 10) with
    | none =>
      refine ⟨fun h => (by cases h), fun _ => ?_⟩
      have hbig := hmultiply.2 hprod
      exact Nat.le_trans hbig (by omega)
    | some product =>
      have hval := hmultiply.1 product hprod
      have hadd := magnitudeAdd_spec product (.single (c.toNat - 48))
      rw [hsing, hval] at hadd
      dsimp only
      by_cases hfits : (magnitudeAdd product (.single (c.toNat - 48))).2 = true
      · rw [if_pos hfits]
        have hnext := ih (magnitudeAdd product (.single (c.toNat - 48))).1
        rw [hadd.2 hfits, Nat.mul_comm m.toNat 10] at hnext
        exact hnext
      · rw [if_neg hfits]
        refine ⟨fun h => (by cases h), fun _ => ?_⟩
        rw [hadd.1, Nat.not_lt] at hfits
        exact Nat.le_trans hfits (by omega)

theorem foldIntegerLiteral_foldsTo (literal : IntegerLiteral) :
    FoldsTo (foldIntegerLiteral literal) (some (decimalNumber literal.literal : ℤ))
      (decimalNumber literal.literal < 2 ^ literalBits) := by
  unfold foldIntegerLiteral
  split_ifs with hbig
  · have hspec := decimalMagnitude_spec literal.literal .zero
    rw [Magnitude.toNat_zero] at hspec
    refine ⟨fun h => ?_, ⟨fun h => Nat.not_lt.mpr (hspec.2 h), fun h => ?_⟩, fun _ => rfl⟩
    · exact congrArg (fun n : ℕ => some (n : ℤ)) (hspec.1 h).symm
    · refine Bool.not_eq_false _ |>.mp fun hread => h ?_
      have hlt := (decimalMagnitude literal.literal .zero).1.toNat_lt
      rw [hspec.1 hread] at hlt
      exact hlt
  · rw [literal.isAboveU64Maximum_iff, Nat.not_le] at hbig
    have hval : literal.value = decimalNumber literal.literal := by
      rw [literal.value_eq, mod_eq_of_lt hbig]
    refine ⟨fun _ => ?_, ⟨fun h => (by cases h), fun h => absurd ?_ h⟩, fun _ => rfl⟩
    · rw [hval, LiteralValue.toInt, literalSetU64_toNat hbig]
      rfl
    · exact Nat.lt_trans hbig (Nat.pow_lt_pow_right (by decide) (by decide))

/-! ### Two's complement -/

theorem Magnitude.toNat_complement : m.complement.toNat = 2 ^ literalBits - (m.toNat + 1) := by
  refine eq_of_testBit_eq fun n => ?_
  rw [complement, testBit_ofLimbs, Nat.testBit_two_pow_sub_succ m.toNat_lt, m.testBit_toNat,
    Nat.sub_sub, Nat.add_comm 1, Nat.testBit_two_pow_sub_succ (m.limb_lt _),
    decide_eq_true (mod_lt n (by decide)), Bool.true_and]

theorem toNat_complement_add_one {m : Magnitude} (h : m.toNat ≠ 0) :
    (magnitudeAdd m.complement (.single 1)).1.toNat = 2 ^ literalBits - m.toNat := by
  have hlt := m.toNat_lt
  have hone : (Magnitude.single 1).toNat = 1 := Magnitude.toNat_single (by decide)
  have hadd := magnitudeAdd_spec m.complement (.single 1)
  rw [hone, m.toNat_complement] at hadd
  rw [hadd.2 (hadd.1.mpr (by omega))]
  omega

theorem eq_of_int_testBit_eq {a b : ℤ} (h : ∀ i, a.testBit i = b.testBit i) : a = b := by
  have hpow : ∀ m n : ℕ, m.testBit (m + n) = false := fun m n =>
    testBit_lt_two_pow (Nat.lt_of_lt_of_le Nat.lt_two_pow_self
      (pow_le_pow_right (by decide) (Nat.le_add_right m n)))
  have hdisj : ∀ m n : ℕ, ¬ ∀ i, Int.testBit (Int.ofNat m) i = Int.testBit (Int.negSucc n) i := by
    intro m n h
    have hbit := h (m + n)
    change m.testBit (m + n) = !n.testBit (m + n) at hbit
    rw [hpow m n, Nat.add_comm, hpow n m] at hbit
    cases hbit
  cases a with
  | ofNat m =>
    cases b with
    | ofNat n => exact congrArg Int.ofNat (eq_of_testBit_eq h)
    | negSucc n => exact absurd h (hdisj m n)
  | negSucc m =>
    cases b with
    | ofNat n => exact absurd (fun i => (h i).symm) (hdisj n m)
    | negSucc n =>
      refine congrArg Int.negSucc (eq_of_testBit_eq fun i => ?_)
      have hbit := h i
      change (!m.testBit i) = !n.testBit i at hbit
      simpa using hbit

theorem int_testBit_neg {m : ℕ} (h : m ≠ 0) (i : ℕ) :
    Int.testBit (-(m : ℤ)) i = !(m - 1).testBit i := by
  obtain ⟨n, rfl⟩ := Nat.exists_eq_succ_of_ne_zero h
  rfl

variable {v : LiteralValue}

theorem testBit_literalToTwos (hv : v.Normal) {i : ℕ} (hi : i < literalBits) :
    (literalToTwos v).toNat.testBit i = v.toInt.testBit i := by
  unfold literalToTwos LiteralValue.toInt
  split_ifs with hneg
  · have hzero : v.magnitude.toNat ≠ 0 := by
      intro hzero
      rw [hv hzero] at hneg
      cases hneg
    have hlt := v.magnitude.toNat_lt
    rw [toNat_complement_add_one hzero, int_testBit_neg hzero,
      show 2 ^ literalBits - v.magnitude.toNat = 2 ^ literalBits - (v.magnitude.toNat - 1 + 1) by
        omega, Nat.testBit_two_pow_sub_succ (by omega), decide_eq_true hi, Bool.true_and]
  · rfl

theorem Magnitude.testBit_last :
    (m.limb (literalLimbs - 1)).testBit 31 = m.toNat.testBit (literalBits - 1) :=
  (m.testBit_toNat (literalBits - 1)).symm

variable (twos : Magnitude)

theorem fromTwos_normal : (literalFromTwos twos).Normal := by
  unfold literalFromTwos
  split_ifs with hlast
  · intro hzero
    have hpos : twos.toNat ≠ 0 := by
      intro h
      rw [twos.testBit_last, h, Nat.zero_testBit] at hlast
      cases hlast
    have hlt := twos.toNat_lt
    dsimp only at hzero
    rw [toNat_complement_add_one hpos] at hzero
    omega
  · exact fun _ => rfl

theorem testBit_fromTwos (i : ℕ) :
    (literalFromTwos twos).toInt.testBit i = twos.toNat.testBit (min i (literalBits - 1)) := by
  have hlt := twos.toNat_lt
  unfold literalFromTwos
  split_ifs with hlast
  · rw [twos.testBit_last] at hlast
    have hpos : twos.toNat ≠ 0 := by
      intro h
      rw [h, Nat.zero_testBit] at hlast
      cases hlast
    have hne : 2 ^ literalBits - twos.toNat ≠ 0 := by omega
    rw [LiteralValue.toInt, if_pos rfl]
    dsimp only
    rw [toNat_complement_add_one hpos, int_testBit_neg hne,
      show 2 ^ literalBits - twos.toNat - 1 = 2 ^ literalBits - (twos.toNat + 1) by omega,
      Nat.testBit_two_pow_sub_succ hlt]
    rcases Nat.lt_or_ge i literalBits with hi | hi
    · rw [decide_eq_true hi, Bool.true_and, Bool.not_not, Nat.min_eq_left (by omega)]
    · rw [decide_eq_false (by omega), Bool.false_and, Bool.not_false, Nat.min_eq_right (by omega),
        hlast]
  · rw [twos.testBit_last] at hlast
    change twos.toNat.testBit i = _
    rcases Nat.lt_or_ge i literalBits with hi | hi
    · rw [Nat.min_eq_left (by omega)]
    · rw [Nat.min_eq_right (by omega), testBit_lt_two_pow (Nat.lt_of_lt_of_le hlt
        (pow_le_pow_right (by decide) hi))]
      simpa using hlast

theorem FitsTwos.testBit {a : ℤ} (h : FitsTwos a) {i : ℕ} (hi : literalBits - 1 ≤ i) :
    a.testBit i = a.testBit (literalBits - 1) := by
  obtain ⟨hlow, hhigh⟩ := h
  have hcast : (2 : ℤ) ^ (literalBits - 1) = ((2 ^ (literalBits - 1) : ℕ) : ℤ) := by simp
  rw [hcast] at hlow hhigh
  have hbits : ∀ m : ℕ, m < 2 ^ (literalBits - 1) → ∀ i ≥ literalBits - 1, m.testBit i = false :=
    fun m hm i hi => testBit_lt_two_pow (Nat.lt_of_lt_of_le hm
      (pow_le_pow_right (by decide) hi))
  cases a with
  | ofNat m =>
    have hm : m < 2 ^ (literalBits - 1) := by
      have := Int.ofNat_lt.mp hhigh
      exact this
    change m.testBit i = m.testBit (literalBits - 1)
    rw [hbits m hm i hi, hbits m hm _ le_rfl]
  | negSucc m =>
    have hm : m < 2 ^ (literalBits - 1) := by omega
    change (!m.testBit i) = !m.testBit (literalBits - 1)
    rw [hbits m hm i hi, hbits m hm _ le_rfl]

theorem fromTwos_fits : FitsTwos (literalFromTwos twos).toInt := by
  have hlt := twos.toNat_lt
  have hcast : (2 : ℤ) ^ (literalBits - 1) = ((2 ^ (literalBits - 1) : ℕ) : ℤ) := by simp
  have hpow : 2 ^ literalBits = 2 ^ (literalBits - 1) + 2 ^ (literalBits - 1) := by
    rw [← Nat.two_mul, ← Nat.pow_succ']
    rfl
  rw [FitsTwos, hcast]
  have hlast : (twos.limb (literalLimbs - 1)).testBit 31 =
      decide (2 ^ (literalBits - 1) ≤ twos.toNat) := by
    rw [twos.testBit_last]
    rcases Nat.lt_or_ge twos.toNat (2 ^ (literalBits - 1)) with h | h
    · rw [testBit_lt_two_pow h, decide_eq_false (by omega)]
    · rw [decide_eq_true h, Nat.testBit_eq_decide_div_mod_eq]
      refine decide_eq_true ?_
      have hdiv : twos.toNat / 2 ^ (literalBits - 1) = 1 :=
        Nat.div_eq_of_lt_le (by omega) (by omega)
      rw [hdiv]
  unfold literalFromTwos
  rw [hlast]
  split_ifs with h
  · rw [decide_eq_true_iff] at h
    have hpos : twos.toNat ≠ 0 := by
      have := Nat.two_pow_pos (literalBits - 1)
      omega
    rw [LiteralValue.toInt, if_pos rfl]
    dsimp only
    rw [toNat_complement_add_one hpos]
    omega
  · rw [decide_eq_true_iff] at h
    rw [LiteralValue.toInt, if_neg Bool.false_ne_true]
    dsimp only
    omega
/-! ### Bitwise operators -/

def bitOperator (operator : TokenType) (a b : Bool) : Bool :=
  if operator = .bitAnd then a && b
  else if operator = .bitOr then a || b
  else a ^^ b

variable (operator : TokenType)

theorem testBit_bitwiseValue (a b : ℤ) (i : ℕ) :
    (bitwiseValue operator a b).testBit i = bitOperator operator (a.testBit i) (b.testBit i) := by
  unfold bitwiseValue bitOperator
  split_ifs
  · exact Int.testBit_land a b i
  · exact Int.testBit_lor a b i
  · exact Int.testBit_lxor a b i

def bitwiseTwos (operator : TokenType) (left right : LiteralValue) : Magnitude := .ofLimbs fun i =>
    limbOperator operator ((literalToTwos left).limb i) ((literalToTwos right).limb i)

variable {left right : LiteralValue}

theorem testBit_bitwiseTwos (hleft : left.Normal) (hrgt : right.Normal)
    {i : ℕ} (hi : i < literalBits) : (bitwiseTwos operator left right).toNat.testBit i =
      (bitwiseValue operator left.toInt right.toInt).testBit i := by
  rw [testBit_bitwiseValue, ← testBit_literalToTwos hleft hi, ← testBit_literalToTwos hrgt hi,
    bitwiseTwos, Magnitude.testBit_ofLimbs, decide_eq_true hi, Bool.true_and,
    Magnitude.testBit_toNat, Magnitude.testBit_toNat]
  unfold limbOperator bitOperator
  split_ifs
  · exact Nat.testBit_and ..
  · exact Nat.testBit_or ..
  · exact Nat.testBit_xor ..

theorem fromTwos_bitwise_iff (hleft : left.Normal)
    (hrgt : right.Normal) : (literalFromTwos (bitwiseTwos operator left right)).toInt =
        bitwiseValue operator left.toInt right.toInt ↔
      FitsTwos (bitwiseValue operator left.toInt right.toInt) := by
  constructor
  · intro h
    rw [← h]
    exact fromTwos_fits _
  · intro h
    refine eq_of_int_testBit_eq fun i => ?_
    have hlast : min i (literalBits - 1) < literalBits :=
      Nat.lt_of_le_of_lt (Nat.min_le_right _ _) (by decide)
    rw [testBit_fromTwos, testBit_bitwiseTwos operator hleft hrgt hlast]
    rcases Nat.lt_or_ge i (literalBits - 1) with hi | hi
    · rw [Nat.min_eq_left (Nat.le_of_lt hi)]
    · rw [Nat.min_eq_right hi, h.testBit hi]

/-! ### Products and quotients -/

variable (a b : Bool)

theorem toInt_mul_sign (m n p : Magnitude) (large : Bool)
    (h : p.toNat = m.toNat * n.toNat) : LiteralValue.toInt ⟨large, a != b, p⟩ =
      LiteralValue.toInt ⟨large, a, m⟩ * LiteralValue.toInt ⟨large, b, n⟩ := by
  unfold LiteralValue.toInt
  rw [h]
  cases a <;> cases b <;> simp

theorem toInt_div_sign (m n q : Magnitude) (large : Bool)
    (h : q.toNat = m.toNat / n.toNat) : LiteralValue.toInt ⟨large, a != b, q⟩ =
      (LiteralValue.toInt ⟨large, a, m⟩).tdiv (LiteralValue.toInt ⟨large, b, n⟩) := by
  unfold LiteralValue.toInt
  rw [h]
  cases a <;> cases b <;> simp [Int.neg_tdiv, Int.tdiv_neg]

theorem toInt_mod_sign (m n r : Magnitude) (large : Bool)
    (h : r.toNat = m.toNat % n.toNat) : LiteralValue.toInt ⟨large, a, r⟩ =
      (LiteralValue.toInt ⟨large, a, m⟩).tmod (LiteralValue.toInt ⟨large, b, n⟩) := by
  unfold LiteralValue.toInt
  rw [h, Int.natCast_mod, ← Int.tmod_eq_emod_of_nonneg (Int.natCast_nonneg _)]
  cases a <;> cases b <;> simp [Int.neg_tmod, Int.tmod_neg]

/-! ### Shifts -/

theorem shiftCount_spec (right m : Magnitude) :
    m.toNat / 2 ^ shiftCount right = m.toNat / 2 ^ right.toNat ∧
      m.toNat % 2 ^ shiftCount right = m.toNat % 2 ^ right.toNat ∧ (shiftCount right = right.toNat ∨
        shiftCount right = literalBits ∧ literalBits ≤ right.toNat) := by
  unfold shiftCount
  rw [bitLength_eq]
  split_ifs with h
  · have hge : 2 ^ 16 ≤ right.toNat := Nat.lt_size.mp h
    have hbits : literalBits ≤ right.toNat := Nat.le_trans (by decide) hge
    have hlt := m.toNat_lt
    have hlt' : m.toNat < 2 ^ right.toNat :=
      Nat.lt_of_lt_of_le hlt (pow_le_pow_right (by decide) hbits)
    rw [div_eq_of_lt hlt, div_eq_of_lt hlt', mod_eq_of_lt hlt, mod_eq_of_lt hlt']
    exact ⟨rfl, rfl, .inr ⟨rfl, hbits⟩⟩
  · have hlt : right.toNat < 2 ^ 16 := size_le.mp (Nat.le_of_not_lt h)
    have hlimb : right.limb 0 = right.toNat := by
      rw [right.limb_zero_eq]
      exact mod_eq_of_lt (Nat.lt_trans hlt (by decide))
    rw [hlimb]
    exact ⟨rfl, rfl, .inl rfl⟩

theorem toInt_shiftLeft (negative : Bool) (m p : Magnitude) (large : Bool) (count : ℕ)
    (h : p.toNat = m.toNat * 2 ^ count) : LiteralValue.toInt ⟨large, negative, p⟩ =
      LiteralValue.toInt ⟨large, negative, m⟩ * 2 ^ count := by
  unfold LiteralValue.toInt
  rw [h]
  cases negative <;> simp

theorem neg_ediv_two_pow (m count : ℕ) :
    -(m : ℤ) / 2 ^ count = -((m / 2 ^ count : ℕ) : ℤ) - if m % 2 ^ count ≠ 0 then 1 else 0 := by
  have hpos : (0 : ℤ) < 2 ^ count := Int.pow_pos (by decide)
  have hcast : ((2 ^ count : ℕ) : ℤ) = 2 ^ count := by simp
  have hspl : (2 : ℤ) ^ count * ((m / 2 ^ count : ℕ) : ℤ) + ((m % 2 ^ count : ℕ) : ℤ) = m := by
    rw [← hcast, ← Int.natCast_mul, ← Int.natCast_add, Nat.div_add_mod]
  have hlt := mod_lt m (Nat.two_pow_pos count)
  rw [← Int.ofNat_lt, hcast] at hlt
  generalize ((m / 2 ^ count : ℕ) : ℤ) = q at hspl ⊢
  generalize m % 2 ^ count = r at hspl hlt ⊢
  generalize (2 : ℤ) ^ count = base at *
  split_ifs with h
  · rw [Int.ediv_eq_iff_of_pos hpos, ← hspl, Int.sub_mul, Int.neg_mul, Int.mul_comm q]
    omega
  · rw [not_not] at h
    subst h
    rw [Int.natCast_zero, Int.add_zero] at hspl
    rw [← hspl, Int.sub_zero, ← Int.mul_neg]
    exact Int.mul_ediv_cancel_left _ hpos.ne'
/-! ### One operator -/

/-- What an operator is worth on operands of which `large` says that one is too large: its value is
`x`, or it is marked. -/
structure OperatorTo (v : LiteralValue) (large : Prop) (x : ℤ) : Prop where
  isTooLarge_iff : v.isTooLarge = true ↔ large ∨ 2 ^ literalBits ≤ x.natAbs
  toInt_eq : v.isTooLarge = false → v.toInt = x
  normal : v.Normal

theorem OperatorTo.of_eq {large : Prop} {x : ℤ} (hbig : v.isTooLarge = true ↔ large)
    (hx : v.toInt = x) (hv : v.Normal) : OperatorTo v large x := by
  refine ⟨?_, fun _ => hx, hv⟩
  have hlt := v.magnitude.toNat_lt
  rw [← v.toInt_natAbs, hx] at hlt
  rw [hbig, or_iff_left (Nat.not_le.mpr hlt)]

theorem OperatorTo.of_overflow {large overflow : Bool} {x : ℤ}
    (hbig : v.isTooLarge = (overflow || large))
    (hover : overflow = true → 2 ^ literalBits ≤ x.natAbs) (hx : overflow = false → v.toInt = x)
    (hv : v.Normal) : OperatorTo v (large = true) x := by
  cases overflow with
  | false =>
    rw [Bool.false_or] at hbig
    exact .of_eq (by rw [hbig]) (hx rfl) hv
  | true =>
    rw [Bool.true_or] at hbig
    exact ⟨iff_of_true hbig (.inr (hover rfl)), fun h => absurd (hbig.symm.trans h) (by decide), hv⟩

theorem literalAdd_operatorTo (left right : LiteralValue) :
    OperatorTo (literalAdd left right) (left.isTooLarge = true ∨ right.isTooLarge = true)
      (left.toInt + right.toInt) := by
  have hspec := literalAdd_spec left right
  exact ⟨hspec.1.trans or_assoc.symm, hspec.2, literalAdd_normal left right⟩

def literalNegate (value : LiteralValue) : LiteralValue :=
  literalNormalizeSign { value with isNegative := !value.isNegative }

theorem literalNegate_toInt (v : LiteralValue) : (literalNegate v).toInt = -v.toInt := by
  rw [literalNegate, normalizeSign_toInt, v.toInt_neg]

theorem literalNegate_isTooLarge (v : LiteralValue) : (literalNegate v).isTooLarge = v.isTooLarge :=
  normalizeSign_isTooLarge _

theorem foldMinus_operatorTo (left right : LiteralValue) :
    OperatorTo (literalAdd left (literalNegate right))
      (left.isTooLarge = true ∨ right.isTooLarge = true) (left.toInt - right.toInt) := by
  have h := literalAdd_operatorTo left (literalNegate right)
  rwa [literalNegate_toInt, literalNegate_isTooLarge, ← Int.sub_eq_add_neg] at h

theorem foldAsterisk_operatorTo (left right : LiteralValue) : OperatorTo (literalNormalizeSign
        ⟨(magnitudeMultiply left.magnitude right.magnitude).isNone || left.isTooLarge ||
            right.isTooLarge, left.isNegative != right.isNegative,
          (magnitudeMultiply left.magnitude right.magnitude).getD left.magnitude⟩)
      ((left.isTooLarge || right.isTooLarge) = true) (left.toInt * right.toInt) := by
  have hspec := magnitudeMultiply_spec left.magnitude right.magnitude
  refine .of_overflow ((normalizeSign_isTooLarge _).trans (Bool.or_assoc ..)) (fun h => ?_)
    (fun h => ?_) (normalizeSign_normal _)
  · rw [Int.natAbs_mul, left.toInt_natAbs, right.toInt_natAbs]
    exact hspec.2 (Option.isNone_iff_eq_none.mp h)
  · obtain ⟨product, hprod⟩ := Option.isNone_eq_false_iff.mp h |> Option.isSome_iff_exists.mp
    rw [normalizeSign_toInt, hprod]
    exact toInt_mul_sign _ _ _ _ _ _ (hspec.1 product hprod)

theorem foldSlash_operatorTo (left right : LiteralValue) (hrgt : right.magnitude.toNat ≠ 0) :
    OperatorTo (literalNormalizeSign
        ⟨left.isTooLarge || right.isTooLarge, left.isNegative != right.isNegative,
          (magnitudeDivide left.magnitude right.magnitude).1⟩)
      ((left.isTooLarge || right.isTooLarge) = true) (left.toInt.tdiv right.toInt) := by
  refine .of_eq (by rw [normalizeSign_isTooLarge]) ?_ (normalizeSign_normal _)
  rw [normalizeSign_toInt]
  exact toInt_div_sign _ _ _ _ _ _ (magnitudeDivide_spec (Nat.pos_of_ne_zero hrgt)).1

theorem foldPercent_operatorTo (left right : LiteralValue) (hrgt : right.magnitude.toNat ≠ 0) :
    OperatorTo (literalNormalizeSign
        ⟨left.isTooLarge || right.isTooLarge, left.isNegative,
          (magnitudeDivide left.magnitude right.magnitude).2⟩)
      ((left.isTooLarge || right.isTooLarge) = true) (left.toInt.tmod right.toInt) := by
  refine .of_eq (by rw [normalizeSign_isTooLarge]) ?_ (normalizeSign_normal _)
  rw [normalizeSign_toInt]
  exact toInt_mod_sign _ _ _ _ _ _ (magnitudeDivide_spec (Nat.pos_of_ne_zero hrgt)).2

theorem foldBitwise_operatorTo (hleft : left.Normal) (hrgt : right.Normal)
    (hfits : left.isTooLarge = false → right.isTooLarge = false →
      FitsTwos (bitwiseValue operator left.toInt right.toInt)) :
    OperatorTo { literalFromTwos (bitwiseTwos operator left right) with
        isTooLarge := left.isTooLarge || right.isTooLarge }
      ((left.isTooLarge || right.isTooLarge) = true)
      (bitwiseValue operator left.toInt right.toInt) := by
  have hnorm : LiteralValue.Normal { literalFromTwos (bitwiseTwos operator left right) with
      isTooLarge := left.isTooLarge || right.isTooLarge } :=
    fromTwos_normal (bitwiseTwos operator left right)
  cases hbig : left.isTooLarge || right.isTooLarge with
  | true => exact ⟨iff_of_true rfl (.inl rfl), fun h => (by cases h), hnorm⟩
  | false =>
    rw [Bool.or_eq_false_iff] at hbig
    refine .of_eq Iff.rfl ?_ hnorm
    exact (fromTwos_bitwise_iff operator hleft hrgt).mpr (hfits hbig.1 hbig.2)

theorem foldShiftLeft_operatorTo (left : LiteralValue) (count : ℕ) :
    OperatorTo (literalNormalizeSign
        ⟨(magnitudeShiftLeft left.magnitude count).isNone || left.isTooLarge, left.isNegative,
          (magnitudeShiftLeft left.magnitude count).getD left.magnitude⟩)
      (left.isTooLarge = true) (left.toInt * 2 ^ count) := by
  have hspec := magnitudeShiftLeft_spec left.magnitude count
  refine .of_overflow (normalizeSign_isTooLarge _) (fun h => ?_) (fun h => ?_)
    (normalizeSign_normal _)
  · rw [Int.natAbs_mul, left.toInt_natAbs, Int.natAbs_pow]
    exact hspec.2 (Option.isNone_iff_eq_none.mp h)
  · obtain ⟨shifted, hshifted⟩ := Option.isNone_eq_false_iff.mp h |> Option.isSome_iff_exists.mp
    rw [normalizeSign_toInt, hshifted]
    exact toInt_shiftLeft _ _ _ _ _ (hspec.1 shifted hshifted)

theorem foldShiftRight_operatorTo (left : LiteralValue) (count : ℕ) :
    OperatorTo (literalNormalizeSign { left with
        magnitude := if left.isNegative && (magnitudeShiftRight left.magnitude count).2 then
            (magnitudeAdd (magnitudeShiftRight left.magnitude count).1 (.single 1)).1
          else (magnitudeShiftRight left.magnitude count).1 })
      (left.isTooLarge = true) (left.toInt / 2 ^ count) := by
  have hspec := magnitudeShiftRight_spec left.magnitude count
  refine .of_eq (by rw [normalizeSign_isTooLarge]) ?_ (normalizeSign_normal _)
  rw [normalizeSign_toInt]
  unfold LiteralValue.toInt
  cases hsign : left.isNegative with
  | false =>
    simp only [Bool.false_and, false_eq_true, if_false]
    rw [hspec.1, Int.natCast_ediv, Int.natCast_pow]
    rfl
  | true =>
    simp only [Bool.true_and, if_true]
    rw [neg_ediv_two_pow]
    by_cases hlost : (magnitudeShiftRight left.magnitude count).2 = true
    · rw [if_pos hlost, if_pos (hspec.2.mp hlost)]
      have hadd := magnitudeAdd_spec (magnitudeShiftRight left.magnitude count).1 (.single 1)
      rw [Magnitude.toNat_single (by decide), hspec.1] at hadd
      have hlt := left.magnitude.toNat_lt
      have hmod := hspec.2.mp hlost
      have hbnd : left.magnitude.toNat / 2 ^ count + 1 < 2 ^ literalBits := by
        have hspl := Nat.div_add_mod left.magnitude.toNat (2 ^ count)
        have hle := Nat.le_mul_of_pos_left (left.magnitude.toNat / 2 ^ count)
          (Nat.two_pow_pos count)
        omega
      rw [hadd.2 (hadd.1.mpr hbnd)]
      omega
    · rw [if_neg hlost, if_neg (fun h => hlost (hspec.2.mpr h)), hspec.1, Int.sub_zero]
theorem LiteralValue.toInt_eq_zero_iff (v : LiteralValue) :
    v.toInt = 0 ↔ v.magnitude.toNat = 0 := by
  rw [← Int.natAbs_eq_zero, v.toInt_natAbs]

theorem LiteralValue.Normal.toInt_neg_iff (hv : v.Normal) : v.toInt < 0 ↔ v.isNegative = true := by
  unfold toInt
  split_ifs with h
  · have hne : v.magnitude.toNat ≠ 0 := fun hzero => by
      rw [hv hzero] at h
      cases h
    simp only [h, iff_true]
    omega
  · refine iff_of_false ?_ h
    omega

theorem LiteralValue.toInt_toNat (h : v.isNegative = false) :
    v.toInt.toNat = v.magnitude.toNat := by
  rw [toInt, h, if_neg Bool.false_ne_true, Int.toNat_natCast]

theorem OperatorTo.shiftLeft_count {large : Prop} {right : Magnitude}
    (h : OperatorTo v large (left.toInt * 2 ^ shiftCount right)) :
    OperatorTo v large (left.toInt * 2 ^ right.toNat) := by
  rcases (shiftCount_spec right .zero).2.2 with hcnt | ⟨hcnt, hle⟩
  · rwa [hcnt] at h
  rw [hcnt] at h
  by_cases hzero : left.toInt = 0
  · rwa [hzero, Int.zero_mul] at h ⊢
  have hover : ∀ count, literalBits ≤ count → 2 ^ literalBits ≤ (left.toInt * 2 ^ count).natAbs := by
    intro count hbits
    rw [Int.natAbs_mul, Int.natAbs_pow]
    exact Nat.le_trans (pow_le_pow_right (by decide) hbits)
      (Nat.le_mul_of_pos_left _ (Int.natAbs_pos.mpr hzero))
  have hbig : v.isTooLarge = true := h.isTooLarge_iff.mpr (.inr (hover _ le_rfl))
  exact ⟨iff_of_true hbig (.inr (hover _ hle)), fun hv => absurd (hbig.symm.trans hv)
    (by decide), h.normal⟩

theorem toInt_ediv_shiftCount (left : LiteralValue) (right : Magnitude) :
    left.toInt / 2 ^ shiftCount right = left.toInt / 2 ^ right.toNat := by
  obtain ⟨hdiv, hmod, -⟩ := shiftCount_spec right left.magnitude
  unfold LiteralValue.toInt
  split_ifs
  · rw [neg_ediv_two_pow, neg_ediv_two_pow, hdiv, hmod]
  · have hcast := congrArg (fun n : ℕ => (n : ℤ)) hdiv
    simpa using hcast

theorem foldInfix_operatorTo (hleft : left.Normal)
    (hrgt : right.Normal) (hfits : operator = .bitAnd ∨ operator = .bitOr ∨ operator = .bitXor →
      left.isTooLarge = false → right.isTooLarge = false →
        FitsTwos (bitwiseValue operator left.toInt right.toInt))
    (hcnt : operator = .bitShiftLeft ∨ operator = .bitShiftRight → right.isTooLarge = false)
    (h : foldInfixOperator operator left right = some v) :
    ∃ x, infixValue operator left.toInt right.toInt = some x ∧
      OperatorTo v (left.isTooLarge = true ∨ right.isTooLarge = true) x := by
  unfold foldInfixOperator at h
  unfold infixValue
  rw [← or_eq_true]
  by_cases hplus : operator = .plus
  · rw [if_pos hplus] at h ⊢
    refine ⟨_, rfl, ?_⟩
    rw [← some.inj h, or_eq_true]
    exact literalAdd_operatorTo left right
  rw [if_neg hplus] at h ⊢
  by_cases hminus : operator = .minus
  · rw [if_pos hminus] at h ⊢
    refine ⟨_, rfl, ?_⟩
    rw [← some.inj h, or_eq_true]
    exact foldMinus_operatorTo left right
  rw [if_neg hminus] at h ⊢
  by_cases hasterisk : operator = .asterisk
  · rw [if_pos hasterisk] at h ⊢
    refine ⟨_, rfl, ?_⟩
    rw [← some.inj h]
    exact foldAsterisk_operatorTo left right
  rw [if_neg hasterisk] at h ⊢
  by_cases hdivide : operator = .slash ∨ operator = .percent
  · rw [if_pos hdivide] at h
    by_cases hzero : magnitudeIsZero right.magnitude = true
    · rw [if_pos hzero] at h
      cases h
    rw [if_neg hzero] at h
    rw [magnitudeIsZero_iff] at hzero
    have hne : ¬ right.toInt = 0 := fun hx => hzero (right.toInt_eq_zero_iff.mp hx)
    by_cases hsla : operator = .slash
    · rw [if_pos hsla, if_neg hne]
      refine ⟨_, rfl, ?_⟩
      rw [← some.inj h, if_pos hsla]
      exact foldSlash_operatorTo left right hzero
    · have hpercent := hdivide.resolve_left hsla
      rw [if_neg hsla, if_pos hpercent, if_neg hne]
      refine ⟨_, rfl, ?_⟩
      rw [← some.inj h, if_neg hsla]
      exact foldPercent_operatorTo left right hzero
  rw [if_neg hdivide] at h
  rw [not_or] at hdivide
  rw [if_neg hdivide.1, if_neg hdivide.2]
  by_cases hbitwise : operator = .bitAnd ∨ operator = .bitOr ∨ operator = .bitXor
  · rw [if_pos hbitwise] at h ⊢
    refine ⟨_, rfl, ?_⟩
    rw [← some.inj h]
    exact foldBitwise_operatorTo operator hleft hrgt (hfits hbitwise)
  rw [if_neg hbitwise] at h ⊢
  have hshf : ∀ x, OperatorTo v (left.isTooLarge = true) x → right.isTooLarge = false →
      OperatorTo v ((left.isTooLarge || right.isTooLarge) = true) x := by
    intro x hx hsml
    rwa [hsml, Bool.or_false]
  by_cases hshiftLeft : operator = .bitShiftLeft
  · rw [if_pos hshiftLeft] at h ⊢
    by_cases hneg : right.isNegative = true
    · rw [if_pos hneg] at h
      cases h
    rw [if_neg hneg] at h
    rw [if_neg (mt hrgt.toInt_neg_iff.mp hneg), LiteralValue.toInt_toNat (not_eq_true _ |>.mp hneg)]
    refine ⟨_, rfl, hshf _ ?_ (hcnt (.inl hshiftLeft))⟩
    rw [← some.inj h]
    exact (foldShiftLeft_operatorTo left _).shiftLeft_count
  rw [if_neg hshiftLeft] at h ⊢
  by_cases hshiftRight : operator = .bitShiftRight
  · rw [if_pos hshiftRight] at h ⊢
    by_cases hneg : right.isNegative = true
    · rw [if_pos hneg] at h
      cases h
    rw [if_neg hneg] at h
    rw [if_neg (mt hrgt.toInt_neg_iff.mp hneg), LiteralValue.toInt_toNat (not_eq_true _ |>.mp hneg)]
    refine ⟨_, rfl, hshf _ ?_ (hcnt (.inr hshiftRight))⟩
    rw [← some.inj h, ← toInt_ediv_shiftCount]
    exact foldShiftRight_operatorTo left _
  · rw [if_neg hshiftRight] at h
    cases h

theorem lnot_eq_neg_add (a : ℤ) : Int.lnot a = -a + -1 := by
  cases a with
  | ofNat m =>
    change Int.negSucc m = _
    rw [Int.negSucc_eq, Int.neg_add]
    rfl
  | negSucc m =>
    change (m : ℤ) = _
    rw [Int.neg_negSucc]
    omega

theorem foldPrefixOperator_operatorTo
    (h : foldPrefixOperator operator right = some v) :
    ∃ x, prefixValue operator right.toInt = some x ∧ OperatorTo v (right.isTooLarge = true) x := by
  unfold foldPrefixOperator at h
  unfold prefixValue
  by_cases hneg : operator = .minus
  · rw [if_pos hneg] at h ⊢
    refine ⟨_, rfl, ?_⟩
    rw [← some.inj h]
    exact .of_eq (by rw [normalizeSign_isTooLarge]) (literalNegate_toInt right)
      (normalizeSign_normal _)
  rw [if_neg hneg] at h ⊢
  by_cases hnot : operator = .bitNot
  · rw [if_pos hnot] at h ⊢
    refine ⟨_, rfl, ?_⟩
    have hone : LiteralValue.toInt { literalSetU64 1 with isNegative := true } = -1 := by
      rw [LiteralValue.toInt, if_pos rfl, literalSetU64_toNat (by decide)]
      rfl
    have hadd := literalAdd_operatorTo (literalNegate right)
      { literalSetU64 1 with isNegative := true }
    rw [hone, literalNegate_toInt, literalNegate_isTooLarge] at hadd
    have hbig : (right.isTooLarge = true ∨ (literalSetU64 1).isTooLarge = true) ↔
        right.isTooLarge = true := or_iff_left (by decide)
    rw [← some.inj h, lnot_eq_neg_add, ← hbig]
    exact hadd
  · rw [if_neg hnot] at h
    cases h
/-! ### Expressions -/

theorem FoldsTo.of_operatorTo {large parts : Prop} {x : ℤ} {exact : Option ℤ}
    (hbig : large ↔ ¬ parts) (hv : OperatorTo v large x) (hx : ¬ large → exact = some x) :
    FoldsTo v exact (parts ∧ BoundedValue exact) := by
  by_cases h : large
  · have hmrk := hv.isTooLarge_iff.mpr (.inl h)
    refine ⟨fun hsml => absurd (hmrk.symm.trans hsml) (by decide), ?_, hv.normal⟩
    exact iff_of_true hmrk fun hpts => hbig.mp h hpts.1
  · rw [hx h]
    refine ⟨fun hsml => congrArg some (hv.toInt_eq hsml).symm, ?_, hv.normal⟩
    have hpts : parts := by
      by_contra hpts
      exact h (hbig.mpr hpts)
    have hbdd : BoundedValue (some x) ↔ x.natAbs < 2 ^ literalBits := by
      simp [BoundedValue]
    rw [hv.isTooLarge_iff, or_iff_right h, hbdd, and_iff_right hpts, Nat.not_lt]

theorem foldsTo_prefixExpression {operator : TokenType} {right : ConstantExpression}
    {r : LiteralValue} (hr : FoldsTo r (exactValue right) (Bounded right))
    (h : foldPrefixOperator operator r = some v) :
    FoldsTo v (exactValue (.prefixExpression operator right))
      (Bounded (.prefixExpression operator right)) := by
  obtain ⟨x, hx, hv⟩ := foldPrefixOperator_operatorTo operator h
  refine .of_operatorTo hr.isTooLarge_iff hv fun hsml => ?_
  rw [exactValue, hr.exact_eq (not_eq_true _ |>.mp hsml)]
  exact hx

theorem foldsTo_infixExpression {left right : ConstantExpression} {operator : TokenType}
    {l r : LiteralValue} (hl : FoldsTo l (exactValue left) (Bounded left))
    (hr : FoldsTo r (exactValue right) (Bounded right))
    (hsafe : FoldsSafely (.infixExpression left operator right))
    (h : foldInfixOperator operator l r = some v) :
    FoldsTo v (exactValue (.infixExpression left operator right))
      (Bounded (.infixExpression left operator right)) := by
  obtain ⟨-, -, hbitwise, hshf⟩ := hsafe
  have hsml : ∀ {w : LiteralValue} {exact : Option ℤ} {bounded : Prop},
      FoldsTo w exact bounded → (bounded ↔ w.isTooLarge = false) := by
    intro w exact bounded hw
    rw [← not_eq_true, hw.isTooLarge_iff, not_not]
  obtain ⟨x, hx, hv⟩ := foldInfix_operatorTo operator hl.normal hr.normal
    (fun hop hleft hrgt => by
      refine hbitwise hop ((hsml hl).mpr hleft) ((hsml hr).mpr hrgt) _ ?_
      rw [exactValue, hl.exact_eq hleft, hr.exact_eq hrgt]
      rcases hop with rfl | rfl | rfl <;> rfl)
    (fun hop => (hsml hr).mp (hshf hop)) h
  have hbig : (l.isTooLarge = true ∨ r.isTooLarge = true) ↔ ¬ (Bounded left ∧ Bounded right) := by
    rw [hl.isTooLarge_iff, hr.isTooLarge_iff, not_and_or]
  have hfold := @FoldsTo.of_operatorTo _ _ _ _ (exactValue (.infixExpression left operator right))
    hbig hv fun hmarks => ?_
  · rwa [and_assoc] at hfold
  · rw [not_or, not_eq_true, not_eq_true] at hmarks
    rw [exactValue, hl.exact_eq hmarks.1, hr.exact_eq hmarks.2]
    exact hx

theorem fold_foldsTo {e : ConstantExpression} (hsafe : FoldsSafely e)
    (h : literalFold e = some v) : FoldsTo v (exactValue e) (Bounded e) := by
  induction e generalizing v with
  | label name => cases h
  | integerLiteral literal =>
    rw [← some.inj h]
    exact foldIntegerLiteral_foldsTo literal
  | prefixExpression operator right ih =>
    rw [literalFold, constantFold, Option.map_eq_some_iff] at h
    obtain ⟨w, hw, rfl⟩ := h
    obtain ⟨r, hrgt, hw⟩ := bind_eq_some_iff.mp hw
    exact foldsTo_prefixExpression (ih hsafe hrgt) hw
  | infixExpression left operator right ihleft ihright =>
    rw [literalFold, constantFold, Option.map_eq_some_iff] at h
    obtain ⟨w, hw, rfl⟩ := h
    obtain ⟨l, hleft, hw⟩ := bind_eq_some_iff.mp hw
    obtain ⟨r, hrgt, hw⟩ := bind_eq_some_iff.mp hw
    exact foldsTo_infixExpression (ihleft hsafe.1 hleft) (ihright hsafe.2.1 hrgt) hsafe hw
  | other => cases h

/-! ### Ranges -/

def IntegerType.InRange (target : IntegerType) (a : ℤ) : Prop :=
  match target.kind with
  | .unsigned => 0 ≤ a ∧ a < 2 ^ integerTypeBits target.name
  | .signed => -2 ^ (integerTypeBits target.name - 1) ≤ a ∧
      a < 2 ^ (integerTypeBits target.name - 1)

theorem integerTypeBits_lt (name : Text) : integerTypeBits name < literalBits := by
  have hrank : integerTypeNameWidthRank name < 7 := by
    unfold integerTypeNameWidthRank
    split_ifs <;> decide
  unfold integerTypeBits
  generalize integerTypeNameWidthRank name = rank at *
  interval_cases rank <;> decide

theorem literalFits_iff (hv : v.Normal) (hbig : v.isTooLarge = false) {target : IntegerType}
    (hbits : integerTypeBits target.name ≠ 0) :
    literalFits v target = true ↔ target.InRange v.toInt := by
  have hlt := integerTypeBits_lt target.name
  unfold literalFits IntegerType.InRange
  rw [if_neg (by rw [hbig]; decide), bitLength_eq]
  dsimp only
  generalize integerTypeBits target.name = bits at *
  obtain ⟨n, rfl⟩ : ∃ n, bits = n + 1 := ⟨bits - 1, by omega⟩
  have hpow : ((2 ^ n : ℕ) : ℤ) = 2 ^ n := by simp
  have hpow' : ((2 ^ (n + 1) : ℕ) : ℤ) = 2 ^ (n + 1) := by simp
  rw [Nat.add_sub_cancel, ← hpow, ← hpow']
  cases hsign : v.isNegative with
  | false =>
    have hval : v.toInt = v.magnitude.toNat := by
      rw [LiteralValue.toInt, hsign, if_neg Bool.false_ne_true]
    rw [hval]
    cases target.kind with
    | unsigned =>
      rw [if_pos rfl, Bool.not_false, Bool.true_and, decide_eq_true_iff, size_le]
      omega
    | signed =>
      rw [if_neg (by decide), Bool.not_false, if_pos rfl, decide_eq_true_iff]
      have hsize : ((v.magnitude.toNat.size : ℤ) ≤ ((n + 1 : ℕ) : ℤ) - 1) ↔
          v.magnitude.toNat < 2 ^ n := by
        rw [← size_le]
        omega
      rw [hsize]
      omega
  | true =>
    have hval : v.toInt = -v.magnitude.toNat := by
      rw [LiteralValue.toInt, hsign, if_pos rfl]
    have hpos : v.magnitude.toNat ≠ 0 := fun hzero => by
      rw [hv hzero] at hsign
      cases hsign
    rw [hval]
    cases target.kind with
    | unsigned =>
      rw [if_pos rfl]
      refine iff_of_false (by simp) ?_
      omega
    | signed =>
      rw [if_neg (by decide), Bool.not_true, if_neg Bool.false_ne_true, or_eq_true,
        Bool.and_eq_true, decide_eq_true_iff, beq_iff_eq, Nat.lt_succ_iff, size_le,
        magnitudeIsPowerOfTwo_iff v.magnitude (Nat.lt_of_succ_lt hlt)]
      have hsize : v.magnitude.toNat = 2 ^ n → v.magnitude.toNat.size = n + 1 := by
        intro h
        rw [h, Nat.size_pow]
      constructor
      · rintro (h | ⟨-, h⟩) <;> omega
      · intro h
        rcases Nat.lt_or_ge v.magnitude.toNat (2 ^ n) with hsml | hge
        · exact .inl hsml
        · have heq : v.magnitude.toNat = 2 ^ n := by omega
          exact .inr ⟨hsize heq, heq⟩
/-! ### Decimal text -/

/-- The integer of a decimal text: a sign, or none, and digits. -/
def decimalInteger (text : Text) : Option ℤ :=
  if text.head? = some (byte '-') then
    if !text.tail.isEmpty && text.tail.all isdigit then some (-(decimalNumber text.tail)) else none
  else if !text.isEmpty && text.all isdigit then some (decimalNumber text) else none

theorem integerDigits_spec (fuel : ℕ) (m : Magnitude) (h : m.toNat < 10 ^ fuel) :
    Nat.ofDigits 10 (integerDigits fuel m) = m.toNat ∧ ∀ d ∈ integerDigits fuel m, d < 10 := by
  induction fuel generalizing m with
  | zero =>
    refine ⟨?_, fun d hd => by cases hd⟩
    rw [Nat.pow_zero, Nat.lt_one_iff] at h
    rw [h]
    rfl
  | succ fuel ih =>
    have hten : (Magnitude.single 10).toNat = 10 := Magnitude.toNat_single (by decide)
    obtain ⟨hdiv, hmod⟩ := @magnitudeDivide_spec m (.single 10)
      (by rw [hten]; decide)
    rw [hten] at hdiv hmod
    have hdig : (magnitudeDivide m (.single 10)).2.limb 0 = m.toNat % 10 := by
      rw [Magnitude.limb_zero_eq, hmod]
      omega
    have hnext : (magnitudeDivide m (.single 10)).1.toNat < 10 ^ fuel := by
      rw [Nat.pow_succ] at h
      rw [hdiv]
      omega
    obtain ⟨hnum, hlt⟩ := ih _ hnext
    rw [integerDigits, Nat.ofDigits_cons, hdig]
    split_ifs with hzero
    · rw [magnitudeIsZero_iff, hdiv] at hzero
      constructor
      · rw [Nat.ofDigits_nil]
        omega
      · intro d hd
        rw [mem_singleton.mp hd]
        omega
    · constructor
      · rw [hnum, hdiv]
        exact Nat.mod_add_div m.toNat 10
      · intro d hd
        rcases mem_cons.mp hd with rfl | hd
        · omega
        · exact hlt d hd

/-- The text of digits, the lowest first. -/
def digitsText (l : List ℕ) : Text := l.reverse.map fun d => (48 + d).toUInt8

theorem digit_toNat {d : ℕ} (h : d < 10) : ((48 + d).toUInt8).toNat - 48 = d := by
  rw [Nat.toUInt8_eq, UInt8.toNat_ofNat', mod_eq_of_lt (by omega)]
  omega

theorem isdigit_digit {d : ℕ} (h : d < 10) : isdigit ((48 + d).toUInt8) = true := by
  interval_cases d <;> decide

theorem isdigit_digitsText {l : List ℕ} (h : ∀ d ∈ l, d < 10) :
    (digitsText l).all isdigit = true := by
  rw [all_eq_true]
  intro c hc
  obtain ⟨d, hd, rfl⟩ := mem_map.mp hc
  exact isdigit_digit (h d (mem_reverse.mp hd))

theorem decimalNumber_digitsText {l : List ℕ} (h : ∀ d ∈ l, d < 10) :
    decimalNumber (digitsText l) = Nat.ofDigits 10 l := by
  rw [digitsText, decimalNumber, foldl_map, foldl_reverse]
  induction l with
  | nil => rfl
  | cons d l ih =>
    have hd := h d (mem_cons_self ..)
    rw [foldr_cons, ih fun e he => h e (mem_cons_of_mem _ he), Nat.ofDigits_cons,
      if_pos (isdigit_digit hd), digit_toNat hd, Nat.add_comm]

theorem decimalInteger_integerText (v : LiteralValue) :
    decimalInteger (literalIntegerText v) = some v.toInt := by
  have hfuel : v.magnitude.toNat < 10 ^ (literalLimbs * 10 + 2) :=
    Nat.lt_trans v.magnitude.toNat_lt (by decide +kernel)
  obtain ⟨hnum, hlt⟩ := integerDigits_spec _ _ hfuel
  have hnonempty : integerDigits (literalLimbs * 10 + 2) v.magnitude ≠ [] := fun h => by cases h
  have hdig := isdigit_digitsText hlt
  have hdec := (decimalNumber_digitsText hlt).trans hnum
  change decimalInteger ((if v.isNegative then [byte '-'] else []) ++
    digitsText (integerDigits (literalLimbs * 10 + 2) v.magnitude)) = _
  generalize integerDigits (literalLimbs * 10 + 2) v.magnitude = l at *
  have hnonempty' : digitsText l ≠ [] := by
    simpa [digitsText] using hnonempty
  have hisEmpty : (digitsText l).isEmpty = false := by
    simpa using hnonempty'
  rw [LiteralValue.toInt]
  cases v.isNegative with
  | true =>
    simp only [if_true, singleton_append, decimalInteger, head?_cons, tail_cons]
    rw [hisEmpty, hdig, hdec]
    rfl
  | false =>
    simp only [false_eq_true, if_false, nil_append, decimalInteger]
    have hhead : (digitsText l).head? ≠ some (byte '-') := by
      intro h
      have hc := all_eq_true.mp hdig _ (mem_of_mem_head? h)
      revert hc
      decide
    rw [if_neg hhead, hisEmpty, hdig, hdec]
    rfl

/-! ### Literal arithmetic -/

/-- Folding an expression with safe operators is exact or reported. A value that is not marked is
the exact one, fits the types in whose range it is, and has the text that denotes it; zero is not
negative; and a value is marked only if a literal or an intermediate value is too large. -/
theorem literalFold_exact {e : ConstantExpression} (hsafe : FoldsSafely e)
    (h : literalFold e = some v) : (v.isTooLarge = false → exactValue e = some v.toInt ∧
      (∀ target : IntegerType, integerTypeBits target.name ≠ 0 →
        (literalFits v target = true ↔ target.InRange v.toInt)) ∧
      decimalInteger (literalIntegerText v) = some v.toInt) ∧ (v.toInt = 0 → v.isNegative = false) ∧
    (v.isTooLarge = true → ¬ Bounded e) := by
  have hv := fold_foldsTo hsafe h
  refine ⟨fun hsml => ⟨hv.exact_eq hsml, ?_, decimalInteger_integerText v⟩, ?_,
    hv.isTooLarge_iff.mp⟩
  · exact fun target hbits => literalFits_iff hv.normal hsml hbits
  · exact fun hzero => hv.normal (v.toInt_eq_zero_iff.mp hzero)

def integerLiteralOf (text : Text) : IntegerLiteral where
  value := decimalNumber text % 2 ^ 64
  isAboveU64Maximum := decide (2 ^ 64 ≤ decimalNumber text)
  literal := text
  value_eq := rfl
  isAboveU64Maximum_iff := decide_eq_true_iff

/-- `-7 >> 1` is `-4`. -/
theorem literalFold_exact_shift : FoldsSafely (.infixExpression
        (.prefixExpression .minus (.integerLiteral (integerLiteralOf (bytes "7"))))
        .bitShiftRight (.integerLiteral (integerLiteralOf (bytes "1")))) ∧
      ∃ v, literalFold (.infixExpression
          (.prefixExpression .minus (.integerLiteral (integerLiteralOf (bytes "7"))))
          .bitShiftRight (.integerLiteral (integerLiteralOf (bytes "1")))) = some v ∧
        v.isTooLarge = false ∧
        exactValue (.infixExpression
          (.prefixExpression .minus (.integerLiteral (integerLiteralOf (bytes "7"))))
          .bitShiftRight (.integerLiteral (integerLiteralOf (bytes "1")))) = some v.toInt := by
  have hsafe : FoldsSafely (.infixExpression
      (.prefixExpression .minus (.integerLiteral (integerLiteralOf (bytes "7"))))
      .bitShiftRight (.integerLiteral (integerLiteralOf (bytes "1")))) :=
    ⟨trivial, trivial, by simp, fun _ => by
      change decimalNumber (bytes "1") < 2 ^ literalBits
      decide +kernel⟩
  exact ⟨hsafe, _, rfl, by decide, ((literalFold_exact hsafe rfl).1 (by decide)).1⟩

/-- `(1 << 319) | 0` folds to `-2 ^ 319`, and nothing reports it. -/
theorem literalFold_bitOr_inexact : ∃ v, literalFold (.infixExpression
          (.infixExpression (.integerLiteral (integerLiteralOf (bytes "1"))) .bitShiftLeft
            (.integerLiteral (integerLiteralOf (bytes "319"))))
          .bitOr (.integerLiteral (integerLiteralOf (bytes "0")))) = some v ∧ v.isTooLarge = false ∧
        exactValue (.infixExpression
          (.infixExpression (.integerLiteral (integerLiteralOf (bytes "1"))) .bitShiftLeft
            (.integerLiteral (integerLiteralOf (bytes "319"))))
          .bitOr (.integerLiteral (integerLiteralOf (bytes "0")))) ≠ some v.toInt := by
  refine ⟨_, rfl, ?_, ?_⟩
  · decide +kernel
  · decide +kernel

end Grayscale
