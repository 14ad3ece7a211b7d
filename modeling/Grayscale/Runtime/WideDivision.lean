import Grayscale.Runtime.WideIntegerLaws

/-!
# Division of wide integers

The binary long division of u128 and u256 is division with a remainder, its remainder never loses a
bit when it is shifted, and the path for operands of one word returns what the loop would. The
signed quotients and remainders truncate toward zero.
-/

namespace Grayscale

section Families

variable {α : Type}

/-- A signed remainder: the magnitudes are divided, and the remainder takes the sign of the
dividend. -/
def signedMod (isNeg : α → Bool) (neg : α → α) (divmod : α → α → Except String (α × α))
    (left right : α) : Except String α := do
  let leftIsNegative := isNeg left
  let magLeft := if leftIsNegative then neg left else left
  let magRight := if isNeg right then neg right else right
  let (_, remainder) ← divmod magLeft magRight
  return if leftIsNegative then neg remainder else remainder

end Families

def i128Mod : I128 → I128 → Except String I128 := signedMod i128IsNeg i128Neg u128Divmod

def i256Mod : I256 → I256 → Except String I256 := signedMod i256IsNeg i256Neg u256Divmod

/-! ### Unsigned division -/

/-- The quotient and the remainder of a long division before the round of a bit. -/
def beforeRound {σ : Type} (step : ℕ → σ → σ) (bits bit : ℕ) (s : σ) : σ :=
  LongDivision.loop (fun b => step (b + (bit + 1))) (bits - (bit + 1)) s

/-- A long division of `bits` rounds divides. -/
structure LongDivides {α : Type} (toNat : α → ℕ) (divmod : α → α → Except String (α × α))
    (step : α → α → ℕ → α × α → α × α) (bits : ℕ) (zero : α) : Prop where
  divides : ∀ dividend divisor, toNat divisor ≠ 0 → ∃ quotient remainder,
    divmod dividend divisor = .ok (quotient, remainder) ∧
      toNat dividend = toNat quotient * toNat divisor + toNat remainder ∧
      toNat remainder < toNat divisor
  /-- On both paths the result is that of the loop. -/
  loop : ∀ dividend divisor, toNat divisor ≠ 0 →
    divmod dividend divisor = .ok (LongDivision.loop (step dividend divisor) bits (zero, zero))
  /-- The shifted remainder of a round has room for the bit that comes in. -/
  shift : ∀ dividend divisor, toNat divisor ≠ 0 → ∀ bit < bits,
    2 * toNat (beforeRound (step dividend divisor) bits bit (zero, zero)).2 + 1 < 2 ^ bits

section Unsigned

variable {α : Type} {toNat : α → ℕ} {divmod : α → α → Except String (α × α)}
  {step : α → α → ℕ → α × α → α × α} {bits : ℕ} {zero : α}

/-- The numbers of a quotient and a remainder. -/
def divmodView (toNat : α → ℕ) (s : α × α) : ℕ × ℕ := (toNat s.1, toNat s.2)

theorem shifted_remainder_lt {dividend divisor : α} (hbnd : toNat dividend < 2 ^ bits)
    (hzero : toNat zero = 0) (hdiv : toNat divisor ≠ 0)
    (hstep : ∀ bit < bits, ∀ s, LongDivision.DividesTo (toNat dividend) (toNat divisor) (bit + 1)
      (divmodView toNat s) → divmodView toNat (step dividend divisor bit s) =
        LongDivision.round (toNat dividend) (toNat divisor) bit (divmodView toNat s))
    {bit : ℕ} (hbit : bit < bits) :
    2 * toNat (beforeRound (step dividend divisor) bits bit (zero, zero)).2 + 1 < 2 ^ bits := by
  have hspl : bits - (bit + 1) + (bit + 1) = bits := by omega
  have hfst : LongDivision.DividesTo (toNat dividend) (toNat divisor) bits
      (divmodView toNat (zero, zero)) := by
    rw [divmodView, hzero]
    exact .start hbnd
  have hseen := LongDivision.DividesTo.rounds (Nat.pos_of_ne_zero hdiv) hstep (bit + 1)
    (bits - (bit + 1)) hspl.le (hspl.symm ▸ hfst)
  have hrem : toNat (beforeRound (step dividend divisor) bits bit (zero, zero)).2 ≤
      toNat dividend / 2 ^ (bit + 1) := hseen.remainder.le.trans (Nat.mod_le _ _)
  have hhalf : toNat dividend / 2 ^ (bit + 1) ≤ toNat dividend / 2 :=
    Nat.div_le_div_left (Nat.le_self_pow (by omega) 2) (by decide)
  have heven : 2 ^ bits = 2 * 2 ^ (bits - 1) := by
    rw [← Nat.pow_succ', Nat.succ_eq_add_one, Nat.sub_add_cancel (by omega)]
  omega

theorem LongDivides.of_rounds (hlt : ∀ x, toNat x < 2 ^ bits)
    (hinj : ∀ {x y}, toNat x = toNat y → x = y) (hzero : toNat zero = 0)
    (hdivmod : ∀ {x y}, toNat y ≠ 0 → ∃ s : α × α, divmod x y = .ok s ∧
      toNat s.1 = toNat x / toNat y ∧ toNat s.2 = toNat x % toNat y)
    (hstep : ∀ x y, ∀ bit < bits, ∀ s, LongDivision.DividesTo (toNat x) (toNat y) (bit + 1)
      (divmodView toNat s) → divmodView toNat (step x y bit s) =
        LongDivision.round (toNat x) (toNat y) bit (divmodView toNat s)) :
    LongDivides toNat divmod step bits zero where
  divides dividend divisor hdiv := by
    obtain ⟨s, hs, hquot, hrem⟩ := hdivmod (x := dividend) hdiv
    refine ⟨s.1, s.2, hs, ?_, ?_⟩
    · rw [hquot, hrem, Nat.div_add_mod']
    · rw [hrem]
      exact Nat.mod_lt _ (Nat.pos_of_ne_zero hdiv)
  loop dividend divisor hdiv := by
    obtain ⟨s, hs, hquot, hrem⟩ := hdivmod (x := dividend) hdiv
    have hfst : LongDivision.DividesTo (toNat dividend) (toNat divisor) bits
        (divmodView toNat (zero, zero)) := by
      rw [divmodView, hzero]
      exact .start (hlt dividend)
    have hloop := hfst.loop (Nat.pos_of_ne_zero hdiv) (hstep dividend divisor)
    rw [hs]
    refine congrArg Except.ok (Prod.ext (hinj ?_) (hinj ?_))
    · exact hquot.trans (congrArg Prod.fst hloop).symm
    · exact hrem.trans (congrArg Prod.snd hloop).symm
  shift dividend divisor hdiv bit hbit :=
    shifted_remainder_lt (hlt dividend) hzero hdiv (hstep dividend divisor) hbit

end Unsigned

theorem longDivides_u128 : LongDivides Words128.toNat u128Divmod u128DivmodStep 128 u128Zero :=
  .of_rounds Words128.toNat_lt Words128.toNat_injective (by decide) u128Divmod_eq
    fun _ _ _ hbit _ h => u128DivmodStep_eq hbit h

theorem longDivides_u256 : LongDivides Words256.toNat u256Divmod u256DivmodStep 256 u256Zero :=
  .of_rounds Words256.toNat_lt Words256.toNat_injective toNat_u256Zero u256Divmod_eq
    fun _ _ _ hbit _ h => u256DivmodStep_eq hbit h

/-! ### Signed division -/

theorem tmod_natAbs (m n : ℤ) :
    m.tmod n = if m < 0 then -((m.natAbs % n.natAbs : ℕ) : ℤ) else (m.natAbs % n.natAbs : ℕ) := by
  have hn : ∀ k : ℤ, k.tmod n = k.tmod n.natAbs := fun k => by
    rcases Int.natAbs_eq n with h | h
    · rw [← h]
    · conv_lhs => rw [h, Int.tmod_neg]
  by_cases hm : m < 0
  · rw [if_pos hm, hn]
    conv_lhs => rw [← neg_neg m, Int.neg_tmod, ← Int.ofNat_natAbs_of_nonpos hm.le, ← Int.ofNat_tmod]
  · rw [if_neg hm, hn]
    conv_lhs => rw [← Int.natAbs_of_nonneg (not_lt.mp hm), ← Int.ofNat_tmod]

theorem IntFormat.contains_tmod {T : IntFormat} (hsig : T.signed = true) {m n : ℤ}
    (hm : T.Contains m) (hn : T.Contains n) (hzero : n ≠ 0) : T.Contains (m.tmod n) := by
  have hmin := T.two_mul_min hsig
  obtain ⟨hm₁, hm₂⟩ := hm
  obtain ⟨hn₁, hn₂⟩ := hn
  have habs := Int.natAbs_tmod m n
  have hlt := Nat.mod_lt m.natAbs (Int.natAbs_pos.mpr hzero)
  exact ⟨by omega, by omega⟩

section Signed

variable {α : Type} {T : ScalarType} {toNat : α → ℕ} {isNeg isZero : α → Bool}
  {neg : α → α} {divmod : α → α → Except String (α × α)}

theorem SignedWords.mod_eq (hsig : SignedWords T toNat isNeg neg)
    (hwrd : DividingWords T toNat isZero divmod) {x y : α} (hy : convert T (toNat y) ≠ 0) :
    ∃ r, signedMod isNeg neg divmod x y = .ok r ∧
      convert T (toNat r) = (convert T (toNat x)).tmod (convert T (toNat y)) := by
  have hmagY := hsig.toNat_magnitude hwrd y
  obtain ⟨s, hs, -, hrem⟩ := hwrd.divmod_eq (x := if isNeg x then neg x else x)
    (y := if isNeg y then neg y else y) (by rw [hmagY]; exact Int.natAbs_ne_zero.mpr hy)
  rw [hmagY, hsig.toNat_magnitude hwrd x] at hrem
  have hin := IntFormat.contains_tmod hsig.signed (contains_convert T (toNat x))
    (contains_convert T (toNat y)) hy
  refine ⟨if isNeg x then neg s.2 else s.2, ?_, ?_⟩
  · rw [signedMod, hs]
    rfl
  · rw [← convert_of_contains hin, tmod_natAbs, ← hrem]
    simp only [← hsig.isNeg_iff_value hwrd]
    split_ifs
    · rw [hsig.value_neg]
      exact convert_congr (convert_modEq T _).neg
    · rfl

/-- A quotient truncated toward zero and the remainder with the sign of the dividend, for every
divisor but zero and every quotient that the type has. -/
def TruncatedDivision (T : ScalarType) (value : α → ℤ) (div mod : α → α → Except String α) : Prop :=
  ∀ left right, value right ≠ 0 → T.format.Contains ((value left).tdiv (value right)) →
    ∃ quotient remainder, div left right = .ok quotient ∧ mod left right = .ok remainder ∧
      value quotient = (value left).tdiv (value right) ∧
      value remainder = (value left).tmod (value right) ∧
      value left = value quotient * value right + value remainder

theorem SignedWords.truncatedDivision (hsig : SignedWords T toNat isNeg neg)
    (hwrd : DividingWords T toNat isZero divmod) :
    TruncatedDivision T (fun x => convert T (toNat x)) (signedDiv isNeg neg divmod)
      (signedMod isNeg neg divmod) := by
  intro left right hrgt hin
  obtain ⟨q, hq, hquot⟩ := hsig.div_eq hwrd (x := left) hrgt
  obtain ⟨r, hr, hrem⟩ := hsig.mod_eq hwrd (x := left) hrgt
  rw [convert_of_contains hin] at hquot
  refine ⟨q, r, hq, hr, hquot, hrem, ?_⟩
  have hspl := Int.mul_tdiv_add_tmod (convert T (toNat left)) (convert T (toNat right))
  dsimp only at hquot ⊢
  rw [hquot, hrem, mul_comm, hspl]

end Signed

/-- The long divisions of u128 and u256 divide, and the signed divisions of i128 and i256
truncate. -/
theorem wide_division : LongDivides Words128.toNat u128Divmod u128DivmodStep 128 u128Zero ∧
    LongDivides Words256.toNat u256Divmod u256DivmodStep 256 u256Zero ∧
    TruncatedDivision .i128 (Words128.value .i128) i128Div i128Mod ∧
    TruncatedDivision .i256 (Words256.value .i256) i256Div i256Mod :=
  ⟨longDivides_u128, longDivides_u256, signed_i128.truncatedDivision (dividing_128 rfl),
    signed_i256.truncatedDivision (dividing_256 rfl)⟩

/-- Minus seven divided by two is minus three, and leaves minus one. -/
example : i128Div ⟨0xFFFFFFFFFFFFFFF9, 0xFFFFFFFFFFFFFFFF⟩ ⟨2, 0⟩ =
      .ok ⟨0xFFFFFFFFFFFFFFFD, 0xFFFFFFFFFFFFFFFF⟩ ∧
    i128Mod ⟨0xFFFFFFFFFFFFFFF9, 0xFFFFFFFFFFFFFFFF⟩ ⟨2, 0⟩ =
      .ok ⟨0xFFFFFFFFFFFFFFFF, 0xFFFFFFFFFFFFFFFF⟩ := by
  decide +kernel

end Grayscale
