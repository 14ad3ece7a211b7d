import Grayscale.Stdlib.Time
import Mathlib.NumberTheory.LucasPrimality
import Mathlib.Tactic.NormNum.Prime
import Mathlib.Tactic.ReduceModChar

/-!
# Divisors, primes and ranges of random integers

`gray_math_gcd`, `gray_math_lcm` and `gray_math_is_prime` of `stdlib/math.c`, and
`gray_random_i64_range` of `stdlib/random.c`.
-/

namespace Grayscale

/-! ### The functions -/

/-- The magnitude of an `int64_t` as a `uint64_t`, by an unsigned negation. -/
def magnitudeI64 (value : ℤ) : ℕ :=
  if value < 0 then ((0 - value % 2 ^ 64) % 2 ^ 64).toNat else (value % 2 ^ 64).toNat

/-- The loop of `gray_math_gcd`. -/
def gcdLoop (first second : ℕ) : ℕ := if second = 0 then first else gcdLoop second (first % second)
termination_by second
decreasing_by exact Nat.mod_lt _ (by omega)

def grayMathGcd (left right : ℤ) : Except String ℤ :=
  let first := gcdLoop (magnitudeI64 left) (magnitudeI64 right)
  if 2 ^ 63 - 1 < first then .error "P0007" else .ok first

def grayMathLcm (left right : ℤ) : Except String ℤ :=
  if left = 0 ∨ right = 0 then .ok 0
  else grayMathGcd left right >>= fun divisor =>
    (cInt64 (left.tdiv divisor * right)).elim (.error "P0006") .ok

/-- The loop of `gray_math_is_prime`; `none` once `i * i` overflows. -/
def isPrimeLoop (number i : ℤ) : Option Bool :=
  if cInt64 (i * i) = none then none
  else if number < i * i then some true
  else if number.tmod i = 0 ∨ number.tmod (i + 2) = 0 then some false
  else isPrimeLoop number (i + 6)
termination_by (number + 1 - i).toNat
decreasing_by
  have hle : i ≤ i * i := by nlinarith [sq_nonneg (i - 1), sq_nonneg i]
  omega

def grayMathIsPrime (number : ℤ) : Option Bool :=
  if number < 2 then some false
  else if number < 4 then some true
  else if number.tmod 2 = 0 ∨ number.tmod 3 = 0 then some false
  else isPrimeLoop number 5

/-- `gray_random_i64_range` for the word that `rand64` draws; `none` when a signed value of the
computation is not one of `int64_t`. -/
def grayRandomI64Range (draw : UInt64) (minimum maximum : ℤ) : Except String (Option ℤ) :=
  if maximum ≤ minimum then .error "P0134"
  else .ok do
    let width ← cInt64 (maximum - minimum)
    let offset ← cInt64 (draw.toNat % width)
    cInt64 (minimum + offset)

/-! ### The statements -/

def ReturnsGcd (left right : ℤ) : Prop := grayMathGcd left right =
    if left.gcd right = 2 ^ 63 then .error "P0007" else .ok (left.gcd right)

def ReturnsLcm (left right : ℤ) : Prop :=
  if left.lcm right ≤ 2 ^ 63 - 1 then grayMathLcm left right = .ok (left.lcm right)
  else ∃ code, grayMathLcm left right = .error code

/-- A number is tested for being prime without an overflow. -/
def DecidesPrime (number : ℤ) : Prop := grayMathIsPrime number = some (decide number.toNat.Prime)

def StaysInRange (draw : UInt64) (minimum maximum : ℤ) : Prop :=
  ∃ value, grayRandomI64Range draw minimum maximum = .ok (some value) ∧ minimum ≤ value ∧
    value < maximum

/-! ### Divisors -/

theorem magnitudeI64_eq {value : ℤ} (hlow : -2 ^ 63 ≤ value) (hhigh : value < 2 ^ 63) :
    magnitudeI64 value = value.natAbs := by
  rw [magnitudeI64]
  split_ifs <;> omega

theorem gcdLoop_eq (first second : ℕ) : gcdLoop first second = first.gcd second := by
  fun_induction gcdLoop first second with
  | case1 first => rw [Nat.gcd_zero_right]
  | case2 first second hne ih => rw [ih, Nat.gcd_comm, ← Nat.gcd_rec, Nat.gcd_comm]

variable (left right : Int64)

theorem grayMathGcd_eq : grayMathGcd left.toInt right.toInt =
    if 2 ^ 63 - 1 < left.toInt.gcd right.toInt then .error "P0007"
      else .ok (left.toInt.gcd right.toInt) := by
  rw [grayMathGcd, gcdLoop_eq, magnitudeI64_eq left.le_toInt left.toInt_lt,
    magnitudeI64_eq right.le_toInt right.toInt_lt]
  rfl

theorem gcd_le : left.toInt.gcd right.toInt ≤ 2 ^ 63 := by
  have hlow := left.le_toInt
  have hhigh := left.toInt_lt
  rcases eq_or_ne left.toInt 0 with hleft | hleft
  · have hlow' := right.le_toInt
    have hhigh' := right.toInt_lt
    rw [hleft, Int.gcd_zero_left]
    omega
  · have hle := Nat.le_of_dvd (by omega) (Int.gcd_dvd_natAbs_left left.toInt right.toInt)
    omega

theorem returnsGcd : ReturnsGcd left.toInt right.toInt := by
  have hle := gcd_le left right
  rw [ReturnsGcd, grayMathGcd_eq]
  split_ifs <;> first | rfl | omega

theorem natAbs_quotient_mul {a b : ℤ} (ha : a ≠ 0) : (a.tdiv (a.gcd b) * b).natAbs = a.lcm b ∧
      (0 < a * b → 0 < a.tdiv (a.gcd b) * b) ∧ (a * b < 0 → a.tdiv (a.gcd b) * b < 0) := by
  obtain ⟨c, hc⟩ := Int.gcd_dvd_left a b
  have hpos : 0 < a.gcd b := Int.gcd_pos_of_ne_zero_left b ha
  have hpos' : (0 : ℤ) < a.gcd b := by exact_mod_cast hpos
  have hquot : a.tdiv (a.gcd b) = c := Int.tdiv_eq_of_eq_mul_right hpos'.ne' hc
  have hprod : a * b = a.gcd b * (c * b) := (congrArg (· * b) hc).trans (mul_assoc ..)
  rw [hquot]
  refine ⟨Nat.eq_of_mul_eq_mul_left hpos ?_, fun h => ?_, fun h => ?_⟩
  · rw [Int.gcd_mul_lcm, ← Int.natAbs_mul a, hprod, Int.natAbs_mul (a.gcd b), Int.natAbs_natCast]
  · rw [hprod] at h
    exact pos_of_mul_pos_right h hpos'.le
  · rw [hprod] at h
    exact neg_of_mul_neg_right h hpos'.le

theorem no_common_multiple_iff {a b : ℤ} (h : a * b ≠ 0) (bound : ℕ) :
    (∀ m : ℕ, 0 < m → m ≤ bound → ¬ (a ∣ m ∧ b ∣ m)) ↔ bound < a.lcm b := by
  have hpos : 0 < a.lcm b := Int.lcm_pos (left_ne_zero_of_mul h) (right_ne_zero_of_mul h)
  constructor
  · intro hnone
    by_contra hle
    exact hnone _ hpos (by omega) ⟨Int.dvd_lcm_left a b, Int.dvd_lcm_right a b⟩
  · rintro hlt m hm hle ⟨ha, hb⟩
    have hdvd : a.lcm b ∣ m := by exact_mod_cast Int.lcm_dvd ha hb
    have := Nat.le_of_dvd hm hdvd
    omega

theorem grayMathLcm_eq {left right : Int64} (h : left.toInt * right.toInt ≠ 0) :
    grayMathLcm left.toInt right.toInt =
      if 2 ^ 63 - 1 < left.toInt.gcd right.toInt then .error "P0007"
      else (cInt64 (left.toInt.tdiv (left.toInt.gcd right.toInt) * right.toInt)).elim
        (.error "P0006") .ok := by
  rw [grayMathLcm, if_neg (not_or.mpr (mul_ne_zero_iff.mp h)), grayMathGcd_eq]
  split_ifs <;> rfl

theorem returnsLcm_iff : ReturnsLcm left.toInt right.toInt ↔ 0 ≤ left.toInt * right.toInt ∨
      ∀ m : ℕ, 0 < m → m ≤ 2 ^ 63 → ¬ (left.toInt ∣ m ∧ right.toInt ∣ m) := by
  rcases eq_or_ne (left.toInt * right.toInt) 0 with hzero | hne
  · have hlcm : left.toInt.lcm right.toInt = 0 := Int.lcm_eq_zero_iff.mpr (mul_eq_zero.mp hzero)
    refine iff_of_true ?_ (.inl hzero.ge)
    rw [ReturnsLcm, hlcm, if_pos (by decide), grayMathLcm, if_pos (mul_eq_zero.mp hzero)]
    rfl
  rw [no_common_multiple_iff hne, ReturnsLcm, grayMathLcm_eq hne]
  obtain ⟨hval, hpos, hneg⟩ := @natAbs_quotient_mul _ right.toInt (left_ne_zero_of_mul hne)
  have hgcd : left.toInt.gcd right.toInt ≤ left.toInt.lcm right.toInt :=
    Nat.le_of_dvd (Int.lcm_pos (left_ne_zero_of_mul hne) (right_ne_zero_of_mul hne))
      ((Int.gcd_dvd_natAbs_left ..).trans (Int.natAbs_dvd_lcm_left ..))
  generalize left.toInt.tdiv (left.toInt.gcd right.toInt) * right.toInt = product at *
  by_cases hbig : 2 ^ 63 - 1 < left.toInt.gcd right.toInt
  · -- Both numbers are the least one.
    have hleft := Nat.le_of_dvd (Int.natAbs_pos.mpr (left_ne_zero_of_mul hne))
      (Int.gcd_dvd_natAbs_left left.toInt right.toInt)
    have hrgt := Nat.le_of_dvd (Int.natAbs_pos.mpr (right_ne_zero_of_mul hne))
      (Int.gcd_dvd_natAbs_right left.toInt right.toInt)
    have hnegative : left.toInt < 0 ∧ right.toInt < 0 := by
      have hhigh := left.toInt_lt
      have hhigh' := right.toInt_lt
      omega
    rw [if_pos hbig, if_neg (by omega)]
    exact iff_of_true ⟨_, rfl⟩ (.inl (mul_pos_of_neg_of_neg hnegative.1 hnegative.2).le)
  · rw [if_neg hbig, cInt64]
    rcases lt_or_gt_of_ne hne with hsign | hsign
    · have hprod := hneg hsign
      split_ifs with hsml hfits hfits
      · have hval' : product ≠ left.toInt.lcm right.toInt := by omega
        refine iff_of_false (fun h => hval' (Except.ok.inj h)) ?_
        omega
      · omega
      · refine iff_of_false (fun ⟨code, h⟩ => nomatch h) ?_
        omega
      · refine iff_of_true ⟨_, rfl⟩ (.inr ?_)
        omega
    · have hprod := hpos hsign
      refine iff_of_true ?_ (.inl hsign.le)
      split_ifs with hsml hfits hfits
      · exact congrArg Except.ok (by omega)
      · omega
      · omega
      · exact ⟨_, rfl⟩

/-- The divisor and the multiple are the mathematical ones, except for two numbers of opposite
signs with a common multiple in range: the multiple is returned with a minus sign. -/
theorem grayMath_gcd_lcm_iff :
    (ReturnsGcd left.toInt right.toInt ∧ ReturnsLcm left.toInt right.toInt) ↔
      0 ≤ left.toInt * right.toInt ∨
        ∀ m : ℕ, 0 < m → m ≤ 2 ^ 63 → ¬ (left.toInt ∣ m ∧ right.toInt ∣ m) :=
  (and_iff_right (returnsGcd left right)).trans (returnsLcm_iff left right)

theorem not_returnsLcm_opposite : ¬ (ReturnsGcd (Int64.toInt 4) (Int64.toInt (-6)) ∧
      ReturnsLcm (Int64.toInt 4) (Int64.toInt (-6))) := by
  rw [and_iff_right (returnsGcd 4 (-6)), returnsLcm_iff]
  rintro (h | h)
  · exact absurd h (by decide)
  · exact h 12 (by decide) (by decide) (by decide)

/-! ### Primes -/

/-- One of six numbers behind a round is tested, another one is, and four are multiples of 2 or 3. -/
theorem not_dvd_below_add_six {n i : ℕ} (hi : i % 6 = 5) (htwo : ¬ 2 ∣ n) (hthree : ¬ 3 ∣ n)
    (hbelow : ∀ d, 2 ≤ d → d < i → ¬ d ∣ n) (hfst : ¬ i ∣ n) (hsnd : ¬ i + 2 ∣ n) :
    ∀ d, 2 ≤ d → d < i + 6 → ¬ d ∣ n := by
  intro d hd hlt hdvd
  have heven : ¬ 2 ∣ d := fun h => htwo (h.trans hdvd)
  have hmul : ¬ 3 ∣ d := fun h => hthree (h.trans hdvd)
  have hne : d ≠ i := fun h => hfst (h ▸ hdvd)
  have hne' : d ≠ i + 2 := fun h => hsnd (h ▸ hdvd)
  have hle : ¬ d < i := fun h => hbelow d hd h hdvd
  omega

theorem prime_of_not_dvd_below {n i : ℕ} (hn : 2 ≤ n) (hlt : n < i * i)
    (hbelow : ∀ d, 2 ≤ d → d < i → ¬ d ∣ n) : n.Prime := by
  by_contra hnot
  have hsq := Nat.minFac_sq_le_self (by omega) hnot
  refine hbelow n.minFac (Nat.minFac_prime (by omega)).two_le ?_ (Nat.minFac_dvd n)
  exact Nat.mul_self_lt_mul_self_iff.mp ((sq n.minFac ▸ hsq).trans_lt hlt)

theorem tmod_natCast_eq_zero_iff (n d : ℕ) : (n : ℤ).tmod d = 0 ↔ d ∣ n := by
  rw [← Int.dvd_iff_tmod_eq_zero, Int.natCast_dvd_natCast]

/-- The tests of the loop end before its bound overflows: a number below the square of the last
candidate, or a divisor that is tried. -/
def EndsInRange (number : ℤ) : Prop :=
  number < 3037000499 ^ 2 ∨ ∃ d : ℤ, 2 ≤ d ∧ d ≤ 3037000501 ∧ d ∣ number

theorem endsInRange_of_dvd {n d : ℕ} (hd : 2 ≤ d) (hle : d ≤ 3037000501) (h : d ∣ n) :
    EndsInRange n := .inr ⟨d, by omega, by omega, Int.natCast_dvd_natCast.mpr h⟩

theorem cInt64_square_eq_none_iff (i : ℕ) : cInt64 (i * i) = none ↔ 3037000499 < i := by
  have hbnd : (i : ℤ) * i < 2 ^ 63 ↔ i ≤ 3037000499 := by
    constructor
    · intro h
      by_contra hlt
      have hle := Nat.mul_self_le_mul_self (not_le.mp hlt)
      omega
    · intro h
      have hle := Nat.mul_self_le_mul_self h
      omega
  rw [← not_le, ← hbnd, cInt64]
  split_ifs with h
  · exact iff_of_false nofun (not_not.mpr h.2)
  · exact iff_of_true rfl fun hlt => h ⟨(Int.neg_nonpos_of_nonneg (by decide)).trans (by positivity), hlt⟩

/-- The invariant of a round: no divisor below the candidate, and the round before was in the
bound. -/
theorem isPrimeLoop_iff {n : ℕ} (htwo : ¬ 2 ∣ n) (hthree : ¬ 3 ∣ n) (hn : 2 ≤ n) (i : ℕ)
    (hi : i % 6 = 5) (hbelow : ∀ d, 2 ≤ d → d < i → ¬ d ∣ n)
    (hbef : i = 5 ∨ (i - 6) * (i - 6) ≤ n) :
    isPrimeLoop n i = some (decide n.Prime) ∧ EndsInRange n ∨
      isPrimeLoop n i = none ∧ ¬ EndsInRange n := by
  induction hk : n + 1 - i using Nat.strong_induction_on generalizing i with
  | _ k ih =>
    rw [isPrimeLoop, show (i : ℤ) + 2 = (i + 2 : ℕ) by omega]
    simp only [tmod_natCast_eq_zero_iff, cInt64_square_eq_none_iff]
    split_ifs with hnone hlt hdvd
    · refine .inr ⟨rfl, ?_⟩
      rintro (hsml | ⟨d, hd, hle, hdvd⟩)
      · have hle := Nat.mul_self_le_mul_self (show 3037000499 ≤ i - 6 by omega)
        omega
      · obtain ⟨d, rfl⟩ := Int.eq_ofNat_of_zero_le (by omega : 0 ≤ d)
        exact hbelow d (by omega) (by omega) (Int.natCast_dvd_natCast.mp hdvd)
    · have hprime := prime_of_not_dvd_below hn (by exact_mod_cast hlt) hbelow
      have hle := Nat.mul_self_le_mul_self (not_lt.mp hnone)
      refine .inl ⟨by rw [decide_eq_true hprime], .inl ?_⟩
      omega
    · have hsquare : i * i ≤ n := by exact_mod_cast not_lt.mp hlt
      have hbig : 5 * i ≤ n := (Nat.mul_le_mul_right i (by omega)).trans hsquare
      obtain ⟨d, hd, hle, hlt', hdvd⟩ : ∃ d, 2 ≤ d ∧ d ≤ 3037000501 ∧ d < n ∧ d ∣ n := by
        rcases hdvd with hdvd | hdvd
        · exact ⟨i, by omega, by omega, by omega, hdvd⟩
        · exact ⟨i + 2, by omega, by omega, by omega, hdvd⟩
      have hnot : ¬ n.Prime := Nat.not_prime_of_dvd_of_lt hdvd hd hlt'
      exact .inl ⟨by rw [decide_eq_false hnot], endsInRange_of_dvd hd hle hdvd⟩
    · rw [not_or] at hdvd
      have hsquare : i * i ≤ n := by exact_mod_cast not_lt.mp hlt
      have hle : i ≤ i * i := Nat.le_mul_self i
      exact ih _ (by omega) (i + 6) (by omega)
        (not_dvd_below_add_six hi htwo hthree hbelow hdvd.1 hdvd.2) (.inr hsquare) rfl

theorem grayMathIsPrime_cases (number : ℤ) :
    grayMathIsPrime number = some (decide number.toNat.Prime) ∧ EndsInRange number ∨
      grayMathIsPrime number = none ∧ ¬ EndsInRange number := by
  rw [grayMathIsPrime]
  by_cases hlow : number < 2
  · have hnot : ¬ number.toNat.Prime := fun h => by
      have := h.two_le
      omega
    rw [if_pos hlow, decide_eq_false hnot]
    exact .inl ⟨rfl, .inl (by omega)⟩
  obtain ⟨n, rfl⟩ := Int.eq_ofNat_of_zero_le (by omega : 0 ≤ number)
  have htwo := tmod_natCast_eq_zero_iff n 2
  have hthree := tmod_natCast_eq_zero_iff n 3
  push_cast at htwo hthree
  simp only [if_neg hlow, htwo, hthree, Int.toNat_natCast]
  split_ifs with hsml hdvd
  · have hprime : n.Prime := by
      obtain rfl | rfl : n = 2 ∨ n = 3 := by omega
      · exact Nat.prime_two
      · exact Nat.prime_three
    rw [decide_eq_true hprime]
    exact .inl ⟨rfl, .inl (by omega)⟩
  · obtain ⟨d, hd, hle, hdvd⟩ : ∃ d, 2 ≤ d ∧ d ≤ 3 ∧ d ∣ n := by
      rcases hdvd with hdvd | hdvd
      · exact ⟨2, by omega, by omega, hdvd⟩
      · exact ⟨3, by omega, by omega, hdvd⟩
    rw [decide_eq_false (Nat.not_prime_of_dvd_of_lt hdvd hd (by omega))]
    exact .inl ⟨rfl, endsInRange_of_dvd hd (by omega) hdvd⟩
  · rw [not_or] at hdvd
    refine isPrimeLoop_iff hdvd.1 hdvd.2 (by omega) 5 rfl (fun d hd hlt hdvd' => ?_) (.inl rfl)
    obtain rfl | rfl | rfl : d = 2 ∨ d = 3 ∨ d = 4 := by omega
    · exact hdvd.1 hdvd'
    · exact hdvd.2 hdvd'
    · exact hdvd.1 (dvd_trans (by decide) hdvd')

theorem decidesPrime_iff (number : Int64) :
    DecidesPrime number.toInt ↔ number.toInt < 9223372030926249001 ∨
      ∃ d : ℤ, 2 ≤ d ∧ d ≤ 3037000501 ∧ d ∣ number.toInt := by
  have hrng : EndsInRange number.toInt ↔ number.toInt < 9223372030926249001 ∨
      ∃ d : ℤ, 2 ≤ d ∧ d ≤ 3037000501 ∧ d ∣ number.toInt := by
    rw [EndsInRange]
    norm_num
  rw [← hrng, DecidesPrime]
  rcases grayMathIsPrime_cases number.toInt with ⟨h, hends⟩ | ⟨h, hends⟩
  · exact iff_of_true h hends
  · refine iff_of_false (fun hsome => ?_) hends
    rw [h] at hsome
    cases hsome

theorem prime_9223372031452512257 : Nat.Prime 9223372031452512257 := by
  have hfactors : 9223372031452512257 - 1 = 2 ^ 25 * 937 * 5857 * 50087 := rfl
  have hprime : ∀ r : ℕ, r.Prime → ∀ q : ℕ, q.Prime → (q ∣ r ↔ q = r) := fun r hr q hq =>
    Nat.prime_dvd_prime_iff_eq hq hr
  refine lucas_primality _ 3 (by reduce_mod_char) fun q hq hdvd => ?_
  rw [hfactors, hq.dvd_mul, hq.dvd_mul, hq.dvd_mul, hprime 937 (by norm_num) q hq,
    hprime 5857 (by norm_num) q hq, hprime 50087 (by norm_num) q hq] at hdvd
  rcases hdvd with ((h | rfl) | rfl) | rfl
  · obtain rfl := (hprime 2 Nat.prime_two q hq).mp (hq.dvd_of_dvd_pow h)
    reduce_mod_char
    decide +kernel
  · reduce_mod_char
    decide +kernel
  · reduce_mod_char
    decide +kernel
  · reduce_mod_char
    decide +kernel

theorem not_decidesPrime_large : ¬ DecidesPrime (Int64.toInt 9223372031452512257) := by
  have hends : ¬ EndsInRange 9223372031452512257 := by
    rintro (h | ⟨d, hd, hle, hdvd⟩)
    · omega
    · obtain ⟨d, rfl⟩ := Int.eq_ofNat_of_zero_le (by omega : 0 ≤ d)
      have hdvd' : d ∣ 9223372031452512257 := by exact_mod_cast hdvd
      rcases (Nat.dvd_prime prime_9223372031452512257).mp hdvd' with h | h <;> omega
  intro h
  rcases grayMathIsPrime_cases 9223372031452512257 with ⟨-, h'⟩ | ⟨hnone, -⟩
  · exact hends h'
  · exact nomatch hnone.symm.trans h

/-! ### Ranges -/

theorem staysInRange_iff (draw : UInt64) (minimum maximum : Int64)
    (h : minimum.toInt < maximum.toInt) : StaysInRange draw minimum.toInt maximum.toInt ↔
      maximum.toInt - minimum.toInt < 2 ^ 63 := by
  have hlow := minimum.le_toInt
  have hhigh := maximum.toInt_lt
  constructor
  · rintro ⟨value, hval, -⟩
    by_contra hwide
    rw [grayRandomI64Range, if_neg (by omega), cInt64, if_neg (by omega)] at hval
    exact nomatch hval
  · intro hwide
    have hoffset := Int.emod_nonneg draw.toNat
      (show maximum.toInt - minimum.toInt ≠ 0 by omega)
    have hoffset' := Int.emod_lt_of_pos draw.toNat
      (show 0 < maximum.toInt - minimum.toInt by omega)
    refine ⟨minimum.toInt + draw.toNat % (maximum.toInt - minimum.toInt), ?_, by omega, by omega⟩
    rw [grayRandomI64Range, if_neg (by omega), cInt64_of (by omega) hwide]
    rw [Option.bind_eq_bind, Option.bind_some, cInt64_of (by omega) (by omega),
      Option.bind_some, cInt64_of (by omega) (by omega)]

theorem staysInRange_die : StaysInRange 17 (Int64.toInt 1) (Int64.toInt 7) :=
  (staysInRange_iff 17 1 7 (by decide)).mpr (by decide)

theorem not_staysInRange_all :
    ¬ StaysInRange 0 (Int64.toInt Int64.minValue) (Int64.toInt Int64.maxValue) := by
  rintro ⟨value, hval, -⟩
  rw [grayRandomI64Range, if_neg (by decide), cInt64, if_neg (by decide)] at hval
  exact nomatch hval

end Grayscale
