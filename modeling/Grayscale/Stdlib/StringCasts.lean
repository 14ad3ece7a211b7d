import Grayscale.Stdlib.WideParse
import Grayscale.Library.StringToInteger

/-!
# Unsigned integers from strings

`gray_builtin_string_to_u64`, the cast of a string to `u64`: it skips white space of its own, looks
for a minus sign and hands the rest to `strtoull`, which skips more white space and takes a sign of
its own.
-/

namespace Grayscale

open DecimalText List

/-! ### The function -/

def grayBuiltinStringToU64 (string : Text) : Except String ℤ :=
  if string.contains 0 then .error "P0084"
  else
    let cursor := string.dropWhile skipped
    let isNegative := byteAt cursor 0 == byte '-'
    let digits := if isNegative then cursor.drop 1 else cursor
    if isNegative && !isdigit (byteAt digits 0) then .error "P0084"
    else
      let result := strtoull digits
      if result.rest.length = digits.length || !onlySpacesRemain result.rest then .error "P0084"
      else if result.isRangeError || isNegative && result.value != 0 then .error "P0136"
      else .ok result.value

/-! ### The texts of integers -/

/-- A text of white space, a sign that may be left out, digits and spaces, and its integer. -/
inductive DecimalString : Text → ℤ → Prop
  | mk (space sign digits tail : Text) (hspace : ∀ c ∈ space, isspace c = true)
      (hsign : sign = [] ∨ sign = [byte '+'] ∨ sign = [byte '-']) (hne : digits ≠ [])
      (hdigits : ∀ c ∈ digits, isdigit c = true) (htail : ∀ c ∈ tail, c = byte ' ') :
      DecimalString (space ++ (sign ++ (digits ++ tail))) (signedNumber (sign == [byte '-']) digits)

/-- The first byte that the function does not skip is white space too. -/
def HidesSign (string : Text) : Prop := isspace (byteAt (string.dropWhile skipped) 0) = true

/-- A cast that is accepted gives the integer of the text, which is none below zero. -/
def IsWrittenCast (string : Text) : Prop := ∀ value, grayBuiltinStringToU64 string = .ok value →
    (0 ≤ value ∧ value < 2 ^ 64 ∧ DecimalString string value) ∧ ∀ n, DecimalString string n → 0 ≤ n

theorem not_isdigit_of_mem_head {tail : Text} (htail : ∀ c ∈ tail, c = byte ' ') :
    ∀ c ∈ tail.head?, isdigit c = false := by
  intro c hc
  rw [htail c (mem_of_mem_head? hc)]
  decide

theorem DecimalString.unique {s : Text} {m n : ℤ} (hm : DecimalString s m) (hn : DecimalString s n) :
    m = n := by
  obtain ⟨space, sign, digits, tail, hsp, hsign, hne, hdig, htail⟩ := hm
  generalize hs : space ++ (sign ++ (digits ++ tail)) = s at hn
  obtain ⟨space', sign', digits', tail', hsp', hsign', hne', hdig', htail'⟩ := hn
  have hleft := strtoSubject_decimal hsp hsign hne hdig (not_isdigit_of_mem_head htail)
  have hrgt := strtoSubject_decimal hsp' hsign' hne' hdig' (not_isdigit_of_mem_head htail')
  rw [hs, hrgt, Option.some.injEq, Prod.mk.injEq, Prod.mk.injEq] at hleft
  rw [hleft.1, hleft.2.1]

theorem signedNumber_false (digits : Text) : signedNumber false digits = read 0 digits :=
  if_neg Bool.false_ne_true

theorem signedNumber_true (digits : Text) : signedNumber true digits = -(read 0 digits : ℤ) :=
  if_pos rfl

theorem skipped_isspace : ∀ c : UInt8, skipped c = true → isspace c = true :=
  forall_byte (by decide +kernel)

theorem strtoull_ok {digits : Text} (hend : (strtoull digits).rest.length ≠ digits.length)
    (hsps : onlySpacesRemain (strtoull digits).rest = true)
    (hrng : (strtoull digits).isRangeError = false) :
    ∃ space sign number tail, digits = space ++ (sign ++ (number ++ tail)) ∧
      (∀ c ∈ space, isspace c = true) ∧ (sign = [] ∨ sign = [byte '+'] ∨ sign = [byte '-']) ∧
      number ≠ [] ∧ (∀ c ∈ number, isdigit c = true) ∧ (∀ c ∈ tail, c = byte ' ') ∧
      (read 0 number : ℤ) < 2 ^ 64 ∧
      (strtoull digits).value = signedNumber (sign == [byte '-']) number % 2 ^ 64 := by
  unfold strtoull at hend hsps hrng ⊢
  cases h : strtoSubject digits with
  | none =>
    rw [h] at hend
    exact absurd rfl hend
  | some subject =>
    obtain ⟨isNegative, number, tail⟩ := subject
    obtain ⟨space, sign, hdig, hsp, hsign, rfl, hne, hnum⟩ := strtoSubject_eq_some h
    simp only [h] at hsps hrng ⊢
    split_ifs at hsps hrng ⊢ with hmax
    refine ⟨space, sign, number, tail, hdig, hsp, hsign, hne, hnum, ?_, by omega, rfl⟩
    exact fun c hc => eq_of_beq (all_eq_true.mp hsps c hc)

theorem grayBuiltinStringToU64_ok {string : Text} {value : ℤ}
    (h : grayBuiltinStringToU64 string = .ok value) :
    DecimalString string value ∧ 0 ≤ value ∧ value < 2 ^ 64 ∨
      HidesSign string ∧ ∃ n, DecimalString string n ∧ -2 ^ 64 < n ∧ n < 0 := by
  have hspl := takeWhile_append_dropWhile (p := skipped) (l := string)
  have hbla : ∀ c ∈ string.takeWhile skipped, isspace c = true := fun c hc =>
    skipped_isspace c (mem_takeWhile_imp hc)
  unfold HidesSign
  unfold grayBuiltinStringToU64 at h
  obtain ⟨cursor, hcur⟩ : ∃ cursor, cursor = string.dropWhile skipped := ⟨_, rfl⟩
  rw [← hcur] at hspl ⊢
  simp only [← hcur] at h
  by_cases hminus : byteAt cursor 0 = byte '-'
  · -- the function has seen the sign, and the number is zero
    obtain ⟨rest, rfl⟩ := cons_of_byteAt hminus (by decide)
    simp only [byteAt_zero, beq_self_eq_true, if_true, drop_succ_cons, drop_zero,
      Bool.true_and] at h
    split_ifs at h with hnul hdigit hend hrng
    rw [Except.ok.injEq] at h
    rw [Bool.or_eq_true, not_or, decide_eq_true_eq, Bool.not_eq_true, Bool.not_eq_false'] at hend
    rw [Bool.or_eq_true, not_or, Bool.not_eq_true] at hrng
    obtain ⟨space, sign, number, tail, hdig, hsp, hsign, hne, hnum, htail, hmax, hval⟩ :=
      strtoull_ok hend.1 hend.2 hrng.1
    have hfst : isdigit (byteAt rest 0) = true := by simpa using hdigit
    have hzero : value = 0 := by simpa [h] using hrng.2
    obtain rfl : space = [] := by
      cases space with
      | nil => rfl
      | cons c space =>
        rw [hdig, cons_append, byteAt_zero] at hfst
        exact absurd (hsp c mem_cons_self) (by rw [isspace_of_isdigit hfst]; decide)
    obtain rfl : sign = [] := by
      rcases hsign with rfl | rfl | rfl
      · rfl
      all_goals
        rw [hdig, nil_append, singleton_append, byteAt_zero] at hfst
        exact absurd hfst (by decide)
    have hread : (read 0 number : ℤ) = 0 := by
      rw [h, hzero, show (([] : Text) == [byte '-']) = false from rfl, signedNumber_false] at hval
      omega
    refine .inl ⟨?_, by omega, by omega⟩
    have hstr := DecimalString.mk (string.takeWhile skipped) [byte '-'] number tail hbla
      (.inr (.inr rfl)) hne hnum htail
    rw [nil_append, nil_append] at hdig
    rw [← hdig, beq_self_eq_true, signedNumber_true, hread, singleton_append, hspl] at hstr
    rw [hzero]
    exact hstr
  · have hneg : (byteAt cursor 0 == byte '-') = false := beq_eq_false_iff_ne.mpr hminus
    simp only [hneg, Bool.false_eq_true, if_false, Bool.false_and, Bool.or_false] at h
    split_ifs at h with hnul hend hrng
    rw [Except.ok.injEq] at h
    rw [Bool.or_eq_true, not_or, decide_eq_true_eq, Bool.not_eq_true, Bool.not_eq_false'] at hend
    obtain ⟨space, sign, number, tail, hdig, hsp, hsign, hne, hnum, htail, hmax, hval⟩ :=
      strtoull_ok hend.1 hend.2 (Bool.not_eq_true _ ▸ hrng)
    have hstr := DecimalString.mk (string.takeWhile skipped ++ space) sign number tail
      (fun c hc => (mem_append.mp hc).elim (hbla c) (hsp c)) hsign hne hnum htail
    rw [append_assoc, ← hdig, hspl] at hstr
    by_cases hsignNeg : sign = [byte '-']
    · subst hsignNeg
      rw [beq_self_eq_true, signedNumber_true] at hstr hval
      by_cases hread : (read 0 number : ℤ) = 0
      · rw [hread] at hstr hval
        exact .inl ⟨by rw [← h, hval]; exact hstr, by omega, by omega⟩
      · -- the sign stands behind white space that only `strtoull` skips
        refine .inr ⟨?_, _, hstr, by omega, by omega⟩
        cases space with
        | nil =>
          rw [hdig] at hminus
          exact absurd rfl hminus
        | cons c space =>
          rw [hdig]
          exact hsp c mem_cons_self
    · rw [beq_eq_false_iff_ne.mpr hsignNeg, signedNumber_false] at hstr hval
      rw [Int.emod_eq_of_lt (by omega) hmax] at hval
      exact .inl ⟨by rw [← h, hval]; exact hstr, by omega, by omega⟩

theorem grayBuiltinStringToU64_hidden {string : Text} {n : ℤ} (hhidden : HidesSign string)
    (hstr : DecimalString string n) (hlow : -2 ^ 64 < n) (hneg : n < 0) :
    grayBuiltinStringToU64 string = .ok (2 ^ 64 + n) := by
  obtain ⟨space, sign, digits, tail, hsp, hsign, hne, hdig, htail⟩ := hstr
  obtain rfl : sign = [byte '-'] := by
    by_contra hnot
    rw [beq_eq_false_iff_ne.mpr hnot, signedNumber_false] at hneg
    omega
  rw [beq_self_eq_true, signedNumber_true] at hlow hneg ⊢
  have hnul : (space ++ ([byte '-'] ++ (digits ++ tail))).contains 0 = false := by
    rw [← Bool.not_eq_true, contains_iff_mem]
    simp only [mem_append, mem_singleton]
    rintro (h | h | h | h)
    · exact absurd (hsp 0 h) (by decide)
    · exact absurd h (by decide)
    · exact absurd (hdig 0 h) (by decide)
    · exact absurd (htail 0 h) (by decide)
  -- The white space that is left is not empty.
  obtain ⟨space', hcur, hsp'⟩ : ∃ space',
      (space ++ ([byte '-'] ++ (digits ++ tail))).dropWhile skipped =
        space' ++ ([byte '-'] ++ (digits ++ tail)) ∧ ∀ c ∈ space', isspace c = true := by
    refine ⟨space.dropWhile skipped, ?_, fun c hc =>
      hsp c ((dropWhile_sublist _).mem hc)⟩
    rw [dropWhile_append]
    split_ifs with hemp
    · rw [List.isEmpty_iff.mp hemp]
      rfl
    · rfl
  have hfst : byteAt (space' ++ ([byte '-'] ++ (digits ++ tail))) 0 ≠ byte '-' := by
    intro hminus
    rw [HidesSign, hcur, hminus] at hhidden
    exact absurd hhidden (by decide)
  have hsubject := strtoSubject_decimal hsp' (.inr (.inr rfl)) hne hdig
    (not_isdigit_of_mem_head htail)
  have htailSpaces : onlySpacesRemain tail = true :=
    all_eq_true.mpr fun c hc => beq_iff_eq.mpr (htail c hc)
  have hlen : tail.length ≠ (space' ++ ([byte '-'] ++ (digits ++ tail))).length := by
    have := length_pos_iff.mpr hne
    simp only [length_append]
    omega
  have hres : strtoull (space' ++ ([byte '-'] ++ (digits ++ tail))) =
      ⟨2 ^ 64 + -(read 0 digits : ℤ), tail, false⟩ := by
    rw [strtoull, hsubject, beq_self_eq_true]
    simp only [signedNumber_true]
    rw [if_neg (by omega)]
    congr 1
    omega
  rw [grayBuiltinStringToU64, hnul, if_neg Bool.false_ne_true, hcur]
  have hminus := beq_eq_false_iff_ne.mpr hfst
  simp only [hminus, Bool.false_eq_true, if_false, Bool.false_and, Bool.or_false, hres, hlen,
    decide_false, htailSpaces, Bool.not_true]

/-- A cast is the number that the string writes, except where a number between `-2 ^ 64` and 0
hides its sign. -/
theorem grayBuiltinStringToU64_iff (string : Text) : IsWrittenCast string ↔
      ¬ (HidesSign string ∧ ∃ n, DecimalString string n ∧ -2 ^ 64 < n ∧ n < 0) := by
  constructor
  · rintro hcast ⟨hhidden, n, hstr, hlow, hneg⟩
    have hpos := (hcast _ (grayBuiltinStringToU64_hidden hhidden hstr hlow hneg)).2 n hstr
    omega
  · intro hnot value hval
    rcases grayBuiltinStringToU64_ok hval with ⟨hstr, hlow, hhigh⟩ | hhidden
    · exact ⟨⟨hlow, hhigh, hstr⟩, fun n hn => by rw [hn.unique hstr]; exact hlow⟩
    · exact absurd hhidden hnot

/-- The carriage return is skipped by `strtoull` only. -/
theorem not_isWrittenCast_return : ¬ ∀ string : Text, string.length < 2 ^ 31 → IsWrittenCast string := by
  intro h
  have hstr := DecimalString.mk (bytes "\r") [byte '-'] (bytes "5") []
    (by decide +kernel) (by decide) (by decide) (by decide +kernel) (by simp)
  exact absurd ((h (bytes "\r-5") (by decide) (2 ^ 64 - 5) rfl).2 _ hstr) (by decide)

end Grayscale
