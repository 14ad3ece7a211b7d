import Grayscale.Library.DecimalText
import Grayscale.Util.Bytes

/-!
# Integers from C strings

`strtoll` and `strtoull` of the C library: white space, a sign, digits, and the value clamped to the
range of the type. First in base ten, then in a base from 2 to 36, whose digits above nine are
letters.
-/

namespace Grayscale.BaseText

open List

/-- The number of a digit; 36 for the bytes that are none in any base. -/
def value (c : UInt8) : ℕ :=
  if isdigit c then (c - byte '0').toNat
  else if byte 'a' ≤ c ∧ c ≤ byte 'z' then (c - byte 'a').toNat + 10
  else if byte 'A' ≤ c ∧ c ≤ byte 'Z' then (c - byte 'A').toNat + 10
  else 36

/-- The digit of a number below 36. -/
def digit (d : ℕ) : UInt8 := if d < 10 then (48 + d).toUInt8 else (87 + d).toUInt8

def isDigitIn (base : ℕ) (c : UInt8) : Bool := value c < base

def render (base n : ℕ) : Text :=
  if n = 0 then [digit 0] else (Nat.digits base n).reverse.map digit

/-- The number that a text of digits stands for. -/
def read (base : ℕ) (l : Text) : ℕ := l.foldl (fun n c => n * base + value c) 0

/-! ### Digits -/

theorem value_digit : ∀ d < 36, value (digit d) = d := by decide +kernel

theorem value_eq_of_special : ∀ c : UInt8,
    c = 0 ∨ isspace c = true ∨ c = byte '-' ∨ c = byte '+' → value c = 36 :=
  forall_byte (by decide +kernel)

section Digits

variable {base : ℕ} {c : UInt8}

theorem isDigitIn_digit {d : ℕ} (hd : d < base) (hbase : base ≤ 36) :
    isDigitIn base (digit d) = true := decide_eq_true (by rwa [value_digit d (hd.trans_le hbase)])

theorem not_special_of_isDigitIn (hbase : base ≤ 36) (h : isDigitIn base c = true) :
    c ≠ 0 ∧ isspace c = false ∧ c ≠ byte '-' ∧ c ≠ byte '+' := by
  have hval : value c < base := of_decide_eq_true h
  have hspec := mt (value_eq_of_special c) (by omega)
  rw [not_or, not_or, not_or, Bool.not_eq_true] at hspec
  exact hspec

end Digits

/-! ### Texts -/

section Texts

variable {base : ℕ} (hlow : 2 ≤ base) (hhigh : base ≤ 36)

include hlow hhigh

theorem isDigitIn_of_mem_render {n : ℕ} {c : UInt8} (h : c ∈ render base n) :
    isDigitIn base c = true := by
  rw [render] at h
  split_ifs at h
  · rw [mem_singleton.mp h]
    exact isDigitIn_digit (by omega) hhigh
  · obtain ⟨d, hd, rfl⟩ := mem_map.mp h
    exact isDigitIn_digit (Nat.digits_lt_base hlow (mem_reverse.mp hd)) hhigh

theorem read_render (n : ℕ) : read base (render base n) = n := by
  have hdig : ∀ l : List ℕ, (∀ d ∈ l, d < base) →
      (l.reverse.map digit).foldl (fun n c => n * base + value c) 0 = Nat.ofDigits base l := by
    intro l hl
    induction l with
    | nil => rfl
    | cons d l ih =>
      obtain ⟨hd, hl⟩ := forall_mem_cons.mp hl
      rw [reverse_cons, map_append, foldl_append, ih hl, map_singleton,
        foldl_cons, foldl_nil, value_digit d (hd.trans_le hhigh), Nat.ofDigits_cons,
        Nat.mul_comm, Nat.add_comm]
  rw [read, render]
  split_ifs with h
  · rw [h, foldl_cons, foldl_nil, value_digit 0 (by decide), Nat.zero_mul]
  · rw [hdig _ fun d hd => Nat.digits_lt_base hlow hd, Nat.ofDigits_digits]

omit hlow hhigh in
theorem render_ne_nil (n : ℕ) : render base n ≠ [] := by
  rw [render]
  split_ifs with h
  · exact cons_ne_nil _ _
  · simpa [Nat.digits_eq_nil_iff_eq_zero] using h

end Texts

example : render 16 0xBEEF = bytes "beef" := by decide

end Grayscale.BaseText

namespace Grayscale

open DecimalText List

/-- What a conversion gives: the value, the text from the end cursor on, and whether `errno` is
`ERANGE`. -/
structure StrtoResult (α : Type) where
  value : α
  rest : Text
  isRangeError : Bool
  deriving DecidableEq

/-- The sign, the digits and the text after them; `none` where no digit stands. -/
def strtoSubject (s : Text) : Option (Bool × Text × Text) :=
  let start := s.dropWhile isspace
  let isNegative := byteAt start 0 == byte '-'
  let cursor := if isNegative || byteAt start 0 == byte '+' then start.drop 1 else start
  if cursor.takeWhile isdigit = [] then none
  else some (isNegative, cursor.takeWhile isdigit, cursor.dropWhile isdigit)

def signedNumber (isNegative : Bool) (digits : Text) : ℤ :=
  if isNegative then -(read 0 digits : ℤ) else read 0 digits

/-- `strtoll` in base ten. -/
def strtoll (s : Text) : StrtoResult ℤ :=
  match strtoSubject s with
  | none => ⟨0, s, false⟩
  | some (isNegative, digits, rest) =>
    let value := signedNumber isNegative digits
    if value < -2 ^ 63 then ⟨-2 ^ 63, rest, true⟩
    else if 2 ^ 63 - 1 < value then ⟨2 ^ 63 - 1, rest, true⟩
    else ⟨value, rest, false⟩

/-- `strtoull` in base ten: a minus sign negates in the unsigned type. -/
def strtoull (s : Text) : StrtoResult ℤ :=
  match strtoSubject s with
  | none => ⟨0, s, false⟩
  | some (isNegative, digits, rest) =>
    if 2 ^ 64 - 1 < (read 0 digits : ℤ) then ⟨2 ^ 64 - 1, rest, true⟩
    else ⟨signedNumber isNegative digits % 2 ^ 64, rest, false⟩

theorem strtoSubject_decimal {space sign digits rest : Text} (hsp : ∀ c ∈ space, isspace c = true)
    (hsign : sign = [] ∨ sign = [byte '+'] ∨ sign = [byte '-']) (hne : digits ≠ [])
    (hdig : ∀ c ∈ digits, isdigit c = true) (hrest : ∀ c ∈ rest.head?, isdigit c = false) :
    strtoSubject (space ++ (sign ++ (digits ++ rest))) =
      some (sign == [byte '-'], digits, rest) := by
  obtain ⟨d, digits, rfl⟩ := exists_cons_of_ne_nil hne
  have hd : isdigit d = true := hdig d mem_cons_self
  have hne' : ∀ {c : UInt8}, isdigit c = false → d ≠ c := by
    rintro c hc rfl
    exact absurd (hd.symm.trans hc) (by decide)
  -- The white space ends at the sign or at the first digit.
  have hst : (space ++ (sign ++ (d :: digits ++ rest))).dropWhile isspace =
      sign ++ (d :: digits ++ rest) := by
    refine (dropWhile_append_of_head hsp ?_).1
    rcases hsign with rfl | rfl | rfl
    · simp [isspace_of_isdigit hd]
    · rfl
    · rfl
  have hcur : ((sign ++ (d :: digits ++ rest)).drop sign.length).takeWhile isdigit = d :: digits ∧
      ((sign ++ (d :: digits ++ rest)).drop sign.length).dropWhile isdigit = rest := by
    rw [drop_left]
    refine (dropWhile_append_of_head hdig ?_).symm
    cases rest with
    | nil => rfl
    | cons c rest => simp [hrest c rfl]
  unfold strtoSubject
  rw [hst]
  rcases hsign with rfl | rfl | rfl
  · have hneg : (d == byte '-') = false := beq_eq_false_iff_ne.mpr (hne' (by decide))
    have hplus : (d == byte '+') = false := beq_eq_false_iff_ne.mpr (hne' (by decide))
    simp only [nil_append, length_nil, drop_zero, cons_append] at hcur
    simp only [nil_append, cons_append, byteAt_zero, hneg, hplus, Bool.or_false,
      Bool.false_eq_true, if_false, hcur.1, hcur.2, reduceCtorEq]
    rfl
  · simp only [length_singleton] at hcur
    simp only [singleton_append, byteAt_zero, beq_self_eq_true, Bool.or_true, if_true]
    rw [singleton_append] at hcur
    simp only [hcur.1, hcur.2, reduceCtorEq, if_false]
    rfl
  · simp only [length_singleton] at hcur
    simp only [singleton_append, byteAt_zero, beq_self_eq_true, Bool.true_or, if_true]
    rw [singleton_append] at hcur
    simp only [hcur.1, hcur.2, reduceCtorEq, if_false]

/-- What is converted: digits behind white space and a sign, up to the first byte that is no
digit. -/
theorem strtoSubject_eq_some {s : Text} {isNegative : Bool} {digits rest : Text}
    (h : strtoSubject s = some (isNegative, digits, rest)) :
    ∃ space sign, s = space ++ (sign ++ (digits ++ rest)) ∧ (∀ c ∈ space, isspace c = true) ∧
      (sign = [] ∨ sign = [byte '+'] ∨ sign = [byte '-']) ∧ (isNegative = (sign == [byte '-'])) ∧
      digits ≠ [] ∧ (∀ c ∈ digits, isdigit c = true) := by
  obtain ⟨start, hst⟩ : ∃ start, start = s.dropWhile isspace := ⟨_, rfl⟩
  have hs : s = s.takeWhile isspace ++ start := by rw [hst, takeWhile_append_dropWhile]
  have hsp : ∀ c ∈ s.takeWhile isspace, isspace c = true := fun c hc =>
    mem_takeWhile_imp hc
  -- The cursor stands behind the sign.
  obtain ⟨sign, cursor, hsign, hcut, hminus, hcur⟩ : ∃ sign cursor : Text,
      (sign = [] ∨ sign = [byte '+'] ∨ sign = [byte '-']) ∧ start = sign ++ cursor ∧
      (byteAt start 0 == byte '-') = (sign == [byte '-']) ∧
      (if (byteAt start 0 == byte '-') || byteAt start 0 == byte '+' then start.drop 1 else start) =
        cursor := by
    by_cases hminus : byteAt start 0 = byte '-'
    · obtain ⟨t, rfl⟩ := cons_of_byteAt hminus (by decide)
      exact ⟨[byte '-'], t, by simp, rfl, rfl, rfl⟩
    · by_cases hplus : byteAt start 0 = byte '+'
      · obtain ⟨t, rfl⟩ := cons_of_byteAt hplus (by decide)
        exact ⟨[byte '+'], t, by simp, rfl, rfl, rfl⟩
      · refine ⟨[], start, .inl rfl, rfl, beq_eq_false_iff_ne.mpr hminus, ?_⟩
        rw [beq_eq_false_iff_ne.mpr hminus, beq_eq_false_iff_ne.mpr hplus]
        rfl
  rw [hminus] at hcur
  simp only [strtoSubject, ← hst, hminus, hcur] at h
  split_ifs at h with hne
  rw [Option.some.injEq, Prod.mk.injEq, Prod.mk.injEq] at h
  obtain ⟨hneg, rfl, rfl⟩ := h
  refine ⟨s.takeWhile isspace, sign, ?_, hsp, hsign, hneg.symm, hne, fun c hc =>
    mem_takeWhile_imp hc⟩
  rw [takeWhile_append_dropWhile, ← hcut, ← hs]

theorem strtoll_decimal {sign digits : Text} (hsign : sign = [] ∨ sign = [byte '-'])
    (hne : digits ≠ []) (hdig : ∀ c ∈ digits, isdigit c = true)
    (hlow : -2 ^ 63 ≤ signedNumber (sign == [byte '-']) digits)
    (hhigh : signedNumber (sign == [byte '-']) digits < 2 ^ 63) :
    strtoll (sign ++ digits) = ⟨signedNumber (sign == [byte '-']) digits, [], false⟩ := by
  have hsubject := @strtoSubject_decimal [] sign digits [] (by simp) (hsign.imp_right .inr) hne
    hdig (by simp)
  rw [append_nil, nil_append] at hsubject
  unfold strtoll
  rw [hsubject]
  simp only
  rw [if_neg (by omega), if_neg (by omega)]

theorem strtoull_decimal {digits : Text} (hne : digits ≠ [])
    (hdig : ∀ c ∈ digits, isdigit c = true) (hhigh : read 0 digits < 2 ^ 64) :
    strtoull digits = ⟨read 0 digits, [], false⟩ := by
  have hsubject := @strtoSubject_decimal [] [] digits [] (by simp) (.inl rfl) hne hdig (by simp)
  rw [append_nil, nil_append, nil_append] at hsubject
  unfold strtoull
  rw [hsubject]
  have hmod : (read 0 digits : ℤ) % 2 ^ 64 = read 0 digits := Int.emod_eq_of_lt (by omega) (by omega)
  have hsign : (([] : Text) == [byte '-']) = false := rfl
  simp only [signedNumber, hsign, Bool.false_eq_true, if_false, hmod]
  rw [if_neg (by omega)]

/-! ### Bases -/

/-- The sign, the digits and the text after them in a base; `none` where no digit stands. In base 16
the digits may stand behind `0x`. -/
def strtoSubjectIn (base : ℕ) (s : Text) : Option (Bool × Text × Text) :=
  let start := s.dropWhile isspace
  let isNegative := byteAt start 0 == byte '-'
  let cursor := if isNegative || byteAt start 0 == byte '+' then start.drop 1 else start
  let cursor :=
    if base = 16 ∧ byteAt cursor 0 = byte '0' ∧
        (byteAt cursor 1 = byte 'x' ∨ byteAt cursor 1 = byte 'X') ∧
        BaseText.isDigitIn 16 (byteAt cursor 2) = true then cursor.drop 2
    else cursor
  if cursor.takeWhile (BaseText.isDigitIn base) = [] then none
  else some (isNegative, cursor.takeWhile (BaseText.isDigitIn base),
    cursor.dropWhile (BaseText.isDigitIn base))

def signedNumberIn (base : ℕ) (isNegative : Bool) (digits : Text) : ℤ :=
  if isNegative then -(BaseText.read base digits : ℤ) else BaseText.read base digits

/-- `strtoll`. -/
def strtollIn (base : ℕ) (s : Text) : StrtoResult ℤ :=
  match strtoSubjectIn base s with
  | none => ⟨0, s, false⟩
  | some (isNegative, digits, rest) =>
    let value := signedNumberIn base isNegative digits
    if value < -2 ^ 63 then ⟨-2 ^ 63, rest, true⟩
    else if 2 ^ 63 - 1 < value then ⟨2 ^ 63 - 1, rest, true⟩
    else ⟨value, rest, false⟩

/-- `strtoull`: a minus sign negates in the unsigned type. -/
def strtoullIn (base : ℕ) (s : Text) : StrtoResult ℤ :=
  match strtoSubjectIn base s with
  | none => ⟨0, s, false⟩
  | some (isNegative, digits, rest) =>
    if 2 ^ 64 - 1 < (BaseText.read base digits : ℤ) then ⟨2 ^ 64 - 1, rest, true⟩
    else ⟨signedNumberIn base isNegative digits % 2 ^ 64, rest, false⟩

section Render

variable {base : ℕ} (hlow : 2 ≤ base) (hhigh : base ≤ 36)

include hlow hhigh

theorem strtoSubjectIn_render {sign : Text} (hsign : sign = [] ∨ sign = [byte '-']) (n : ℕ) :
    strtoSubjectIn base (sign ++ BaseText.render base n) =
      some (sign == [byte '-'], BaseText.render base n, []) := by
  have hdig : ∀ c ∈ BaseText.render base n, BaseText.isDigitIn base c = true := fun c hc =>
    BaseText.isDigitIn_of_mem_render hlow hhigh hc
  obtain ⟨d, digits, hd⟩ := exists_cons_of_ne_nil (@BaseText.render_ne_nil base n)
  rw [hd] at hdig ⊢
  obtain ⟨-, hsp, hneg, hplus⟩ := BaseText.not_special_of_isDigitIn hhigh (hdig d mem_cons_self)
  have htake : (d :: digits).takeWhile (BaseText.isDigitIn base) = d :: digits :=
    takeWhile_eq_self_iff.mpr hdig
  have hdrop : (d :: digits).dropWhile (BaseText.isDigitIn base) = [] :=
    dropWhile_eq_nil_iff.mpr hdig
  -- In base 16 no digit is an `x`.
  have hpre : ¬ (base = 16 ∧ byteAt (d :: digits) 0 = byte '0' ∧
      (byteAt (d :: digits) 1 = byte 'x' ∨ byteAt (d :: digits) 1 = byte 'X') ∧
      BaseText.isDigitIn 16 (byteAt (d :: digits) 2) = true) := by
    rintro ⟨rfl, -, hx, -⟩
    cases digits with
    | nil =>
      rw [show byteAt [d] 1 = 0 from rfl] at hx
      exact absurd hx (by decide)
    | cons e digits =>
      have he := hdig e (by simp)
      rcases hx with hx | hx
      · rw [show e = byte 'x' from hx] at he
        exact absurd he (by decide)
      · rw [show e = byte 'X' from hx] at he
        exact absurd he (by decide)
  rcases hsign with rfl | rfl
  · have hst : (d :: digits).dropWhile isspace = d :: digits :=
      dropWhile_cons_of_neg (by rw [hsp]; exact Bool.false_ne_true)
    have hnot : (d == byte '-') = false := beq_eq_false_iff_ne.mpr hneg
    have hnot' : (d == byte '+') = false := beq_eq_false_iff_ne.mpr hplus
    simp only [strtoSubjectIn, nil_append, hst, byteAt_zero, hnot, hnot', Bool.or_false,
      Bool.false_eq_true, if_false]
    rw [byteAt_zero] at hpre
    rw [if_neg hpre, htake, hdrop, if_neg (cons_ne_nil _ _)]
    rfl
  · have hst : ([byte '-'] ++ d :: digits).dropWhile isspace = byte '-' :: d :: digits := rfl
    simp only [strtoSubjectIn, hst, byteAt_zero, beq_self_eq_true, Bool.true_or, if_true,
      drop_succ_cons, drop_zero]
    rw [byteAt_zero] at hpre
    rw [if_neg hpre, htake, hdrop, if_neg (cons_ne_nil _ _)]

theorem strtollIn_render {v : ℤ} (hmin : -2 ^ 63 ≤ v) (hmax : v < 2 ^ 63) :
    strtollIn base ((if v < 0 then [byte '-'] else []) ++ BaseText.render base v.natAbs) =
      ⟨v, [], false⟩ := by
  have hsign : (if v < 0 then [byte '-'] else []) = [] ∨
      (if v < 0 then [byte '-'] else []) = [byte '-'] := by
    split_ifs
    · exact .inr rfl
    · exact .inl rfl
  have hval : signedNumberIn base ((if v < 0 then [byte '-'] else []) == [byte '-'])
      (BaseText.render base v.natAbs) = v := by
    rw [signedNumberIn, BaseText.read_render hlow hhigh]
    by_cases hv : v < 0
    · rw [if_pos hv, if_pos (by decide)]
      omega
    · rw [if_neg hv, if_neg (by decide)]
      omega
  rw [strtollIn, strtoSubjectIn_render hlow hhigh hsign]
  simp only [hval]
  rw [if_neg (by omega), if_neg (by omega)]

theorem strtoullIn_render {n : ℕ} (hmax : n < 2 ^ 64) :
    strtoullIn base (BaseText.render base n) = ⟨n, [], false⟩ := by
  have hsubject := strtoSubjectIn_render hlow hhigh (.inl rfl) n
  have hsign : (([] : Text) == [byte '-']) = false := rfl
  rw [nil_append, hsign] at hsubject
  rw [strtoullIn, hsubject]
  simp only [signedNumberIn, BaseText.read_render hlow hhigh, Bool.false_eq_true, if_false]
  rw [if_neg (by omega), Int.emod_eq_of_lt (by omega) (by omega)]

end Render

end Grayscale
