import Grayscale.Lexer.LineEnds

/-!
# Number literals

The texts of number literals, and which of them the lexer makes tokens of.
-/

namespace Grayscale

open List
open List (cons.inj)
open Bool (eq_false_iff or_eq_true)

/-! ### The grammar -/

/-- Digits, and separators that stand between two of them. -/
def IsDigitRun (isDigit : UInt8 → Bool) (s : Text) : Prop :=
  s ≠ [] ∧ (∀ c ∈ s, isDigit c = true ∨ c = byte '_') ∧
    ∀ before after, s = before ++ byte '_' :: after →
      (∃ c ∈ before.getLast?, isDigit c = true) ∧ ∃ c ∈ after.head?, isDigit c = true

def isBaseDigit (base : ℕ) (c : UInt8) : Bool :=
  if base = 16 then isxdigit c else byte '0' ≤ c && c.toNat < 48 + base

/-- The letters behind the zero of a prefix, with their bases. -/
def baseMarkers : List (UInt8 × ℕ) :=
  [(byte 'x', 16), (byte 'X', 16), (byte 'o', 8), (byte 'O', 8), (byte 'b', 2), (byte 'B', 2)]

/-- An exponent: a mark, a sign and digits. -/
def IsExponent (s : Text) : Prop :=
  ∃ mark sign digits, s = mark :: (sign ++ digits) ∧ (mark = byte 'e' ∨ mark = byte 'E') ∧
    (sign = [] ∨ sign = [byte '+'] ∨ sign = [byte '-']) ∧ IsDigitRun isdigit digits

/-- Number literals without a prefix: digits, with a fraction, an exponent or both. -/
inductive IsDecimalText : Text → Prop
  | whole {a : Text} (ha : IsDigitRun isdigit a) : IsDecimalText a
  | point {a b e : Text} (ha : IsDigitRun isdigit a) (hb : IsDigitRun isdigit b)
      (he : e = [] ∨ IsExponent e) : IsDecimalText (a ++ byte '.' :: (b ++ e))
  | exponent {a e : Text} (ha : IsDigitRun isdigit a) (he : IsExponent e) :
      IsDecimalText (a ++ e)

/-- Number literals: those without a prefix, and a prefix with digits of its base. -/
def IsNumberText (s : Text) : Prop :=
  IsDecimalText s ∨ ∃ marker base digits, (marker, base) ∈ baseMarkers ∧
    IsDigitRun (isBaseDigit base) digits ∧ s = byte '0' :: marker :: digits

/-! ### Runs of digits -/

theorem hasConsecutive_iff {s : Text} : hasConsecutiveSeparators s = true ↔
    ∃ before after, s = before ++ byte '_' :: byte '_' :: after := by
  induction s with
  | nil => simp [hasConsecutiveSeparators]
  | cons a s ih =>
    cases s with
    | nil =>
      simp only [hasConsecutiveSeparators, Bool.false_eq_true, false_iff, not_exists]
      intro before after h
      have hlen := congrArg List.length h
      simp at hlen
      omega
    | cons b s =>
      rw [hasConsecutiveSeparators, or_eq_true, ih]
      simp only [Bool.and_eq_true, beq_iff_eq]
      constructor
      · rintro (⟨rfl, rfl⟩ | ⟨before, after, h⟩)
        · exact ⟨[], s, rfl⟩
        · exact ⟨a :: before, after, by rw [h]; rfl⟩
      · rintro ⟨before, after, h⟩
        cases before with
        | nil =>
          obtain ⟨ha, h⟩ := cons.inj h
          exact .inl ⟨ha, (cons.inj h).1⟩
        | cons c before => exact .inr ⟨before, after, (cons.inj h).2⟩

theorem hasConsecutive_of_infix {s t : Text} (h : s <:+: t)
    (ht : hasConsecutiveSeparators t = false) : hasConsecutiveSeparators s = false := by
  rw [eq_false_iff] at ht ⊢
  refine fun hs => ht (hasConsecutive_iff.mpr ?_)
  obtain ⟨before, after, rfl⟩ := hasConsecutive_iff.mp hs
  obtain ⟨front, back, rfl⟩ := h
  exact ⟨front ++ before, after ++ back, by simp⟩

theorem isDigitRun_iff {isDigit : UInt8 → Bool} (hsep : isDigit (byte '_') = false) {s : Text}
    (hs : ∀ c ∈ s, isDigit c = true ∨ c = byte '_') :
    IsDigitRun isDigit s ↔ s ≠ [] ∧ s.head? ≠ some (byte '_') ∧
      s.getLast? ≠ some (byte '_') ∧ hasConsecutiveSeparators s = false := by
  have hdig : ∀ {c : UInt8}, isDigit c = true → c ≠ byte '_' := by
    rintro c hc rfl
    exact Bool.false_ne_true (hsep.symm.trans hc)
  constructor
  · rintro ⟨hne, -, hbetween⟩
    refine ⟨hne, fun hhead => ?_, fun hlast => ?_, eq_false_iff.mpr fun hdbl => ?_⟩
    · obtain ⟨after, rfl⟩ := head?_eq_some_iff.mp hhead
      obtain ⟨⟨c, hc, -⟩, -⟩ := hbetween [] after rfl
      cases hc
    · obtain ⟨before, rfl⟩ := getLast?_eq_some_iff.mp hlast
      obtain ⟨-, c, hc, -⟩ := hbetween before [] rfl
      cases hc
    · obtain ⟨before, after, rfl⟩ := hasConsecutive_iff.mp hdbl
      obtain ⟨-, c, hc, hcdigit⟩ := hbetween before (byte '_' :: after) rfl
      exact hdig hcdigit (Option.some.inj hc).symm
  · rintro ⟨hne, hhead, hlast, hdbl⟩
    refine ⟨hne, hs, fun before after heq => ⟨?_, ?_⟩⟩
    · rcases eq_nil_or_concat before with rfl | ⟨front, c, rfl⟩
      · exact absurd (by rw [heq]; rfl) hhead
      · refine ⟨c, by simp, (hs c (by rw [heq]; simp)).resolve_right ?_⟩
        rintro rfl
        refine eq_false_iff.mp hdbl (hasConsecutive_iff.mpr
          ⟨front, after, by rw [heq]; simp⟩)
    · cases after with
      | nil => exact absurd (by rw [heq]; simp) hlast
      | cons c after =>
        refine ⟨c, rfl, (hs c (by rw [heq]; simp)).resolve_right ?_⟩
        rintro rfl
        exact eq_false_iff.mp hdbl (hasConsecutive_iff.mpr ⟨before, after, heq⟩)

/-! ### Bytes of decimal texts -/

/-- A digit stands behind every separator. -/
def DigitsFollow (s : Text) : Prop :=
  ∀ before after, s = before ++ byte '_' :: after → ∃ c ∈ after.head?, isdigit c = true

theorem DigitsFollow.append {s t : Text} (hs : DigitsFollow s) (ht : DigitsFollow t) :
    DigitsFollow (s ++ t) := by
  intro before after heq
  rcases append_eq_append_iff.mp heq with ⟨m, rfl, hm⟩ | ⟨m, rfl, hm⟩
  · exact ht m after hm
  · cases m with
    | nil => exact ht [] after (by simpa using hm.symm)
    | cons c m =>
      obtain ⟨rfl, rfl⟩ := cons.inj hm
      obtain ⟨d, hd, hdig⟩ := hs before m rfl
      refine ⟨d, ?_, hdig⟩
      cases m with
      | nil => cases hd
      | cons e m => exact hd

theorem digitsFollow_singleton {c : UInt8} (hc : c ≠ byte '_') : DigitsFollow [c] := by
  intro before after heq
  cases before with
  | nil => exact absurd (cons.inj heq).1 hc
  | cons d before => simp at heq

theorem digitsFollow_nil : DigitsFollow [] := fun before after heq => by simp at heq

theorem IsDigitRun.digitsFollow {s : Text} (h : IsDigitRun isdigit s) : DigitsFollow s :=
  fun before after heq => (h.2.2 before after heq).2

theorem IsExponent.digitsFollow {s : Text} (h : IsExponent s) : DigitsFollow s := by
  obtain ⟨mark, sign, digits, rfl, hmark, hsign, hdig⟩ := h
  have hmark' : DigitsFollow [mark] :=
    digitsFollow_singleton (by rcases hmark with rfl | rfl <;> decide)
  refine hmark'.append (DigitsFollow.append ?_ hdig.digitsFollow)
  rcases hsign with rfl | rfl | rfl
  · exact digitsFollow_nil
  · exact digitsFollow_singleton (by decide)
  · exact digitsFollow_singleton (by decide)

theorem IsDecimalText.digitsFollow {s : Text} (h : IsDecimalText s) : DigitsFollow s := by
  cases h with
  | whole ha => exact ha.digitsFollow
  | point ha hb he =>
    refine ha.digitsFollow.append ((digitsFollow_singleton (by decide)).append
      (hb.digitsFollow.append ?_))
    rcases he with rfl | he
    · exact digitsFollow_nil
    · exact he.digitsFollow
  | exponent ha he => exact ha.digitsFollow.append he.digitsFollow

/-- The bytes of number literals without a prefix. -/
def isDecimalByte (c : UInt8) : Bool := isDigitOrSeparator c || (bytes ".eE+-").contains c

theorem IsDigitRun.isDecimalByte {s : Text} (h : IsDigitRun isdigit s) :
    ∀ c ∈ s, isDecimalByte c = true := by
  intro c hc
  rcases h.2.1 c hc with hdig | rfl
  · simp [Grayscale.isDecimalByte, isDigitOrSeparator, hdig]
  · decide

theorem IsExponent.isDecimalByte {s : Text} (h : IsExponent s) :
    ∀ c ∈ s, isDecimalByte c = true := by
  obtain ⟨mark, sign, digits, rfl, hmark, hsign, hdig⟩ := h
  refine forall_mem_cons.mpr ⟨by rcases hmark with rfl | rfl <;> decide,
    forall_mem_append.mpr ⟨?_, hdig.isDecimalByte⟩⟩
  rcases hsign with rfl | rfl | rfl
  · exact forall_mem_nil _
  · exact forall_mem_singleton.mpr (by decide)
  · exact forall_mem_singleton.mpr (by decide)

theorem IsDecimalText.isDecimalByte {s : Text} (h : IsDecimalText s) :
    ∀ c ∈ s, isDecimalByte c = true := by
  cases h with
  | whole ha => exact ha.isDecimalByte
  | point ha hb he =>
    refine forall_mem_append.mpr ⟨ha.isDecimalByte, forall_mem_cons.mpr ⟨by decide,
      forall_mem_append.mpr ⟨hb.isDecimalByte, ?_⟩⟩⟩
    rcases he with rfl | he
    · exact forall_mem_nil _
    · exact he.isDecimalByte
  | exponent ha he => exact forall_mem_append.mpr ⟨ha.isDecimalByte, he.isDecimalByte⟩

/-! ### What the lexer takes -/

/-- An exponent starts with a mark, a sign and a digit. -/
def StartsExponent (s : Text) : Prop :=
  ∃ mark sign d after, s = mark :: (sign ++ d :: after) ∧ (mark = byte 'e' ∨ mark = byte 'E') ∧
    (sign = [] ∨ sign = [byte '+'] ∨ sign = [byte '-']) ∧ isdigit d = true

/-- Digits and separators, with a decimal point at most. -/
def IsMantissaPart (s : Text) : Prop := (∀ c ∈ s, isDigitOrSeparator c = true) ∨
    ∃ a b, s = a ++ byte '.' :: b ∧ (∀ c ∈ a, isDigitOrSeparator c = true) ∧
      ∀ c ∈ b, isDigitOrSeparator c = true

/-- An exponent whose separators are not checked yet: its first byte behind the sign is a digit. -/
def IsExponentPart (s : Text) : Prop :=
  ∃ mark sign digits, s = mark :: (sign ++ digits) ∧ (mark = byte 'e' ∨ mark = byte 'E') ∧
    (sign = [] ∨ sign = [byte '+'] ∨ sign = [byte '-']) ∧
    (∀ c ∈ digits, isDigitOrSeparator c = true) ∧ ∃ d ∈ digits.head?, isdigit d = true

/-- The separators that the lexer does not check: those behind a prefix stand between digits, and in
a number without one no separator stands in front of an exponent. -/
def HasSoundSeparators (l : Text) : Prop :=
  (∀ marker base, (marker, base) ∈ baseMarkers → byteAt l 0 = byte '0' → byteAt l 1 = marker →
    let digits := (l.drop 2).takeWhile (isPrefixedDigit base)
    digits.head? ≠ some (byte '_') ∧ digits.getLast? ≠ some (byte '_') ∧
      hasConsecutiveSeparators digits = false) ∧
  ∀ mantissa rest, l = mantissa ++ byte '_' :: rest → IsMantissaPart mantissa →
    ¬ StartsExponent rest

theorem exists_digitRun (l : Text) : ∃ a r, l = a ++ r ∧ digitRun l = a.length ∧
    ∀ c ∈ a, isDigitOrSeparator c = true :=
  ⟨_, _, (takeWhile_append_dropWhile (p := isDigitOrSeparator)).symm, rfl,
    fun _ hc => mem_takeWhile_imp hc⟩

theorem digitRun_append {a r : Text} (ha : ∀ c ∈ a, isDigitOrSeparator c = true)
    (hr : isDigitOrSeparator (byteAt r 0) = false) : digitRun (a ++ r) = a.length := by
  rw [digitRun, takeWhile_append_of_pos ha]
  cases r with
  | nil => rw [takeWhile_nil, append_nil]
  | cons d r =>
    rw [byteAt_zero] at hr
    rw [takeWhile_cons_of_neg (eq_false_iff.mp hr), append_nil]

theorem exists_readMantissa (l : Text) :
    (∃ a r, l = a ++ r ∧ (∀ c ∈ a, isDigitOrSeparator c = true) ∧
      readMantissa l = (a.length, false)) ∨
    ∃ a b r, l = (a ++ byte '.' :: b) ++ r ∧ (∀ c ∈ a, isDigitOrSeparator c = true) ∧
      (∀ c ∈ b, isDigitOrSeparator c = true) ∧
      readMantissa l = ((a ++ byte '.' :: b).length, true) := by
  obtain ⟨a, r, rfl, ha, hall⟩ := exists_digitRun l
  rw [readMantissa, ha]
  split_ifs with hpt
  · obtain ⟨hdot, -⟩ := hpt
    rw [← Nat.add_zero a.length, byteAt_append_right] at hdot
    obtain ⟨r, rfl⟩ := cons_of_byteAt hdot (by decide)
    obtain ⟨b, r, rfl, hb, hall'⟩ := exists_digitRun r
    refine .inr ⟨a, b, r, by simp, hall, hall', ?_⟩
    have hdrop : (a ++ byte '.' :: (b ++ r)).drop (a.length + 1) = b ++ r := by
      rw [drop_length_add_append]
      rfl
    rw [hdrop, hb, length_append, length_cons]
    congr 1
    omega
  · exact .inl ⟨a, r, rfl, hall, rfl⟩

theorem exists_readExponent (r : Text) : readExponent r = 0 ∨
    ∃ e after, r = e ++ after ∧ readExponent r = e.length ∧ IsExponentPart e := by
  have hst : ∀ {t : Text}, isdigit (byteAt t 0) = true → ∃ digits after, t = digits ++ after ∧
      digitRun t = digits.length ∧ (∀ c ∈ digits, isDigitOrSeparator c = true) ∧
      ∃ d ∈ digits.head?, isdigit d = true := by
    intro t ht
    obtain ⟨digits, after, rfl, hlen, hall⟩ := exists_digitRun t
    refine ⟨digits, after, rfl, hlen, hall, ?_⟩
    cases digits with
    | nil =>
      have := digitRun_pos ht
      rw [hlen] at this
      exact absurd this (by simp)
    | cons d digits => exact ⟨d, rfl, ht⟩
  cases r with
  | nil => exact .inl rfl
  | cons mark r =>
    rw [readExponent]
    simp only [byteAt_zero, byteAt_succ, drop_succ_cons, drop_zero]
    split_ifs with hmark hsign hdig hdig
    · cases r with
      | nil => exact absurd hsign (by decide)
      | cons sign r =>
        obtain ⟨digits, after, rfl, hlen, hall, hhead⟩ := hst hdig
        refine .inr ⟨mark :: ([sign] ++ digits), after, by simp, ?_,
          mark, [sign], digits, rfl, hmark, ?_, hall, hhead⟩
        · simp only [drop_succ_cons, drop_zero, hlen, length_cons, length_append, length_nil]
          omega
        · rcases hsign with h | h
          · exact .inr (.inl (congrArg (fun c => [c]) h))
          · exact .inr (.inr (congrArg (fun c => [c]) h))
    · exact .inl rfl
    · obtain ⟨digits, after, rfl, hlen, hall, hhead⟩ := hst hdig
      refine .inr ⟨mark :: ([] ++ digits), after, by simp, ?_,
        mark, [], digits, rfl, hmark, .inl rfl, hall, hhead⟩
      rw [hlen, length_cons, nil_append]
      omega
    · exact .inl rfl
    · exact .inl rfl

theorem readExponent_ne_zero {r : Text} (h : StartsExponent r) : readExponent r ≠ 0 := by
  obtain ⟨mark, sign, d, after, rfl, hmark, hsign, hd⟩ := h
  have hne : ∀ x : UInt8, isdigit x = false → d ≠ x := by
    rintro x hx rfl
    exact Bool.false_ne_true (hx.symm.trans hd)
  rw [readExponent, if_pos (by simpa using hmark)]
  rcases hsign with rfl | rfl | rfl
  · have hfst : byteAt (mark :: ([] ++ d :: after)) 1 = d := rfl
    rw [if_neg (by rw [hfst]; exact not_or.mpr ⟨hne _ (by decide), hne _ (by decide)⟩),
      if_pos (by rw [hfst]; exact hd)]
    omega
  · have hfst : byteAt (mark :: ([byte '+'] ++ d :: after)) 1 = byte '+' := rfl
    have hsnd : byteAt (mark :: ([byte '+'] ++ d :: after)) 2 = d := rfl
    rw [if_pos (by rw [hfst]; exact .inl rfl), if_pos (by rw [hsnd]; exact hd)]
    omega
  · have hfst : byteAt (mark :: ([byte '-'] ++ d :: after)) 1 = byte '-' := rfl
    have hsnd : byteAt (mark :: ([byte '-'] ++ d :: after)) 2 = d := rfl
    rw [if_pos (by rw [hfst]; exact .inr rfl), if_pos (by rw [hsnd]; exact hd)]
    omega

/-! ### The checks -/

theorem numberFormatError_eq_none {s : Text} : numberFormatError s = none ↔
    decimalPointError s = none ∧ hasConsecutiveSeparators s = false ∧
      s.getLast? ≠ some (byte '_') := by
  simp only [numberFormatError, Option.orElse_eq_orElse, Option.orElse_eq_or, Option.or_eq_none_iff]
  refine and_congr_right fun _ => ?_
  split_ifs with hdbl hlast
  · simp [hdbl]
  · simp [hlast]
  · exact ⟨fun _ => ⟨eq_false_iff.mpr hdbl, hlast⟩, fun _ => rfl⟩

theorem isDigitOrSeparator_ne {c x : UInt8} (hc : isDigitOrSeparator c = true)
    (hx : isDigitOrSeparator x = false) : c ≠ x := by
  rintro rfl
  exact Bool.false_ne_true (hx.symm.trans hc)

theorem decimalPointError_eq_none {a f : Text} (ha : ∀ c ∈ a, isDigitOrSeparator c = true)
    (h : decimalPointError (a ++ byte '.' :: f) = none) :
    (∃ d ∈ f.head?, isdigit d = true) ∧ a.getLast? ≠ some (byte '_') := by
  have hwhole : (a ++ byte '.' :: f).takeWhile (· != byte '.') = a :=
    (dropWhile_append_of_head (fun c hc => bne_iff_ne.mpr (isDigitOrSeparator_ne (ha c hc)
      (by decide))) (by simp)).2
  have hfrac : (a ++ byte '.' :: f).drop (a.length + 1) = f := by
    rw [drop_length_add_append]
    rfl
  rw [decimalPointError, hwhole, hfrac, length_append, length_cons] at h
  split_ifs at h with hlen hemp hsep hlast
  · omega
  · refine ⟨?_, hlast⟩
    rw [not_or, not_and_not_right, eq_false_iff] at hemp
    cases f with
    | nil => exact absurd rfl hemp.1
    | cons d f =>
      refine ⟨d, rfl, ?_⟩
      by_contra hdig
      exact hsep (hemp.2 hdig)

theorem isDigitRun_of_part {s t : Text} (hs : ∀ c ∈ s, isDigitOrSeparator c = true)
    (hhead : ∃ d ∈ s.head?, isdigit d = true) (hlast : s.getLast? ≠ some (byte '_'))
    (hpart : s <:+: t) (ht : hasConsecutiveSeparators t = false) : IsDigitRun isdigit s := by
  obtain ⟨d, hd, hdig⟩ := hhead
  refine (isDigitRun_iff (by decide) fun c hc => ?_).mpr ⟨?_, ?_, hlast,
    hasConsecutive_of_infix hpart ht⟩
  · simpa [isDigitOrSeparator] using hs c hc
  · rintro rfl
    cases hd
  · intro h
    obtain rfl : d = byte '_' := Option.some.inj (hd.symm.trans h)
    exact absurd hdig (by decide)

theorem getLast?_of_append {s t : Text} (hs : s ≠ [])
    (h : (t ++ s).getLast? ≠ some (byte '_')) : s.getLast? ≠ some (byte '_') := by
  rwa [getLast?_append_of_ne_nil _ hs] at h

theorem ne_nil_of_head? {s : Text} {P : UInt8 → Prop} (h : ∃ d ∈ s.head?, P d) : s ≠ [] := by
  rintro rfl
  obtain ⟨d, hd, -⟩ := h
  cases hd

theorem head?_append {s t : Text} {P : UInt8 → Prop} (hs : s ≠ [])
    (h : ∃ d ∈ (s ++ t).head?, P d) : ∃ d ∈ s.head?, P d := by
  cases s with
  | nil => exact absurd rfl hs
  | cons c s => exact h

theorem IsExponentPart.isExponent {e t : Text} (he : IsExponentPart e)
    (hlast : e.getLast? ≠ some (byte '_')) (hpart : e <:+: t)
    (ht : hasConsecutiveSeparators t = false) : IsExponent e := by
  obtain ⟨mark, sign, digits, rfl, hmark, hsign, hdig, hhead⟩ := he
  have hspl : mark :: (sign ++ digits) = (mark :: sign) ++ digits := rfl
  refine ⟨mark, sign, digits, rfl, hmark, hsign, isDigitRun_of_part hdig hhead ?_ ?_ ht⟩
  · rw [hspl] at hlast
    exact getLast?_of_append (ne_nil_of_head? hhead) hlast
  · exact (hspl ▸ (suffix_append (mark :: sign) digits).isInfix).trans hpart

/-- A number without a prefix that passes the checks, and whose mantissa does not end in a
separator in front of an exponent. -/
theorem isDecimalText_of_checks {m e : Text} (hm : IsMantissaPart m)
    (hhead : ∃ d ∈ m.head?, isdigit d = true) (he : e = [] ∨ IsExponentPart e)
    (herr : numberFormatError (m ++ e) = none)
    (hlast : e ≠ [] → m.getLast? ≠ some (byte '_')) : IsDecimalText (m ++ e) := by
  obtain ⟨hpt, hdbl, hend⟩ := numberFormatError_eq_none.mp herr
  have hlast' : m.getLast? ≠ some (byte '_') := by
    rcases he with rfl | he
    · rwa [append_nil] at hend
    · refine hlast ?_
      obtain ⟨mark, sign, digits, rfl, -⟩ := he
      exact cons_ne_nil _ _
  have hexpo : e = [] ∨ IsExponent e := by
    refine he.imp_right fun he => ?_
    have hne : e ≠ [] := by
      obtain ⟨mark, sign, digits, rfl, -⟩ := he
      exact cons_ne_nil _ _
    exact he.isExponent (getLast?_of_append hne hend) (suffix_append m e).isInfix hdbl
  rcases hm with hall | ⟨a, b, rfl, ha, hb⟩
  · have hrun := isDigitRun_of_part hall hhead hlast' (prefix_append m e).isInfix hdbl
    rcases hexpo with rfl | hexpo
    · rw [append_nil]
      exact .whole hrun
    · exact .exponent hrun hexpo
  · rw [append_assoc, cons_append] at hpt hdbl ⊢
    obtain ⟨hfrac, halast⟩ := decimalPointError_eq_none ha hpt
    have hane : a ≠ [] := by
      rintro rfl
      obtain ⟨d, hd, hdig⟩ := hhead
      cases hd
      exact absurd hdig (by decide)
    have hbne : b ≠ [] := by
      rintro rfl
      obtain ⟨d, hd, hdig⟩ := hfrac
      rcases he with rfl | ⟨mark, sign, digits, rfl, hmark, -⟩
      · cases hd
      · cases hd
        rcases hmark with rfl | rfl <;> exact absurd hdig (by decide)
    refine .point (isDigitRun_of_part ha (head?_append hane hhead) halast
      (prefix_append a _).isInfix hdbl)
      (isDigitRun_of_part hb (head?_append hbne hfrac) ?_ ?_ hdbl) hexpo
    · rw [show a ++ byte '.' :: b = (a ++ [byte '.']) ++ b by simp] at hlast'
      exact getLast?_of_append hbne hlast'
    · exact ⟨a ++ [byte '.'], e, by simp⟩

/-! ### Numbers without a prefix -/

theorem IsMantissaPart.isDecimalByte {m : Text} (hm : IsMantissaPart m) :
    ∀ c ∈ m, isDecimalByte c = true := by
  have hdig : ∀ c, isDigitOrSeparator c = true → Grayscale.isDecimalByte c = true := by
    intro c hc
    rw [Grayscale.isDecimalByte, hc, Bool.true_or]
  rcases hm with hall | ⟨a, b, rfl, ha, hb⟩
  · exact fun c hc => hdig c (hall c hc)
  · exact forall_mem_append.mpr ⟨fun c hc => hdig c (ha c hc),
      forall_mem_cons.mpr ⟨by decide, fun c hc => hdig c (hb c hc)⟩⟩

theorem IsMantissaPart.of_separator {m : Text} (h : IsMantissaPart (m ++ [byte '_'])) :
    IsMantissaPart m := by
  rcases h with hall | ⟨a, b, heq, ha, hb⟩
  · exact .inl fun c hc => hall c (mem_append_left _ hc)
  · rcases eq_nil_or_concat b with rfl | ⟨b, c, rfl⟩
    · exact absurd (append_inj' heq rfl).2 (by decide)
    · rw [concat_eq_append, ← cons_append, ← append_assoc] at heq
      exact .inr ⟨a, b, (append_inj' heq rfl).1, ha,
        fun d hd => hb d (by rw [concat_eq_append]; exact mem_append_left _ hd)⟩

theorem takesDecimalPoint_of_digit {c : UInt8} (h : isDigitOrSeparator c = true) :
    takesDecimalPoint c = true := by
  rw [isDigitOrSeparator, or_eq_true] at h
  rw [takesDecimalPoint]
  simp only [or_eq_true]
  tauto

theorem readMantissa_separator {m : Text} {mark : UInt8} {r : Text} (hm : IsMantissaPart m)
    (hmark : mark = byte 'e' ∨ mark = byte 'E') :
    (readMantissa (m ++ byte '_' :: mark :: r)).1 = m.length + 1 := by
  have hstop : isDigitOrSeparator (byteAt (mark :: r) 0) = false := by
    rw [byteAt_zero]
    rcases hmark with rfl | rfl <;> decide
  have hrun : ∀ {b : Text}, (∀ c ∈ b, isDigitOrSeparator c = true) →
      digitRun (b ++ byte '_' :: mark :: r) = b.length + 1 := by
    intro b hb
    rw [show b ++ byte '_' :: mark :: r = (b ++ [byte '_']) ++ mark :: r by simp,
      digitRun_append (forall_mem_append.mpr ⟨hb, forall_mem_singleton.mpr (by decide)⟩)
        hstop]
    simp
  rcases hm with hall | ⟨a, b, rfl, ha, hb⟩
  · have hnext : byteAt (m ++ byte '_' :: mark :: r) (m.length + 1) ≠ byte '.' := by
      rw [byteAt_append_right, byteAt_succ, byteAt_zero]
      rcases hmark with rfl | rfl <;> decide
    rw [readMantissa, hrun hall, if_neg fun h => hnext h.1]
  · have hspl : a ++ byte '.' :: b ++ byte '_' :: mark :: r =
        a ++ byte '.' :: (b ++ byte '_' :: mark :: r) := by simp
    have hpt : byteAt (a ++ byte '.' :: (b ++ byte '_' :: mark :: r)) a.length = byte '.' := by
      rw [← Nat.add_zero a.length, byteAt_append_right]
      rfl
    have hnext : takesDecimalPoint
        (byteAt (a ++ byte '.' :: (b ++ byte '_' :: mark :: r)) (a.length + 1)) = true := by
      rw [byteAt_append_right, byteAt_succ]
      cases b with
      | nil =>
        rw [nil_append, byteAt_zero]
        decide
      | cons c b => exact takesDecimalPoint_of_digit (hb c (mem_cons_self ..))
    have hdrop : (a ++ byte '.' :: (b ++ byte '_' :: mark :: r)).drop (a.length + 1) =
        b ++ byte '_' :: mark :: r := by
      rw [drop_length_add_append]
      rfl
    have hdot :
        isDigitOrSeparator (byteAt (byte '.' :: (b ++ byte '_' :: mark :: r)) 0) = false := by
      rw [byteAt_zero]
      decide
    rw [hspl, readMantissa, digitRun_append ha hdot, if_pos ⟨hpt, hnext⟩, hdrop,
      hrun hb, length_append, length_cons]
    omega

def IsPrefixed (l : Text) : Prop :=
  byteAt l 0 = byte '0' ∧ ∃ base, (byteAt l 1, base) ∈ baseMarkers

theorem number_of_not_isPrefixed {l : Text} (h : ¬ IsPrefixed l) : readNumber l =
    .ofError (if (readMantissa l).2 ∨ readExponent (l.drop (readMantissa l).1) ≠ 0 then
        .floatingPointLiteral else .integerLiteral)
      (l.take ((readMantissa l).1 + readExponent (l.drop (readMantissa l).1)))
      ((readMantissa l).1 + readExponent (l.drop (readMantissa l).1))
      (numberFormatError
        (l.take ((readMantissa l).1 + readExponent (l.drop (readMantissa l).1)))) := by
  have hmark : ∀ (x y : UInt8) (base : ℕ), (x, base) ∈ baseMarkers → (y, base) ∈ baseMarkers →
      ¬ (byteAt l 0 = byte '0' ∧ (byteAt l 1 = x ∨ byteAt l 1 = y)) := by
    rintro x y base hx hy ⟨hzero, hnext | hnext⟩
    · exact h ⟨hzero, base, hnext ▸ hx⟩
    · exact h ⟨hzero, base, hnext ▸ hy⟩
  rw [readNumber, if_neg (hmark (byte 'x') (byte 'X') 16 (by decide) (by decide)),
    if_neg (hmark (byte 'o') (byte 'O') 8 (by decide) (by decide)),
    if_neg (hmark (byte 'b') (byte 'B') 2 (by decide) (by decide))]

theorem number_of_isPrefixed {l : Text} {base : ℕ} (hzero : byteAt l 0 = byte '0')
    (hbase : (byteAt l 1, base) ∈ baseMarkers) :
    ∃ message, readNumber l = readPrefixedDigits l base message := by
  simp only [baseMarkers, mem_cons, Prod.mk.injEq, not_mem_nil, or_false] at hbase
  unfold readNumber
  rcases hbase with ⟨h, rfl⟩ | ⟨h, rfl⟩ | ⟨h, rfl⟩ | ⟨h, rfl⟩ | ⟨h, rfl⟩ | ⟨h, rfl⟩ <;>
    rw [h, hzero]
  · exact ⟨_, if_pos (by decide)⟩
  · exact ⟨_, if_pos (by decide)⟩
  · exact ⟨_, (if_neg (by decide)).trans (if_pos (by decide))⟩
  · exact ⟨_, (if_neg (by decide)).trans (if_pos (by decide))⟩
  · exact ⟨_, (if_neg (by decide)).trans ((if_neg (by decide)).trans (if_pos (by decide)))⟩
  · exact ⟨_, (if_neg (by decide)).trans ((if_neg (by decide)).trans (if_pos (by decide)))⟩

def isNumberType (type : TokenType) : Bool :=
  type == .integerLiteral || type == .floatingPointLiteral

theorem TokenScan.ofError_of_isNumberType {type : TokenType} {literal : Text} {length : ℕ}
    {error : Option LexError}
    (h : isNumberType (TokenScan.ofError type literal length error).type) :
    error = none ∧ (TokenScan.ofError type literal length error).literal = literal := by
  cases error with
  | none => exact ⟨rfl, rfl⟩
  | some error =>
    have hillegal : isNumberType TokenType.illegal = true := h
    exact absurd hillegal (by decide)

theorem byteAt_baseMarker {marker : UInt8} {base : ℕ} (h : (marker, base) ∈ baseMarkers) :
    isDecimalByte marker = false ∧ marker ≠ 0 := by
  simp only [baseMarkers, mem_cons, Prod.mk.injEq, not_mem_nil, or_false] at h
  rcases h with ⟨rfl, -⟩ | ⟨rfl, -⟩ | ⟨rfl, -⟩ | ⟨rfl, -⟩ | ⟨rfl, -⟩ | ⟨rfl, -⟩ <;> decide

theorem isPrefixed_of_take {l : Text} {n : ℕ} {marker : UInt8} {base : ℕ} {digits : Text}
    (hbase : (marker, base) ∈ baseMarkers) (h : l.take n = byte '0' :: marker :: digits) :
    IsPrefixed l := by
  have hlen := congrArg List.length h
  rw [length_take, length_cons, length_cons] at hlen
  have hzero : byteAt (l.take n) 0 = byte '0' := by rw [h, byteAt_zero]
  have hnext : byteAt (l.take n) 1 = marker := by rw [h, byteAt_succ, byteAt_zero]
  rw [byteAt_take (by omega)] at hzero hnext
  exact ⟨hzero, base, hnext ▸ hbase⟩

theorem exists_mantissaPart (l : Text) : ∃ m r, l = m ++ r ∧ IsMantissaPart m ∧
    (readMantissa l).1 = m.length := by
  rcases exists_readMantissa l with ⟨a, r, hl, hall, hread⟩ | ⟨a, b, r, hl, ha, hb, hread⟩
  · exact ⟨a, r, hl, .inl hall, by rw [hread]⟩
  · exact ⟨_, r, hl, .inr ⟨a, b, rfl, ha, hb⟩, by rw [hread]⟩

theorem readMantissa_pos {l : Text} (h : isdigit (byteAt l 0) = true) : 1 ≤ (readMantissa l).1 := by
  have hdig := digitRun_pos h
  rw [readMantissa]
  split_ifs <;> omega

theorem IsExponentPart.startsExponent {e : Text} (r : Text) (he : IsExponentPart e) :
    StartsExponent (e ++ r) := by
  obtain ⟨mark, sign, digits, rfl, hmark, hsign, -, d, hd, hdig⟩ := he
  obtain ⟨after, rfl⟩ := head?_eq_some_iff.mp hd
  exact ⟨mark, sign, d, after ++ r, by simp, hmark, hsign, hdig⟩

theorem number_isNumberText_of_not_isPrefixed {l : Text} (hdig : isdigit (byteAt l 0) = true)
    (hpre : ¬ IsPrefixed l) (htype : isNumberType (readNumber l).type) :
    IsNumberText (readNumber l).literal ↔ HasSoundSeparators l := by
  rw [number_of_not_isPrefixed hpre] at htype ⊢
  obtain ⟨herr, hlit⟩ := TokenScan.ofError_of_isNumberType htype
  rw [hlit]
  constructor
  · intro htext
    replace htext : IsDecimalText _ := htext.resolve_right
      fun ⟨_, _, _, hbase, _, heq⟩ => hpre (isPrefixed_of_take hbase heq)
    refine ⟨fun marker base hmarker hzero hnext => absurd ⟨hzero, base, hnext ▸ hmarker⟩ hpre, ?_⟩
    rintro m r rfl hm ⟨mark, sign, d, after, rfl, hmark, hsign, hd⟩
    have hexpo := readExponent_ne_zero ⟨mark, sign, d, after, rfl, hmark, hsign, hd⟩
    have hdrop : (m ++ byte '_' :: mark :: (sign ++ d :: after)).drop (m.length + 1) =
        mark :: (sign ++ d :: after) := by
      rw [drop_length_add_append]
      rfl
    rw [readMantissa_separator hm hmark, hdrop] at htext
    obtain ⟨n, hn⟩ := Nat.exists_eq_succ_of_ne_zero hexpo
    have htake : (m ++ byte '_' :: mark :: (sign ++ d :: after)).take (m.length + 1 + (n + 1)) =
        m ++ byte '_' :: mark :: (sign ++ d :: after).take n := by
      rw [Nat.add_assoc, take_length_add_append, Nat.add_comm 1, take_succ_cons, take_succ_cons]
    rw [hn, htake] at htext
    obtain ⟨c, hc, hdig⟩ := htext.digitsFollow m _ rfl
    cases hc
    rcases hmark with rfl | rfl <;> exact absurd hdig (by decide)
  · rintro ⟨-, hsound⟩
    left
    have hpos := readMantissa_pos hdig
    obtain ⟨m, r, rfl, hm, hmant⟩ := exists_mantissaPart l
    rw [hmant, drop_left] at herr ⊢
    have hhead : ∃ d ∈ m.head?, isdigit d = true := by
      cases m with
      | nil => exact absurd (hmant ▸ hpos) (by simp)
      | cons c m => exact ⟨c, rfl, hdig⟩
    rcases exists_readExponent r with hexpo | ⟨e, r, rfl, hexpo, he⟩
    · rw [hexpo, Nat.add_zero, take_left] at herr ⊢
      rw [← append_nil m] at herr ⊢
      exact isDecimalText_of_checks hm hhead (.inl rfl) herr fun h => absurd rfl h
    · rw [hexpo, ← append_assoc, ← length_append, take_left] at herr ⊢
      refine isDecimalText_of_checks hm hhead (.inr he) herr fun _ hlast => ?_
      obtain ⟨m, rfl⟩ := getLast?_eq_some_iff.mp hlast
      exact hsound m (e ++ r) (by simp) hm.of_separator (he.startsExponent r)

theorem base_of_marker {marker : UInt8} {base base' : ℕ} (h : (marker, base) ∈ baseMarkers)
    (h' : (marker, base') ∈ baseMarkers) : base = base' := by
  have huniq : ∀ x ∈ baseMarkers, ∀ y ∈ baseMarkers, x.1 = y.1 → x.2 = y.2 := by decide
  exact huniq _ h _ h' rfl

theorem isBaseDigit_separator (base : ℕ) (hbase : base < 48) :
    isBaseDigit base (byte '_') = false := by
  rw [isBaseDigit]
  split_ifs
  · decide
  · have hle : ¬ (byte '_').toNat < 48 + base := by
      rw [show (byte '_').toNat = 95 from rfl]
      omega
    rw [decide_eq_false hle, Bool.and_false]

theorem isNumberText_cons_marker {marker : UInt8} {base : ℕ} {digits : Text}
    (hbase : (marker, base) ∈ baseMarkers) : IsNumberText (byte '0' :: marker :: digits) ↔
      IsDigitRun (isBaseDigit base) digits := by
  constructor
  · rintro (htext | ⟨marker', base', digits', hbase', hdig, heq⟩)
    · have hbyte := htext.isDecimalByte marker (by simp)
      rw [(byteAt_baseMarker hbase).1] at hbyte
      cases hbyte
    · obtain ⟨rfl, rfl⟩ := cons.inj (cons.inj heq).2
      rwa [base_of_marker hbase hbase']
  · exact fun hdig => .inr ⟨marker, base, digits, hbase, hdig, rfl⟩

theorem hasSoundSeparators_cons_marker {marker : UInt8} {base : ℕ} {t : Text}
    (hbase : (marker, base) ∈ baseMarkers) : HasSoundSeparators (byte '0' :: marker :: t) ↔
      (t.takeWhile (isPrefixedDigit base)).head? ≠ some (byte '_') ∧
        (t.takeWhile (isPrefixedDigit base)).getLast? ≠ some (byte '_') ∧
        hasConsecutiveSeparators (t.takeWhile (isPrefixedDigit base)) = false := by
  constructor
  · exact fun h => h.1 marker base hbase rfl rfl
  · refine fun h => ⟨?_, ?_⟩
    · rintro marker' base' hbase' - rfl
      rw [base_of_marker hbase' hbase]
      exact h
    · rintro m r heq hm -
      cases m with
      | nil => exact absurd (cons.inj heq).1 (by decide)
      | cons c m =>
        obtain ⟨rfl, hnext⟩ := cons.inj heq
        -- the marker is a byte of the mantissa, or the separator behind it
        have hbyte : isDecimalByte marker = true := by
          cases m with
          | nil =>
            rw [(cons.inj hnext).1]
            decide
          | cons d m =>
            rw [(cons.inj hnext).1]
            exact hm.isDecimalByte d (by simp)
        rw [(byteAt_baseMarker hbase).1] at hbyte
        cases hbyte

theorem exists_prefixed_literal {l : Text} (hpre : IsPrefixed l)
    (htype : isNumberType (readNumber l).type) : ∃ marker base t, (marker, base) ∈ baseMarkers ∧
      l = byte '0' :: marker :: t ∧ t.takeWhile (isPrefixedDigit base) ≠ [] ∧
      (readNumber l).literal = byte '0' :: marker :: t.takeWhile (isPrefixedDigit base) := by
  obtain ⟨hzero, base, hbase⟩ := hpre
  obtain ⟨message, hread⟩ := number_of_isPrefixed hzero hbase
  obtain ⟨l, rfl⟩ := cons_of_byteAt hzero (by decide)
  rw [byteAt_succ] at hbase
  obtain ⟨t, ht⟩ := cons_of_byteAt rfl (byteAt_baseMarker hbase).2
  generalize byteAt l 0 = marker at hbase ht
  subst ht
  rw [hread, readPrefixedDigits] at htype ⊢
  obtain ⟨herr, hlit⟩ := TokenScan.ofError_of_isNumberType htype
  have hdrop : (byte '0' :: marker :: t).drop 2 = t := rfl
  rw [hlit, hdrop]
  rw [hdrop] at herr
  refine ⟨marker, base, t, hbase, rfl, ?_, ?_⟩
  · intro hnil
    rw [if_pos hnil] at herr
    cases herr
  · rw [Nat.add_comm, take_succ_cons, take_succ_cons,
      ← prefix_iff_eq_take.mp (List.takeWhile_prefix _)]

theorem isBaseDigit_of_mem_takeWhile {base : ℕ} {t : Text} {c : UInt8}
    (hc : c ∈ t.takeWhile (isPrefixedDigit base)) : isBaseDigit base c = true ∨ c = byte '_' := by
  have hdig := mem_takeWhile_imp hc
  rw [isPrefixedDigit, or_eq_true, beq_iff_eq] at hdig
  exact hdig.symm

theorem number_isNumberText_of_isPrefixed {l : Text} (hpre : IsPrefixed l)
    (htype : isNumberType (readNumber l).type) :
    IsNumberText (readNumber l).literal ↔ HasSoundSeparators l := by
  obtain ⟨marker, base, t, hbase, rfl, hne, hlit⟩ := exists_prefixed_literal hpre htype
  have hsml : base < 48 := by
    have hbases : ∀ entry ∈ baseMarkers, entry.2 < 48 := by decide
    exact hbases _ hbase
  rw [hlit, isNumberText_cons_marker hbase, hasSoundSeparators_cons_marker hbase,
    isDigitRun_iff (isBaseDigit_separator base hsml) fun c hc => isBaseDigit_of_mem_takeWhile hc]
  exact and_iff_right hne

/-! ### The tokens of numbers -/

/-- A scan of something other than a number. -/
def TokenScan.NotNumber (scan : TokenScan) : Prop := isNumberType scan.type = false

section NotNumber

variable {type : TokenType} {literal : Text} {length : ℕ}

theorem TokenScan.notNumber_token (h : isNumberType type = false) :
    (TokenScan.token type literal length).NotNumber := h

theorem TokenScan.notNumber_illegal (error : LexError) :
    (TokenScan.illegal error length).NotNumber := rfl

theorem TokenScan.notNumber_ofError (h : isNumberType type = false) (error : Option LexError) :
    (TokenScan.ofError type literal length error).NotNumber := by
  cases error with
  | none => exact h
  | some error => exact notNumber_illegal error

theorem TokenScan.notNumber_ite {p : Prop} [Decidable p] {a b : TokenScan} (ha : p → a.NotNumber)
    (hb : ¬ p → b.NotNumber) : (if p then a else b).NotNumber :=
  iteInduction (motive := TokenScan.NotNumber) ha hb

theorem paired_notNumber (l : Text) (second : UInt8) {pairedType singleType : TokenType}
    (pairedText singleText : String) (hpaired : isNumberType pairedType = false)
    (hsing : isNumberType singleType = false) :
    (makePairedToken l second pairedType pairedText singleType singleText).NotNumber :=
  TokenScan.notNumber_ite (fun _ => hpaired) fun _ => hsing

set_option maxRecDepth 20000 in
theorem scanHash_notNumber (l : Text) : (scanHash l).NotNumber := by
  unfold scanHash
  refine TokenScan.notNumber_ite (fun _ => rfl) fun _ => ?_
  split
  · next spelling type h =>
    have hent : ∀ entry ∈ attributeKeywords, isNumberType entry.2 = false := by decide
    exact TokenScan.notNumber_token (hent _ (mem_of_find?_eq_some h))
  · exact TokenScan.notNumber_illegal _

theorem scanWord_notNumber (l : Text) : (scanWord l).NotNumber := by
  unfold scanWord
  split
  · exact TokenScan.notNumber_illegal _
  · split
    · next hkw =>
      have hent : ∀ entry ∈ keywords, isNumberType entry.2 = false := by decide
      exact TokenScan.notNumber_token (hent _ (tokenLookupKeyword_mem hkw))
    · exact TokenScan.notNumber_token rfl

theorem scanUnexpected_notNumber (l : Text) : (scanUnexpected l).NotNumber :=
  TokenScan.notNumber_ite (fun _ => rfl) fun _ => rfl

theorem string_notNumber (l : Text) : (readString l).NotNumber :=
  TokenScan.notNumber_ite (fun _ => TokenScan.notNumber_ofError rfl _) fun _ => rfl

theorem rawString_notNumber (l : Text) : (readRawString l).NotNumber :=
  TokenScan.notNumber_ite (fun _ => TokenScan.notNumber_ofError rfl _) fun _ => rfl

theorem charLiteral_notNumber (l : Text) : (readCharLiteral l).NotNumber :=
  TokenScan.notNumber_ite (fun _ => TokenScan.notNumber_ofError rfl _) fun _ => rfl

theorem token_notNumber {l : Text} (h : isdigit (byteAt l 0) = false) :
    (scanToken l).NotNumber := by
  unfold scanToken
  refine TokenScan.notNumber_ite (fun _ => rfl) fun _ => ?_
  have paired {second : UInt8} {pairedType singleType : TokenType} {pairedText singleText : String}
      (hpaired : isNumberType pairedType = false) (hsing : isNumberType singleType = false) :
      (makePairedToken l second pairedType pairedText singleType singleText).NotNumber :=
    paired_notNumber l second pairedText singleText hpaired hsing
  refine TokenScan.notNumber_ite (fun _ => rfl) fun _ => ?_
  refine TokenScan.notNumber_ite (fun _ => paired rfl rfl) fun _ => ?_
  refine TokenScan.notNumber_ite (fun _ => TokenScan.notNumber_ite (fun _ => rfl)
    fun _ => paired rfl rfl) fun _ => ?_
  refine TokenScan.notNumber_ite (fun _ => TokenScan.notNumber_ite (fun _ => rfl) fun _ =>
    TokenScan.notNumber_ite (fun _ => rfl) fun _ => paired rfl rfl) fun _ => ?_
  refine TokenScan.notNumber_ite (fun _ => TokenScan.notNumber_ite (fun _ => rfl) fun _ =>
    TokenScan.notNumber_ite (fun _ => rfl) fun _ => rfl) fun _ => ?_
  iterate 6 refine TokenScan.notNumber_ite (fun _ => paired rfl rfl) fun _ => ?_
  refine TokenScan.notNumber_ite (fun _ => rfl) fun _ => ?_
  refine TokenScan.notNumber_ite (fun _ => TokenScan.notNumber_ite (fun _ => rfl) fun _ => rfl)
    fun _ => ?_
  refine TokenScan.notNumber_ite (fun _ => scanHash_notNumber l) fun _ => ?_
  refine TokenScan.notNumber_ite (fun _ => string_notNumber l) fun _ => ?_
  refine TokenScan.notNumber_ite (fun _ => rawString_notNumber l) fun _ => ?_
  refine TokenScan.notNumber_ite (fun _ => charLiteral_notNumber l) fun _ => ?_
  split
  · next type text hent =>
    have hents : ∀ entry ∈ singleTokens, isNumberType entry.2.1 = false := by decide
    obtain ⟨_, _, heq, -⟩ := lookup_eq_some_iff.mp hent
    exact TokenScan.notNumber_token
      (hents _ (heq ▸ mem_append_right _ (mem_cons_self ..)))
  · exact TokenScan.notNumber_ite (fun _ => scanWord_notNumber l) fun _ =>
      TokenScan.notNumber_ite (fun hdig => absurd hdig (eq_false_iff.mp h))
        fun _ => scanUnexpected_notNumber l

end NotNumber

theorem token_of_isNumberType {l : Text} (h : isNumberType (scanToken l).type) :
    isdigit (byteAt l 0) = true ∧ scanToken l = readNumber l := by
  have hdig : isdigit (byteAt l 0) = true := by
    by_contra hdig
    exact Bool.false_ne_true
      ((token_notNumber (eq_false_iff.mpr hdig)).symm.trans h)
  refine ⟨hdig, ?_⟩
  cases l with
  | nil => exact absurd hdig (by decide)
  | cons c l => exact token_number l hdig

/-- The token of a number has the text of one exactly when the separators that the lexer does not
check are well placed. -/
theorem lexerNextToken_isNumberText_iff (lexer : Lexer)
    (h : isNumberType (lexerNextToken lexer).1.type) :
    IsNumberText (lexerNextToken lexer).1.literal ↔ HasSoundSeparators lexer.afterGap.rest := by
  cases hgap : gapError (skipWhitespaceAndComments lexer.rest) with
  | some error =>
    rw [nextToken_of_gapError hgap] at h
    have hillegal : isNumberType TokenType.illegal = true := h
    exact absurd hillegal (by decide)
  | none =>
    rw [nextToken_of_gap hgap] at h ⊢
    obtain ⟨hdig, hscan⟩ := token_of_isNumberType h
    simp only [hscan] at h ⊢
    by_cases hpre : IsPrefixed lexer.afterGap.rest
    · exact number_isNumberText_of_isPrefixed hpre h
    · exact number_isNumberText_of_not_isPrefixed hdig hpre h

theorem lexerNextToken_isNumberText_hexadecimal :
    IsNumberText (lexerNextToken (lexerCreateSized (bytes "0x1_f") none)).1.literal ↔
      HasSoundSeparators (lexerCreateSized (bytes "0x1_f") none).afterGap.rest :=
  lexerNextToken_isNumberText_iff _ (by decide)

/-- A prefix with a separator only is the token of a number. -/
theorem exists_number_not_isNumberText : ¬ ∀ lexer : Lexer,
    isNumberType (lexerNextToken lexer).1.type → IsNumberText (lexerNextToken lexer).1.literal := by
  intro h
  have htext := h (lexerCreateSized (bytes "0x_") none) (by decide)
  rw [show (lexerNextToken (lexerCreateSized (bytes "0x_") none)).1.literal =
    [byte '0', byte 'x', byte '_'] by decide,
    @isNumberText_cons_marker (byte 'x') 16 [byte '_'] (by decide)] at htext
  obtain ⟨⟨c, hc, -⟩, -⟩ := htext.2.2 [] [] rfl
  cases hc

end Grayscale
