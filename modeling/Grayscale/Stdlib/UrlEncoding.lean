import Grayscale.Stdlib.EncodingBuffers
import Grayscale.Stdlib.JsonDecodeLaws

/-!
# Percent-encoding

`gray_encoding_url_encode` and `gray_encoding_url_decode` of `stdlib/encoding.c`.
-/

namespace Grayscale

open List

/-! ### The functions -/

/-- The bytes that `gray_encoding_url_encode` leaves as they are. -/
def isUrlUnreserved (c : UInt8) : Bool :=
  isalnum c || c == byte '-' || c == byte '_' || c == byte '.' || c == byte '~'

/-- A digit that `%X` prints. -/
def upperHexDigit (n : ℕ) : UInt8 := if n < 10 then (48 + n).toUInt8 else (55 + n).toUInt8

/-- What a byte is written as: itself, or `snprintf` of `%%%02X`. -/
def urlPiece (c : UInt8) : Text :=
  if isUrlUnreserved c then [c]
  else [byte '%', upperHexDigit (c.toNat / 16), upperHexDigit (c.toNat % 16)]

/-- `gray_encoding_url_encode`, `none` when a write has no room in the buffer or no `int`
position. -/
def grayEncodingUrlEncode (string : Text) : Option Text :=
  encodeLoop (outputRoom (string.length * 3 + 1)) urlPiece string []

/-- What a byte outside of an escape is decoded to. -/
def urlPlain (c : UInt8) : UInt8 := if c = byte '+' then byte ' ' else c

/-- `gray_encoding_url_decode`: an escape is looked for only where two bytes follow the percent
sign. -/
@[grind =] def grayEncodingUrlDecode : Text → Except String Text
  | [] => .ok []
  | [c] => .ok [urlPlain c]
  | [c, d] => .ok [urlPlain c, urlPlain d]
  | c :: high :: low :: rest =>
    if c = byte '%' then
      match grayHexDigitValue high, grayHexDigitValue low with
      | some highValue, some lowValue =>
        (grayEncodingUrlDecode rest).map ((highValue <<< 4 ||| lowValue).toUInt8 :: ·)
      | _, _ => .error "invalid percent-escape"
    else (grayEncodingUrlDecode (high :: low :: rest)).map (urlPlain c :: ·)

/-! ### Encoding -/

def urlEncoded (string : Text) : Text := string.flatMap urlPiece

variable (c : UInt8)

theorem length_urlPiece : (urlPiece c).length = 1 + 2 * if isUrlUnreserved c then 0 else 1 := by
  unfold urlPiece
  split_ifs <;> rfl

theorem length_urlPiece_le : (urlPiece c).length ≤ 3 := by
  rw [length_urlPiece]
  split_ifs <;> omega

theorem length_urlEncoded (s : Text) :
    (urlEncoded s).length = s.length + 2 * s.countP (!isUrlUnreserved ·) := by
  rw [urlEncoded, length_flatMap_eq length_urlPiece, Nat.add_left_cancel_iff]
  induction s with
  | nil => rfl
  | cons c s ih =>
    rw [map_cons, sum_cons, ih, countP_cons]
    cases isUrlUnreserved c <;> simp
    omega

theorem urlEncode_eq (string : Text) : grayEncodingUrlEncode string =
      if (urlEncoded string).length < 2 ^ 31 then some (urlEncoded string) else none := by
  rw [grayEncodingUrlEncode, encodeLoop_outputRoom length_urlPiece_le, ← urlEncoded]

/-! ### Decoding what is encoded -/

theorem urlPiece_spec : ∀ c : UInt8, (isUrlUnreserved c = true → c ≠ byte '%' ∧ urlPlain c = c) ∧
      grayHexDigitValue (upperHexDigit (c.toNat / 16)) = some (c.toNat / 16) ∧
      grayHexDigitValue (upperHexDigit (c.toNat % 16)) = some (c.toNat % 16) ∧
      ((c.toNat / 16) <<< 4 ||| c.toNat % 16).toUInt8 = c := forall_byte (by decide +kernel)

theorem urlDecode_cons {c : UInt8} (h : c ≠ byte '%') (t : Text) :
    grayEncodingUrlDecode (c :: t) = (grayEncodingUrlDecode t).map (urlPlain c :: ·) := by
  match t with
  | [] => rfl
  | [_] => rfl
  | _ :: _ :: _ => rw [grayEncodingUrlDecode, if_neg h]

theorem urlDecode_urlPiece (t : Text) :
    grayEncodingUrlDecode (urlPiece c ++ t) = (grayEncodingUrlDecode t).map (c :: ·) := by
  obtain ⟨hpl, hhigh, hlow, hval⟩ := urlPiece_spec c
  unfold urlPiece
  split_ifs with h
  · obtain ⟨hesc, hsame⟩ := hpl h
    rw [singleton_append, urlDecode_cons hesc, hsame]
  · simp only [cons_append, nil_append]
    rw [grayEncodingUrlDecode, if_pos rfl, hhigh, hlow]
    simp only [hval]

theorem urlDecode_urlEncoded (s : Text) : grayEncodingUrlDecode (urlEncoded s) = .ok s := by
  induction s with
  | nil => rfl
  | cons c s ih =>
    rw [urlEncoded, flatMap_cons, urlDecode_urlPiece, ← urlEncoded, ih]
    rfl

/-! ### The texts that are refused -/

/-- Two hexadecimal digits. -/
def IsEscape (t : Text) : Prop :=
  ∃ high low rest, t = high :: low :: rest ∧ isxdigit high = true ∧ isxdigit low = true

/-- A percent sign that is not followed by two hexadecimal digits. -/
def HasMalformedEscape (t : Text) : Prop :=
  ∃ before rest, t = before ++ byte '%' :: rest ∧ ¬ IsEscape rest

/-- Such a percent sign in front of the last two bytes. -/
def HasReadMalformedEscape (t : Text) : Prop :=
  ∃ before rest, t = before ++ byte '%' :: rest ∧ 2 ≤ rest.length ∧ ¬ IsEscape rest

def IsRefused (t : Text) : Prop := ∃ message, grayEncodingUrlDecode t = .error message

theorem isRefused_map {t u : Text} {f : Text → Text}
    (h : grayEncodingUrlDecode t = (grayEncodingUrlDecode u).map f) : IsRefused t ↔ IsRefused u := by
  unfold IsRefused
  rw [h]
  cases grayEncodingUrlDecode u <;> simp [Except.map]

theorem hasReadEscape_cons {c : UInt8} {t : Text} : HasReadMalformedEscape (c :: t) ↔
      (c = byte '%' ∧ 2 ≤ t.length ∧ ¬ IsEscape t) ∨ HasReadMalformedEscape t := by
  constructor
  · rintro ⟨_ | ⟨d, before⟩, rest, heq, hlength, hrest⟩
    · obtain ⟨rfl, rfl⟩ := List.cons.inj heq
      exact .inl ⟨rfl, hlength, hrest⟩
    · obtain ⟨rfl, rfl⟩ := List.cons.inj heq
      exact .inr ⟨before, rest, rfl, hlength, hrest⟩
  · rintro (⟨rfl, hlength, hrest⟩ | ⟨before, rest, rfl, hlength, hrest⟩)
    · exact ⟨[], t, rfl, hlength, hrest⟩
    · exact ⟨c :: before, rest, rfl, hlength, hrest⟩

theorem not_hasReadEscape_of_length {t : Text} (h : t.length ≤ 2) : ¬ HasReadMalformedEscape t := by
  rintro ⟨before, rest, rfl, hlength, -⟩
  simp only [length_append, length_cons] at h
  omega

variable {high low : UInt8}

theorem isEscape_cons_iff {rest : Text} :
    IsEscape (high :: low :: rest) ↔ isxdigit high = true ∧ isxdigit low = true := by
  simp [IsEscape]

theorem ne_percent_of_isxdigit {c : UInt8} (h : isxdigit c = true) : c ≠ byte '%' := by
  rintro rfl
  exact absurd h (by decide)

theorem urlDecode_escape (rest : Text)
    (hhigh : isxdigit high = true) (hlow : isxdigit low = true) :
    grayEncodingUrlDecode (byte '%' :: high :: low :: rest) = (grayEncodingUrlDecode rest).map
      ((hexDigitValue high <<< 4 ||| hexDigitValue low).toUInt8 :: ·) := by
  rw [grayEncodingUrlDecode, if_pos rfl, hexDigit_eq hhigh, hexDigit_eq hlow]

theorem isRefused_of_not_isEscape (rest : Text)
    (h : ¬ (isxdigit high = true ∧ isxdigit low = true)) :
    IsRefused (byte '%' :: high :: low :: rest) := by
  refine ⟨"invalid percent-escape", ?_⟩
  rw [grayEncodingUrlDecode, if_pos rfl, (hexDigit_spec high).1, (hexDigit_spec low).1]
  by_cases hhigh : isxdigit high = true
  · rw [if_pos hhigh, if_neg fun hlow => h ⟨hhigh, hlow⟩]
  · rw [if_neg hhigh]

theorem urlDecode_isError_iff : (t : Text) → (IsRefused t ↔ HasReadMalformedEscape t)
  | [] => by simp [IsRefused, grayEncodingUrlDecode, not_hasReadEscape_of_length]
  | [_] => by simp [IsRefused, grayEncodingUrlDecode, not_hasReadEscape_of_length]
  | [_, _] => by simp [IsRefused, grayEncodingUrlDecode, not_hasReadEscape_of_length]
  | c :: high :: low :: rest => by
    by_cases hc : c = byte '%'
    · subst hc
      by_cases h : isxdigit high = true ∧ isxdigit low = true
      · have hhigh := ne_percent_of_isxdigit h.1
        have hlow := ne_percent_of_isxdigit h.2
        rw [isRefused_map (urlDecode_escape rest h.1 h.2),
          urlDecode_isError_iff rest, hasReadEscape_cons,
          hasReadEscape_cons, hasReadEscape_cons, isEscape_cons_iff]
        simp only [h, not_true_eq_false, and_false, hhigh, hlow, false_and, false_or, and_self]
      · exact iff_of_true (isRefused_of_not_isEscape rest h)
          ⟨[], high :: low :: rest, rfl, by simp, fun hesc => h (isEscape_cons_iff.mp hesc)⟩
    · rw [isRefused_map (urlDecode_cons hc _), urlDecode_isError_iff (high :: low :: rest),
        @hasReadEscape_cons c]
      have hst : ¬ (c = byte '%' ∧ 2 ≤ (high :: low :: rest).length ∧
          ¬ IsEscape (high :: low :: rest)) := fun h => hc h.1
      exact (or_iff_right hst).symm

/-- A percent sign among the last two bytes. -/
def HasTruncatedEscape (t : Text) : Prop :=
  ∃ before rest, t = before ++ byte '%' :: rest ∧ rest.length < 2

theorem hasMalformedEscape_iff (t : Text) :
    HasMalformedEscape t ↔ HasReadMalformedEscape t ∨ HasTruncatedEscape t := by
  constructor
  · rintro ⟨before, rest, heq, hrest⟩
    rcases Nat.lt_or_ge rest.length 2 with hlength | hlength
    · exact .inr ⟨before, rest, heq, hlength⟩
    · exact .inl ⟨before, rest, heq, hlength, hrest⟩
  · rintro (⟨before, rest, heq, -, hrest⟩ | ⟨before, rest, heq, hlength⟩)
    · exact ⟨before, rest, heq, hrest⟩
    · refine ⟨before, rest, heq, ?_⟩
      rintro ⟨high, low, tail, rfl, -⟩
      simp only [length_cons] at hlength
      omega

/-- A string is encoded and decoded to itself exactly when its encoding has an `int` length, and a
text is refused for a malformed escape exactly when none of its malformed escapes is cut off by the
end, or one is not. -/
theorem urlEncoding_iff (s t : Text) :
    ((∃ text, grayEncodingUrlEncode s = some text ∧ grayEncodingUrlDecode text = .ok s) ↔
      s.length + 2 * s.countP (!isUrlUnreserved ·) < 2 ^ 31) ∧
    ((IsRefused t ↔ HasMalformedEscape t) ↔ (HasTruncatedEscape t → HasReadMalformedEscape t)) := by
  constructor
  · rw [urlEncode_eq, length_urlEncoded]
    exact exists_ite_eq_some_iff (urlDecode_urlEncoded s)
  · rw [urlDecode_isError_iff, hasMalformedEscape_iff]
    constructor
    · intro h htruncated
      exact h.mpr (.inr htruncated)
    · intro h
      exact ⟨.inl, fun hmalformed => hmalformed.elim id h⟩

/-- A percent sign at the end is copied. -/
theorem not_urlEncoding_percent : ¬ ∀ s t : Text, s.length < 2 ^ 31 → t.length < 2 ^ 31 →
      (∃ text, grayEncodingUrlEncode s = some text ∧ grayEncodingUrlDecode text = .ok s) ∧
      (IsRefused t ↔ HasMalformedEscape t) := by
  intro h
  obtain ⟨message, hmsg⟩ := (h [] (bytes "100%") (by decide) (by decide)).2.mpr
    ⟨bytes "100", [], by decide, by simp [IsEscape]⟩
  exact absurd hmsg (by
    have hok : grayEncodingUrlDecode (bytes "100%") = .ok (bytes "100%") := by rfl
    simp [hok])

end Grayscale
