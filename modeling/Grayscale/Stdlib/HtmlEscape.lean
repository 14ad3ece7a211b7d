import Grayscale.Stdlib.EncodingBuffers
import Grayscale.Stdlib.JsonDecode
import Grayscale.Stdlib.StringChars

/-!
# Character references of HTML

`gray_encoding_html_escape` and `gray_encoding_html_unescape` of `stdlib/encoding.c`.
-/

namespace Grayscale

open List

/-! ### The functions -/

/-- What `gray_encoding_html_escape` writes for a byte. -/
def htmlPiece (c : UInt8) : Text :=
  if c = byte '&' then bytes "&amp;"
  else if c = byte '<' then bytes "&lt;"
  else if c = byte '>' then bytes "&gt;"
  else if c = byte '"' then bytes "&quot;"
  else if c = byte '\'' then bytes "&#39;"
  else [c]

/-- `gray_encoding_html_escape`, `none` when a write has no room in the buffer or no `int32_t`
position. -/
def grayEncodingHtmlEscape (string : Text) : Option Text :=
  encodeLoop (outputRoom (string.length * 6 + 1)) htmlPiece string []

/-- `encoding_utf8_encode`: no bytes for a codepoint out of range. -/
@[grind =] def encodingUtf8Encode (codepoint : ℕ) : Text :=
  if codepoint < 0x80 then [codepoint.toUInt8]
  else if codepoint < 0x800 then
    [(0xC0 ||| (codepoint >>> 6)).toUInt8, (0x80 ||| (codepoint &&& 0x3F)).toUInt8]
  else if codepoint < 0x10000 then
    [(0xE0 ||| (codepoint >>> 12)).toUInt8, (0x80 ||| ((codepoint >>> 6) &&& 0x3F)).toUInt8,
      (0x80 ||| (codepoint &&& 0x3F)).toUInt8]
  else if codepoint ≤ 0x10FFFF then
    [(0xF0 ||| (codepoint >>> 18)).toUInt8, (0x80 ||| ((codepoint >>> 12) &&& 0x3F)).toUInt8,
      (0x80 ||| ((codepoint >>> 6) &&& 0x3F)).toUInt8, (0x80 ||| (codepoint &&& 0x3F)).toUInt8]
  else []

def htmlDecimalDigit (c : UInt8) : Option ℕ :=
  if byte '0' ≤ c ∧ c ≤ byte '9' then some (c - byte '0').toNat else none

/-- The loop over the digits of a reference: `none` for a byte that is no digit and for a codepoint
above `U+10FFFF`, so that the `uint32_t` does not overflow. -/
def htmlDigits (base : ℕ) (digit : UInt8 → Option ℕ) : Text → ℕ → Option ℕ
  | [], codepoint => some codepoint
  | c :: rest, codepoint =>
    (digit c).bind fun value =>
      if 0x10FFFF < codepoint * base + value then none
      else htmlDigits base digit rest (codepoint * base + value)

/-- The codepoint of a numeric reference, from what follows its `#`. -/
@[grind =] def htmlCodepoint : Text → Option ℕ
  | [] => none
  | c :: digits =>
    if c = byte 'x' ∨ c = byte 'X' then
      if digits = [] then none else htmlDigits 16 grayHexDigitValue digits 0
    else htmlDigits 10 htmlDecimalDigit (c :: digits) 0

/-- What a reference is replaced by, from what stands between the `&` and the `;`. -/
@[grind =] def htmlReference (body : Text) : Option Text :=
  if body = bytes "amp" then some [byte '&']
  else if body = bytes "lt" then some [byte '<']
  else if body = bytes "gt" then some [byte '>']
  else if body = bytes "quot" then some [byte '"']
  else if body = bytes "apos" then some [byte '\'']
  else match body with
    | [] => none
    | c :: digits =>
      if c = byte '#' then
        (htmlCodepoint digits).bind fun codepoint =>
          if encodingUtf8Encode codepoint = [] then none else some (encodingUtf8Encode codepoint)
      else none

/-- The place of the `;` in the window of ten bytes behind an `&`. -/
def htmlSemi (rest : Text) : Option ℕ := (rest.take 10).findIdx? (· == byte ';')

@[grind =] def grayEncodingHtmlUnescape : Text → Text
  | [] => []
  | c :: rest =>
    if c ≠ byte '&' then c :: grayEncodingHtmlUnescape rest
    else match htmlSemi rest with
      | none => c :: grayEncodingHtmlUnescape rest
      | some semi =>
        match htmlReference (rest.take semi) with
        | none => c :: grayEncodingHtmlUnescape rest
        | some character => character ++ grayEncodingHtmlUnescape (rest.drop (semi + 1))
termination_by string => string.length
decreasing_by all_goals simp only [length_cons, length_drop]; omega

/-! ### Steps of the loop -/

theorem htmlUnescape_nil : grayEncodingHtmlUnescape [] = [] := by
  rw [grayEncodingHtmlUnescape]

theorem htmlUnescape_of_ne {c : UInt8} (h : c ≠ byte '&') (rest : Text) :
    grayEncodingHtmlUnescape (c :: rest) = c :: grayEncodingHtmlUnescape rest := by
  rw [grayEncodingHtmlUnescape, if_pos h]

theorem htmlUnescape_append {s : Text} (h : ∀ c ∈ s, c ≠ byte '&') (rest : Text) :
    grayEncodingHtmlUnescape (s ++ rest) = s ++ grayEncodingHtmlUnescape rest := by
  induction s with
  | nil => rfl
  | cons c s ih =>
    obtain ⟨hc, hs⟩ := forall_mem_cons.mp h
    rw [cons_append, htmlUnescape_of_ne hc, ih hs, cons_append]

variable {body : Text}

theorem htmlSemi_append (hbody : ∀ c ∈ body, c ≠ byte ';') (hlen : body.length < 10)
    (after : Text) : htmlSemi (body ++ byte ';' :: after) = some body.length := by
  have htake : (body ++ byte ';' :: after).take 10 =
      body ++ byte ';' :: after.take (9 - body.length) := by
    rw [take_append, take_of_length_le (by omega),
      show 10 - body.length = (9 - body.length) + 1 by omega, take_succ_cons]
  rw [htmlSemi, htake, findIdx?_append]
  have hnone : body.findIdx? (· == byte ';') = none := by
    simpa [findIdx?_eq_none_iff] using hbody
  rw [hnone]
  simp [findIdx?_cons]

theorem htmlSemi_eq_some {rest : Text} {semi : ℕ} (h : htmlSemi rest = some semi) :
    ∃ body after, rest = body ++ byte ';' :: after ∧ body.length = semi ∧ semi < 10 ∧
      ∀ c ∈ body, c ≠ byte ';' := by
  obtain ⟨hlen, hfnd, hfst⟩ := findIdx?_eq_some_iff_getElem.mp h
  rw [length_take] at hlen
  have hsemi : semi < rest.length := by omega
  rw [getElem_take, beq_iff_eq] at hfnd
  refine ⟨rest.take semi, rest.drop (semi + 1), ?_, by rw [length_take]; omega, by omega, ?_⟩
  · rw [← hfnd, ← drop_eq_getElem_cons hsemi, take_append_drop]
  · intro c hc
    obtain ⟨k, hk, rfl⟩ := getElem_of_mem hc
    rw [length_take] at hk
    have hne := hfst k (by omega)
    rw [getElem_take] at hne ⊢
    simpa using hne

variable {character : Text}

theorem htmlUnescape_reference (hbody : ∀ c ∈ body, c ≠ byte ';')
    (hlen : body.length < 10) (hchar : htmlReference body = some character) (after : Text) :
    grayEncodingHtmlUnescape (byte '&' :: (body ++ byte ';' :: after)) =
      character ++ grayEncodingHtmlUnescape after := by
  have hdrop : (body ++ byte ';' :: after).drop (body.length + 1) = after := by
    rw [← drop_drop, drop_left, drop_one, tail_cons]
  rw [grayEncodingHtmlUnescape, if_neg (by simp), htmlSemi_append hbody hlen]
  simp only [take_left, hchar, hdrop]

theorem htmlUnescape_cases (rest : Text) :
    (∃ body after character, rest = body ++ byte ';' :: after ∧ body.length < 10 ∧
      (∀ c ∈ body, c ≠ byte ';') ∧ htmlReference body = some character) ∨
    (grayEncodingHtmlUnescape (byte '&' :: rest) = byte '&' :: grayEncodingHtmlUnescape rest ∧
      ∀ body after, rest = body ++ byte ';' :: after → body.length < 10 →
        (∀ c ∈ body, c ≠ byte ';') → htmlReference body = none) := by
  cases hsemi : htmlSemi rest with
  | none =>
    refine .inr ⟨?_, fun body after hrest hlen hbody => ?_⟩
    · rw [grayEncodingHtmlUnescape, if_neg (by simp), hsemi]
    · rw [hrest, htmlSemi_append hbody hlen] at hsemi
      cases hsemi
  | some semi =>
    obtain ⟨body, after, rfl, rfl, hlen, hbody⟩ := htmlSemi_eq_some hsemi
    cases href : htmlReference body with
    | some character => exact .inl ⟨body, after, character, rfl, hlen, hbody, href⟩
    | none =>
      refine .inr ⟨?_, fun body' after' hrest hlen' hbody' => ?_⟩
      · rw [grayEncodingHtmlUnescape, if_neg (by simp), hsemi]
        simp only [take_left, href]
      · rw [hrest, htmlSemi_append hbody' hlen', Option.some.injEq] at hsemi
        rw [← (List.append_inj hrest hsemi.symm).1, href]

/-! ### Unescaping what is escaped -/

def htmlEscaped (string : Text) : Text := string.flatMap htmlPiece

/-- The bytes that are written for a byte, beyond the byte itself. -/
def htmlGrowth (c : UInt8) : ℕ :=
  if c = byte '"' then 5
  else if c = byte '&' ∨ c = byte '\'' then 4
  else if c = byte '<' ∨ c = byte '>' then 3
  else 0

theorem length_htmlPiece : ∀ c, (htmlPiece c).length = 1 + htmlGrowth c :=
  forall_byte (by decide +kernel)

theorem length_htmlPiece_le (c : UInt8) : (htmlPiece c).length ≤ 6 := by
  rw [length_htmlPiece, htmlGrowth]
  split_ifs <;> omega

theorem length_htmlEscaped (s : Text) :
    (htmlEscaped s).length = s.length + (s.map htmlGrowth).sum :=
  length_flatMap_eq length_htmlPiece s

theorem grayEncodingHtmlEscape_eq (string : Text) : grayEncodingHtmlEscape string =
      if (htmlEscaped string).length < 2 ^ 31 then some (htmlEscaped string) else none := by
  rw [grayEncodingHtmlEscape, encodeLoop_outputRoom length_htmlPiece_le, ← htmlEscaped]

theorem htmlUnescape_htmlPiece (c : UInt8) (t : Text) :
    grayEncodingHtmlUnescape (htmlPiece c ++ t) = c :: grayEncodingHtmlUnescape t := by
  have href : ∀ body : Text, (∀ d ∈ body, d ≠ byte ';') → body.length < 10 →
      htmlReference body = some [c] → htmlPiece c = byte '&' :: (body ++ [byte ';']) →
      grayEncodingHtmlUnescape (htmlPiece c ++ t) = c :: grayEncodingHtmlUnescape t := by
    intro body hbody hlen hchar hpc
    rw [hpc, cons_append, append_assoc, singleton_append,
      htmlUnescape_reference hbody hlen hchar, singleton_append]
  by_cases hamp : c = byte '&'
  · subst hamp
    exact href (bytes "amp") (by decide +kernel) (by decide) (by decide) (by decide)
  by_cases hlt : c = byte '<'
  · subst hlt
    exact href (bytes "lt") (by decide +kernel) (by decide) (by decide) (by decide)
  by_cases hgt : c = byte '>'
  · subst hgt
    exact href (bytes "gt") (by decide +kernel) (by decide) (by decide) (by decide)
  by_cases hquot : c = byte '"'
  · subst hquot
    exact href (bytes "quot") (by decide +kernel) (by decide) (by decide) (by decide)
  by_cases hapos : c = byte '\''
  · subst hapos
    exact href (bytes "#39") (by decide +kernel) (by decide) (by decide) (by decide)
  · have hpc : htmlPiece c = [c] := by
      rw [htmlPiece, if_neg hamp, if_neg hlt, if_neg hgt, if_neg hquot, if_neg hapos]
    rw [hpc, singleton_append, htmlUnescape_of_ne hamp]

theorem htmlUnescape_htmlEscaped (s : Text) : grayEncodingHtmlUnescape (htmlEscaped s) = s := by
  induction s with
  | nil => exact htmlUnescape_nil
  | cons c s ih =>
    rw [htmlEscaped, flatMap_cons, htmlUnescape_htmlPiece, ← htmlEscaped, ih]

/-! ### References -/

/-- A byte that a reference may have between its `&` and its `;`. -/
def IsReferenceByte (c : UInt8) : Prop := c < 0x80 ∧ c ≠ byte '&' ∧ c ≠ byte ';'

instance (c : UInt8) : Decidable (IsReferenceByte c) := inferInstanceAs (Decidable (_ ∧ _))

/-- A numeric reference to a surrogate. -/
def DenotesSurrogate (body : Text) : Prop :=
  ∃ digits codepoint, body = byte '#' :: digits ∧ htmlCodepoint digits = some codepoint ∧
    0xD800 ≤ codepoint ∧ codepoint ≤ 0xDFFF

theorem isReferenceByte_of_digit : ∀ c : UInt8,
    ((htmlDecimalDigit c).isSome = true → IsReferenceByte c) ∧
      ((grayHexDigitValue c).isSome = true → IsReferenceByte c) := forall_byte (by decide +kernel)

variable {codepoint : ℕ}

theorem htmlDigits_eq_some {base : ℕ} {digit : UInt8 → Option ℕ} {digits : Text} {result : ℕ}
    (h : htmlDigits base digit digits codepoint = some result) :
    (∀ c ∈ digits, (digit c).isSome = true) ∧ (codepoint ≤ 0x10FFFF → result ≤ 0x10FFFF) := by
  induction digits generalizing codepoint with
  | nil =>
    cases h
    exact ⟨by simp, id⟩
  | cons c digits ih =>
    rw [htmlDigits] at h
    obtain ⟨value, hval, h⟩ := Option.bind_eq_some_iff.mp h
    split_ifs at h with hrng
    obtain ⟨hdig, hres⟩ := ih h
    exact ⟨forall_mem_cons.mpr ⟨Option.isSome_iff_exists.mpr ⟨value, hval⟩, hdig⟩,
      fun _ => hres (Nat.le_of_not_lt hrng)⟩

theorem htmlCodepoint_eq_some {digits : Text} (h : htmlCodepoint digits = some codepoint) :
    digits ≠ [] ∧ (∀ c ∈ digits, IsReferenceByte c) ∧ codepoint ≤ 0x10FFFF := by
  match digits, h with
  | c :: digits, h =>
    rw [htmlCodepoint] at h
    split_ifs at h with hx hnil
    · obtain ⟨hdig, hcode⟩ := htmlDigits_eq_some h
      refine ⟨cons_ne_nil _ _, forall_mem_cons.mpr ⟨?_, fun d hd =>
        (isReferenceByte_of_digit d).2 (hdig d hd)⟩, hcode (by decide)⟩
      rcases hx with rfl | rfl <;> decide
    · obtain ⟨hdig, hcode⟩ := htmlDigits_eq_some h
      exact ⟨cons_ne_nil _ _, fun d hd => (isReferenceByte_of_digit d).1 (hdig d hd),
        hcode (by decide)⟩

theorem encodingUtf8Encode_eq (h : codepoint ≤ 0x10FFFF) :
    encodingUtf8Encode codepoint = codepointToUtf8 codepoint := by
  rw [encodingUtf8Encode, codepointToUtf8, if_pos h]

theorem length_encodingUtf8Encode_le (codepoint : ℕ) : (encodingUtf8Encode codepoint).length ≤ 4 := by
  unfold encodingUtf8Encode
  split_ifs <;> simp

theorem encodingUtf8Encode_ne_nil (h : codepoint ≤ 0x10FFFF) :
    encodingUtf8Encode codepoint ≠ [] := by
  rw [encodingUtf8Encode, if_pos h]
  split_ifs <;> exact cons_ne_nil _ _

theorem not_wellFormed_surrogate (hlow : 0xD800 ≤ codepoint) (hhigh : codepoint ≤ 0xDFFF)
    (r : Text) : ¬ WellFormedUtf8 (encodingUtf8Encode codepoint ++ r) := by
  have hencode : encodingUtf8Encode codepoint =
      [(0xE0 ||| (codepoint >>> 12)).toUInt8, (0x80 ||| ((codepoint >>> 6) &&& 0x3F)).toUInt8,
        (0x80 ||| (codepoint &&& 0x3F)).toUInt8] := by
    rw [encodingUtf8Encode, if_neg (by omega), if_neg (by omega), if_pos (by omega)]
  have hlead : (0xE0 ||| (codepoint >>> 12)).toUInt8 = 0xED := by
    rw [Nat.shiftRight_eq_div_pow, show codepoint / 2 ^ 12 = 0xD by omega]
    rfl
  have hsnd : (0xA0 : UInt8) ≤ (0x80 ||| ((codepoint >>> 6) &&& 0x3F)).toUInt8 := by
    simp only [UInt8.le_iff_toNat_le, toNat_tailByte, Nat.shiftRight_eq_div_pow, UInt8.reduceToNat]
    omega
  rw [hencode, hlead]
  generalize (0x80 ||| ((codepoint >>> 6) &&& 0x3F)).toUInt8 = second at hsnd
  generalize (0x80 ||| (codepoint &&& 0x3F)).toUInt8 = third
  refine not_wellFormed fun s t hs heq => ?_
  cases hs with
  | one ha =>
    obtain ⟨rfl, -⟩ := List.cons.inj heq
    exact absurd ha (by decide)
  | two ha hb =>
    obtain ⟨rfl, -⟩ := List.cons.inj heq
    exact absurd ha.2 (by decide)
  | three ha hb hlow hhigh hc =>
    obtain ⟨hlead, htail⟩ := List.cons.inj heq
    obtain ⟨rfl, -⟩ := List.cons.inj htail
    exact absurd (UInt8.le_trans hsnd (hhigh hlead.symm)) (by decide)
  | four ha hb hlow hhigh hc hd =>
    obtain ⟨rfl, -⟩ := List.cons.inj heq
    exact absurd ha.1 (by decide)

theorem reference_numeric (digits : Text) :
    htmlReference (byte '#' :: digits) = (htmlCodepoint digits).map encodingUtf8Encode := by
  have hname : ∀ name : Text, name.head? ≠ some (byte '#') → byte '#' :: digits ≠ name :=
    fun name hname h => hname (by rw [← h, head?_cons])
  rw [htmlReference, if_neg (hname (bytes "amp") (by decide)),
    if_neg (hname (bytes "lt") (by decide)), if_neg (hname (bytes "gt") (by decide)),
    if_neg (hname (bytes "quot") (by decide)), if_neg (hname (bytes "apos") (by decide))]
  simp only [if_true]
  cases hcode : htmlCodepoint digits with
  | none => rfl
  | some codepoint =>
    rw [Option.bind_some, if_neg (encodingUtf8Encode_ne_nil (htmlCodepoint_eq_some hcode).2.2)]
    rfl

theorem reference_eq_some (h : htmlReference body = some character) :
    (∃ c < 0x80, character = [c] ∧ (∀ d ∈ body, IsReferenceByte d) ∧
      ∀ digits, body ≠ byte '#' :: digits) ∨
    ∃ digits codepoint, body = byte '#' :: digits ∧ htmlCodepoint digits = some codepoint ∧
      character = encodingUtf8Encode codepoint := by
  by_cases hnumeric : ∃ digits, body = byte '#' :: digits
  · obtain ⟨digits, rfl⟩ := hnumeric
    rw [reference_numeric] at h
    obtain ⟨codepoint, hcode, rfl⟩ := Option.map_eq_some_iff.mp h
    exact .inr ⟨digits, codepoint, rfl, hcode, rfl⟩
  · refine .inl ?_
    have hno : ∀ digits, body ≠ byte '#' :: digits := fun digits hd => hnumeric ⟨digits, hd⟩
    unfold htmlReference at h
    split_ifs at h with hamp hlt hgt hquot hapos
    · exact ⟨byte '&', by decide, (Option.some.inj h).symm, by rw [hamp]; decide +kernel, hno⟩
    · exact ⟨byte '<', by decide, (Option.some.inj h).symm, by rw [hlt]; decide +kernel, hno⟩
    · exact ⟨byte '>', by decide, (Option.some.inj h).symm, by rw [hgt]; decide +kernel, hno⟩
    · exact ⟨byte '"', by decide, (Option.some.inj h).symm, by rw [hquot]; decide +kernel, hno⟩
    · exact ⟨byte '\'', by decide, (Option.some.inj h).symm, by rw [hapos]; decide +kernel, hno⟩
    · match body, h with
      | c :: digits, h =>
        simp only at h
        rw [if_neg fun hc => hno digits (by rw [hc])] at h
        exact absurd h.symm (Option.some_ne_none character)

theorem isReferenceByte_of_reference (h : htmlReference body = some character) :
    ∀ c ∈ body, IsReferenceByte c := by
  rcases reference_eq_some h with ⟨-, -, -, hbody, -⟩ | ⟨digits, codepoint, rfl, hcode, -⟩
  · exact hbody
  · exact forall_mem_cons.mpr ⟨by decide, (htmlCodepoint_eq_some hcode).2.1⟩

theorem length_reference_le (h : htmlReference body = some character) :
    character.length ≤ body.length + 2 := by
  rcases reference_eq_some h with ⟨c, -, rfl, -, -⟩ | ⟨digits, codepoint, rfl, hcode, rfl⟩
  · rw [length_singleton]
    omega
  · have hlen := length_encodingUtf8Encode_le codepoint
    have hdig := length_pos_iff.mpr (htmlCodepoint_eq_some hcode).1
    rw [length_cons]
    omega

theorem reference_utf8 (h : htmlReference body = some character) :
    (DenotesSurrogate body ∧ ∀ r, ¬ WellFormedUtf8 (character ++ r)) ∨
      (¬ DenotesSurrogate body ∧ Utf8Char character) := by
  rcases reference_eq_some h with ⟨c, hc, rfl, -, hbody⟩ |
    ⟨digits, codepoint, rfl, hcode, rfl⟩
  · refine .inr ⟨?_, .one hc⟩
    rintro ⟨digits, -, hdig, -⟩
    exact hbody digits hdig
  · have hrng := (htmlCodepoint_eq_some hcode).2.2
    by_cases hsurr : 0xD800 ≤ codepoint ∧ codepoint ≤ 0xDFFF
    · exact .inl ⟨⟨digits, codepoint, rfl, hcode, hsurr⟩, not_wellFormed_surrogate hsurr.1 hsurr.2⟩
    · refine .inr ⟨?_, ?_⟩
      · rintro ⟨digits', codepoint', hdig, hcode', hsurr'⟩
        obtain rfl := (List.cons.inj hdig).2
        rw [hcode, Option.some.injEq] at hcode'
        exact hsurr (hcode' ▸ hsurr')
      · rw [encodingUtf8Encode_eq hrng]
        exact (utf8Char_toUtf8 (by unfold IsUtf8Scalar; omega)).1

/-! ### Lengths -/

theorem length_htmlUnescape_le (t : Text) : (grayEncodingHtmlUnescape t).length ≤ t.length := by
  induction hn : t.length using Nat.strong_induction_on generalizing t with
  | _ n ih =>
    subst hn
    cases t with
    | nil => rw [htmlUnescape_nil]
    | cons c rest =>
      have hrest := ih rest.length (by rw [length_cons]; omega) rest rfl
      by_cases hc : c = byte '&'
      · subst hc
        rcases htmlUnescape_cases rest with
          ⟨body, after, character, rfl, hlen, hbody, hchar⟩ | ⟨hcopy, -⟩
        · have haft := ih after.length (by simp; omega) after rfl
          have hsho := length_reference_le hchar
          rw [htmlUnescape_reference hbody hlen hchar]
          simp only [length_cons, length_append]
          omega
        · rw [hcopy, length_cons, length_cons]
          omega
      · rw [htmlUnescape_of_ne hc, length_cons, length_cons]
        omega

/-! ### Well-formed UTF-8 -/

/-- A text behind an `&` that starts with a reference to a surrogate. -/
def StartsWithSurrogate (rest : Text) : Prop :=
  ∃ body after, rest = body ++ byte ';' :: after ∧ body.length < 10 ∧ DenotesSurrogate body

def HasSurrogateReference (t : Text) : Prop :=
  ∃ before rest, t = before ++ byte '&' :: rest ∧ StartsWithSurrogate rest

theorem not_hasSurrogate_nil : ¬ HasSurrogateReference [] := by
  rintro ⟨before, rest, h, -⟩
  exact absurd h.symm (append_ne_nil_of_right_ne_nil _ (cons_ne_nil _ _))

theorem hasSurrogate_cons {c : UInt8} {t : Text} : HasSurrogateReference (c :: t) ↔
      (c = byte '&' ∧ StartsWithSurrogate t) ∨ HasSurrogateReference t := by
  constructor
  · rintro ⟨_ | ⟨d, before⟩, rest, heq, hrest⟩
    · obtain ⟨rfl, rfl⟩ := List.cons.inj heq
      exact .inl ⟨rfl, hrest⟩
    · obtain ⟨rfl, rfl⟩ := List.cons.inj heq
      exact .inr ⟨before, rest, rfl, hrest⟩
  · rintro (⟨rfl, hrest⟩ | ⟨before, rest, rfl, hrest⟩)
    · exact ⟨[], t, rfl, hrest⟩
    · exact ⟨c :: before, rest, rfl, hrest⟩

theorem hasSurrogate_append {s : Text} (h : ∀ c ∈ s, c ≠ byte '&') (t : Text) :
    HasSurrogateReference (s ++ t) ↔ HasSurrogateReference t := by
  induction s with
  | nil => rfl
  | cons c s ih =>
    obtain ⟨hc, hs⟩ := forall_mem_cons.mp h
    rw [cons_append, hasSurrogate_cons, ih hs]
    exact or_iff_right fun hst => hc hst.1

theorem DenotesSurrogate.exists_reference (h : DenotesSurrogate body) :
    ∃ character, htmlReference body = some character := by
  obtain ⟨digits, codepoint, rfl, hcode, -⟩ := h
  exact ⟨encodingUtf8Encode codepoint, by rw [reference_numeric, hcode]; rfl⟩

theorem DenotesSurrogate.ne_semicolon (h : DenotesSurrogate body) :
    ∀ c ∈ body, c ≠ byte ';' := fun c hc =>
  (isReferenceByte_of_reference h.exists_reference.choose_spec c hc).2.2

theorem startsWithSurrogate_iff {after : Text} (hbody : ∀ c ∈ body, c ≠ byte ';')
    (hlen : body.length < 10) :
    StartsWithSurrogate (body ++ byte ';' :: after) ↔ DenotesSurrogate body := by
  refine ⟨?_, fun h => ⟨body, after, rfl, hlen, h⟩⟩
  rintro ⟨body', after', heq, hlen', h⟩
  have hsemi := htmlSemi_append hbody hlen after
  rw [heq, htmlSemi_append h.ne_semicolon hlen', Option.some.injEq] at hsemi
  rwa [(List.append_inj heq hsemi.symm).1]

theorem hasSurrogate_reference (hbody : ∀ c ∈ body, c ≠ byte ';')
    (hlen : body.length < 10) (hchar : htmlReference body = some character) (after : Text) :
    HasSurrogateReference (byte '&' :: (body ++ byte ';' :: after)) ↔
      DenotesSurrogate body ∨ HasSurrogateReference after := by
  have hpre : ∀ c ∈ body ++ [byte ';'], c ≠ byte '&' := by
    intro c hc
    rcases mem_append.mp hc with hc | hc
    · exact (isReferenceByte_of_reference hchar c hc).2.1
    · rw [mem_singleton.mp hc]
      decide
  have haft := hasSurrogate_append hpre after
  rw [append_assoc, singleton_append] at haft
  rw [hasSurrogate_cons, startsWithSurrogate_iff hbody hlen, haft]
  simp

theorem wellFormed_unescape_iff {t : Text} (ht : WellFormedUtf8 t) :
    WellFormedUtf8 (grayEncodingHtmlUnescape t) ↔ ¬ HasSurrogateReference t := by
  induction hn : t.length using Nat.strong_induction_on generalizing t with
  | _ n ih =>
    subst hn
    cases ht with
    | nil =>
      rw [htmlUnescape_nil]
      exact iff_of_true .nil not_hasSurrogate_nil
    | @append s r hs hr =>
      have hpos : 0 < s.length := length_pos_iff.mpr hs.ne_nil
      have hrest := ih r.length (by rw [length_append]; omega) hr rfl
      by_cases hamp : s = [byte '&']
      · subst hamp
        rcases htmlUnescape_cases r with
          ⟨body, after, character, rfl, hlen, hbody, hcharacter⟩ | ⟨hcopy, hnone⟩
        · -- the reference is replaced, and the text goes on behind its semicolon
          have hbyt := isReferenceByte_of_reference hcharacter
          have haft : WellFormedUtf8 after := by
            rw [wellFormed_ascii_append fun c hc => (hbyt c hc).1,
              wellFormed_cons_iff (by decide)] at hr
            exact hr
          rw [singleton_append, htmlUnescape_reference hbody hlen hcharacter,
            hasSurrogate_reference hbody hlen hcharacter, not_or]
          rcases reference_utf8 hcharacter with ⟨hsurr, hill⟩ | ⟨hsurr, hchar⟩
          · exact iff_of_false (hill _) fun h => h.1 hsurr
          · rw [wellFormed_append_iff hchar, ih after.length (by simp; omega) haft rfl]
            exact (and_iff_right hsurr).symm
        · -- the `&` is copied
          have hst : ¬ StartsWithSurrogate r := by
            rintro ⟨body, after, hbody, hlen, h⟩
            obtain ⟨character, hcharacter⟩ := h.exists_reference
            rw [hnone body after hbody hlen h.ne_semicolon] at hcharacter
            cases hcharacter
          rw [singleton_append, hcopy, wellFormed_cons_iff (by decide), hrest, hasSurrogate_cons]
          simp [hst]
      · have hne : ∀ c ∈ s, c ≠ byte '&' := by
          rintro c hc rfl
          obtain ⟨a, -, rfl⟩ | hhigh := hs.cases_byte
          · exact hamp (by rw [mem_singleton.mp hc])
          · exact absurd (hhigh _ hc) (by decide)
        rw [htmlUnescape_append hne, wellFormed_append_iff hs, hasSurrogate_append hne, hrest]

/-- A string is escaped and unescaped to itself exactly when its escaped text has an `int32_t`
length; unescaping writes no more bytes than it reads, and keeps a text well-formed exactly when the
text has no reference to a surrogate. -/
theorem html_iff (s t : Text) :
    ((∃ text, grayEncodingHtmlEscape s = some text ∧ grayEncodingHtmlUnescape text = s) ↔
      s.length + (s.map htmlGrowth).sum < 2 ^ 31) ∧ (grayEncodingHtmlUnescape t).length ≤ t.length ∧
    ((WellFormedUtf8 t → WellFormedUtf8 (grayEncodingHtmlUnescape t)) ↔
      (WellFormedUtf8 t → ¬ HasSurrogateReference t)) := by
  refine ⟨?_, length_htmlUnescape_le t, forall_congr' fun ht => wellFormed_unescape_iff ht⟩
  rw [grayEncodingHtmlEscape_eq, length_htmlEscaped]
  exact exists_ite_eq_some_iff (htmlUnescape_htmlEscaped s)

/-- `U+D800` has no bytes in UTF-8. -/
theorem not_html_surrogate : ¬ ∀ s t : Text, s.length < 2 ^ 31 → t.length < 2 ^ 31 →
      (∃ text, grayEncodingHtmlEscape s = some text ∧ grayEncodingHtmlUnescape text = s) ∧
      (grayEncodingHtmlUnescape t).length ≤ t.length ∧
      (WellFormedUtf8 t → WellFormedUtf8 (grayEncodingHtmlUnescape t)) := by
  intro h
  have ht : WellFormedUtf8 (bytes "&#xD800;") := by
    have hascii := @wellFormed_ascii_append (bytes "&#xD800;") [] (by decide +kernel)
    exact hascii.mpr .nil
  have hsurr : HasSurrogateReference (bytes "&#xD800;") :=
    ⟨[], bytes "#xD800;", by decide, bytes "#xD800", [], by decide, by decide,
      bytes "xD800", 0xD800, by decide, by decide, by decide, by decide⟩
  exact (wellFormed_unescape_iff ht).mp ((h [] _ (by decide) (by decide)).2.2 ht) hsurr

end Grayscale
