import Grayscale.Runtime.RegexSearch

/-!
# Escaped text as a pattern

`gray_regex_escape` of `stdlib/regex.c`, and the pattern that the parser makes of what it writes:
the characters of the text one after another. On a text with an invalid byte, the byte is one
U+FFFD, which an escaped U+FFFD matches.
-/

namespace Grayscale.Regex

/-! ### The functions -/

/-- The bytes that `gray_regex_escape` escapes. -/
def regexSpecials : Text := bytes ".^$*+?()[]\x7b\x7d|\\"

def escapeByte (character : UInt8) : Text :=
  if character ≠ 0 ∧ character ∈ regexSpecials then [byte '\\', character] else [character]

/-- `gray_regex_escape`; `none` where `j` overflows. -/
def grayRegexEscape (string : Text) : Option Text :=
  if 2 ^ 31 ≤ (string.flatMap escapeByte).length then none else some (string.flatMap escapeByte)

def patternHasUnsupportedEscape : Text → Bool
  | [] => false
  | [_] => false
  | c :: d :: rest =>
    if c ≠ byte '\\' then patternHasUnsupportedEscape (d :: rest)
    else if d ∈ bytes "dDwWsSbB" then true
    else patternHasUnsupportedEscape rest

/-! ### What it should do -/

def codepoints (string : Text) : List ℕ := (utf8Pieces string).map Prod.snd

/-- The characters one after another, without quantifiers. -/
def plainSequence : List ℕ → RegexSequence
  | [] => .nil
  | codepoint :: rest => .cons (.character codepoint) 1 1 (plainSequence rest)

/-- Escaped, the string is accepted as the sequence of its characters. At the positions `P` the
pattern matches where the string stands, and ends behind it. -/
def MatchesItself (P : Text → Prop) (string : Text) : Prop :=
  ∃ pattern, grayRegexEscape string = some pattern ∧ patternHasUnsupportedEscape pattern = false ∧
    regexEngineCompile pattern = .ok (.last (plainSequence (codepoints string))) ∧
    ∀ context position, P position → ∀ endCursor,
      matchAlternation context (.last (plainSequence (codepoints string))) position =
        some endCursor ↔ position = string ++ endCursor

/-! ### Escapes -/

theorem specials_spec : ∀ d ∈ regexSpecials, d < 0x80 ∧ d ≠ 0 ∧
    escapeCharacter d.toNat = d.toNat ∧ d ∉ bytes "dDwWsSbB" := by decide +kernel

/-- What the parser reads otherwise is escaped. -/
theorem mem_specials : ∀ d ∈ bytes "*+?\x7b|)([.^$\\", d ∈ regexSpecials := by decide +kernel

theorem unsupported_cons_of_ne {c : UInt8} (hc : c ≠ byte '\\') (l : Text) :
    patternHasUnsupportedEscape (c :: l) = patternHasUnsupportedEscape l := by
  cases l with
  | nil => rfl
  | cons d l => rw [patternHasUnsupportedEscape, if_pos hc]

theorem unsupported_escaped (string : Text) :
    patternHasUnsupportedEscape (string.flatMap escapeByte) = false := by
  induction string with
  | nil => rfl
  | cons c string ih =>
    rw [List.flatMap_cons, escapeByte]
    by_cases hc : c ≠ 0 ∧ c ∈ regexSpecials
    · rw [if_pos hc, List.cons_append, List.singleton_append, patternHasUnsupportedEscape,
        if_neg (not_not.mpr rfl), if_neg (specials_spec c hc.2).2.2.2, ih]
    · have hne : c ≠ byte '\\' := fun h => hc (by rw [h]; decide)
      rw [if_neg hc, List.singleton_append, unsupported_cons_of_ne hne, ih]

theorem byteAt_escaped_notMem (string : Text) :
    byteAt (string.flatMap escapeByte) 0 ∉ bytes "*+?\x7b" := by
  cases string with
  | nil => decide
  | cons c string =>
    rw [List.flatMap_cons, escapeByte]
    by_cases hc : c ≠ 0 ∧ c ∈ regexSpecials
    · rw [if_pos hc, List.cons_append, byteAt_zero]
      decide
    · rw [if_neg hc, List.singleton_append, byteAt_zero]
      intro h
      have hspec := mem_specials c (List.mem_append_left (bytes "|)([.^$\\") h)
      exact hc ⟨(specials_spec c hspec).2.1, hspec⟩

/-! ### The parser -/

theorem atomParses_escaped {c : UInt8} {rest : Text} (hc : c ∈ regexSpecials)
    (hrest : byteAt rest 0 ∉ bytes "*+?\x7b") :
    AtomParses (byte '\\' :: c :: rest) (.character c.toNat) 1 1 rest := by
  obtain ⟨hascii, hnul, hesc, hclass⟩ := specials_spec c hc
  have hchar : Utf8Char [c] := .one hascii
  have hdec := regexDecode_char hchar rest
  have hbeh := behind_char hchar rest
  rw [List.singleton_append] at hdec hbeh
  have hnone : escapeClass c ⟨[], []⟩ = none := by
    rw [escapeClass, if_neg fun h => hclass (by rw [h]; decide),
      if_neg fun h => hclass (by rw [h]; decide), if_neg fun h => hclass (by rw [h]; decide)]
  have hne : ∀ e ∈ bytes "|)([.^$", byteAt (byte '\\' :: c :: rest) 0 ≠ e := by
    intro e he h
    rw [byteAt_zero] at h
    exact absurd he (by rw [← h]; decide)
  refine ⟨by simp, ?_⟩
  rw [parseAtom, dif_neg (by simp)]
  simp only
  rw [if_neg (hne _ (by decide)), if_neg (hne _ (by decide)), if_neg (hne _ (by decide)),
    if_neg (hne _ (by decide)), if_neg (hne _ (by decide)),
    if_pos ⟨byteAt_zero _ _, by rw [byteAt_succ, byteAt_zero]; exact hnul⟩]
  simp only [byteAt_succ, byteAt_zero, hnone, List.drop_succ_cons, List.drop_zero, hdec,
    hbeh, utf8Value, hesc]
  exact quantified_once _ hrest

theorem sequenceParses_escaped {string : Text} (h : WellFormedUtf8 string) (hnul : 0 ∉ string) :
    SequenceParses (string.flatMap escapeByte) (plainSequence (codepoints string)) [] := by
  induction h with
  | nil =>
    rw [codepoints, utf8Pieces_nil]
    exact sequenceParses_nil (.inl rfl)
  | @append s t hs ht ih =>
    have hrest := byteAt_escaped_notMem t
    have hnext := ih fun hmem => hnul (List.mem_append_right _ hmem)
    rw [codepoints, utf8Pieces_char hs, List.map_cons, List.flatMap_append]
    refine SequenceParses.cons ?_ hnext
    obtain ⟨c, hascii, rfl⟩ | hhigh := hs.cases_byte
    · have hc : c ≠ 0 := fun h => hnul (by simp [h])
      rw [List.flatMap_singleton, escapeByte]
      by_cases hspec : c ∈ regexSpecials
      · rw [if_pos ⟨hc, hspec⟩]
        exact atomParses_escaped hspec hrest
      · rw [if_neg fun h => hspec h.2]
        exact atomParses_char hs (fun h => hspec
          (mem_specials _ (List.mem_append_right (bytes "*+?\x7b") h))) hrest
    · have hsame : s.flatMap escapeByte = s := by
        have hpl : ∀ c ∈ s, escapeByte c = [c] := fun c hc =>
          if_neg fun h => UInt8.not_lt.mpr (hhigh c hc) (specials_spec c h.2).1
        rw [List.flatMap_congr hpl, List.flatMap_singleton']
      obtain ⟨c, u, rfl⟩ := List.exists_cons_of_ne_nil hs.ne_nil
      rw [hsame]
      exact atomParses_char hs (fun h => UInt8.not_lt.mpr (hhigh c List.mem_cons_self)
        (specials_spec c
          (mem_specials c (List.mem_append_right (bytes "*+?\x7b") h))).1) hrest

/-! ### The matcher -/

theorem matchChar_eq_some_iff_append {s position u : Text} (hs : Utf8Char s)
    (h : utf8Value s ≠ replacementCodepoint ∨ WellFormedUtf8 position) :
    matchCharacter (fun codepoint => codepoint == utf8Value s) position = some u ↔
      position = s ++ u := by
  rw [matchChar_eq_some_iff]
  constructor
  · rintro ⟨hne, hval, rfl⟩
    rw [beq_iff_eq] at hval
    have hchar : ∃ s' r, Utf8Char s' ∧ position = s' ++ r := by
      rcases h with h | h
      · rcases utf8Decode_cases (l := position.take 4) (by simpa using hne) with
          ⟨s', r, hs', htake, -⟩ | ⟨-, hinvalid⟩
        · exact ⟨s', r ++ position.drop 4, hs', by
            rw [← List.append_assoc, ← htake, List.take_append_drop]⟩
        · rw [regexDecode, hinvalid] at hval
          exact absurd hval.symm h
      · cases h with
        | nil => exact absurd rfl hne
        | append hs' _ => exact ⟨_, _, hs', rfl⟩
    obtain ⟨s', r, hs', rfl⟩ := hchar
    rw [regexDecode_char hs'] at hval
    change utf8Value s' = utf8Value s at hval
    rw [behind_char hs', ← toUtf8_utf8Value hs', hval, toUtf8_utf8Value hs]
  · rintro rfl
    refine ⟨by simp [hs.ne_nil], ?_, (behind_char hs u).symm⟩
    rw [regexDecode_char hs]
    exact beq_self_eq_true _

theorem matchSequence_plain (context : RegexContext) {string : Text} (h : WellFormedUtf8 string) :
    ∀ position endCursor, replacementCodepoint ∉ codepoints string ∨ WellFormedUtf8 position →
      (matchSequence context (plainSequence (codepoints string)) position = some endCursor ↔
        position = string ++ endCursor) := by
  induction h with
  | nil =>
    intro position endCursor _
    rw [codepoints, utf8Pieces_nil]
    exact Option.some_inj
  | @append s t hs ht ih =>
    intro position endCursor hpos
    have hcodepoints : codepoints (s ++ t) = utf8Value s :: codepoints t := by
      rw [codepoints, utf8Pieces_char hs, List.map_cons, codepoints]
    rw [hcodepoints, List.mem_cons, not_or] at hpos
    have hfst (u : Text) := @matchChar_eq_some_iff_append s position u hs
      (hpos.imp (fun h => Ne.symm h.1) id)
    have hone : matchOne context (.character (utf8Value s)) position =
        matchCharacter (fun codepoint => codepoint == utf8Value s) position := by rw [matchOne]
    rw [hcodepoints, plainSequence, matchSequence, choices, if_pos ⟨rfl, rfl⟩, hone]
    cases hmat : matchCharacter (fun codepoint => codepoint == utf8Value s) position with
    | none =>
      refine iff_of_false (by simp) fun h => ?_
      rw [(hfst (t ++ endCursor)).mpr (by rw [h, List.append_assoc])] at hmat
      cases hmat
    | some u =>
      obtain rfl := (hfst u).mp hmat
      have hbeh : replacementCodepoint ∉ codepoints t ∨ WellFormedUtf8 u :=
        hpos.imp And.right (wellFormed_append_iff hs).mp
      rw [List.append_assoc, List.append_cancel_left_eq, ← ih u endCursor hbeh]
      simp

theorem matchesItself_escaped (string : Text) (hstring : WellFormedUtf8 string) (hnul : 0 ∉ string)
    (hlength : (string.flatMap escapeByte).length < 2 ^ 31) :
    MatchesItself (fun position => replacementCodepoint ∉ codepoints string ∨
      WellFormedUtf8 position) string := by
  refine ⟨_, if_neg (Nat.not_le.mpr hlength), unsupported_escaped string,
    ((sequenceParses_escaped hstring hnul).last (by decide)).compile, ?_⟩
  intro context position hpos endCursor
  rw [matchAlternation]
  exact matchSequence_plain context hstring position endCursor hpos

theorem matchesItself_points : MatchesItself (fun position =>
    replacementCodepoint ∉ codepoints (bytes "a.b") ∨ WellFormedUtf8 position) (bytes "a.b") :=
  matchesItself_escaped (bytes "a.b")
    ((wellFormed_ascii_append (s := bytes "a.b") (t := []) (by decide +kernel)).mpr .nil)
    (by decide) (by decide)

theorem not_matchesItself_replacement :
    ¬ ∀ string, WellFormedUtf8 string → 0 ∉ string → MatchesItself (fun _ => True) string := by
  intro h
  have hchar : Utf8Char [0xEF, 0xBF, 0xBD] :=
    .three (by decide) (by unfold IsUtf8Tail; decide) (by decide) (by decide)
      (by unfold IsUtf8Tail; decide)
  have hcodepoints : codepoints [0xEF, 0xBF, 0xBD] = [0xFFFD] := by
    rw [codepoints, ← List.append_nil [0xEF, 0xBF, 0xBD], utf8Pieces_char hchar, utf8Pieces_nil]
    rfl
  obtain ⟨-, -, -, -, hmatches⟩ := h [0xEF, 0xBF, 0xBD] (.append hchar .nil) (by decide)
  have hinvalid := (hmatches ⟨[0xFF], false⟩ [0xFF] trivial []).mp (by
    rw [hcodepoints]
    decide +kernel)
  exact absurd hinvalid (by decide)

end Grayscale.Regex
