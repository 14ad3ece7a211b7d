import Grayscale.Library.JsonGrammar

/-!
# What the strings of JSON stand for

The text that a JSON string stands for: its escapes replaced, surrogate pairs joined, and a
surrogate alone replaced by `U+FFFD`.
-/

namespace Grayscale

open List

def jsonEscapeByte (c : UInt8) : UInt8 :=
  if c = byte 'b' then 0x08
  else if c = byte 'f' then 0x0C
  else if c = byte 'n' then 0x0A
  else if c = byte 'r' then 0x0D
  else if c = byte 't' then 0x09
  else c

/-- The code unit of four hexadecimal digits. -/
def codeUnit (h₁ h₂ h₃ h₄ : UInt8) : ℕ :=
  ((hexDigitValue h₁ * 16 + hexDigitValue h₂) * 16 + hexDigitValue h₃) * 16 + hexDigitValue h₄

/-- A code unit that starts a surrogate pair. -/
def IsHighSurrogate (u : ℕ) : Prop := 0xD800 ≤ u ∧ u ≤ 0xDBFF

/-- A code unit that ends a surrogate pair. -/
def IsLowSurrogate (u : ℕ) : Prop := 0xDC00 ≤ u ∧ u ≤ 0xDFFF

def surrogatePair (high low : ℕ) : ℕ := 0x10000 + (high - 0xD800) * 0x400 + (low - 0xDC00)

def utf8OfCodepoint (codepoint : ℕ) : Text := String.utf8EncodeChar (Char.ofNat codepoint)

def unicodeEscape (h₁ h₂ h₃ h₄ : UInt8) : Text := [byte '\\', byte 'u', h₁, h₂, h₃, h₄]

def StartsLow (t : Text) : Prop := ∃ l₁ l₂ l₃ l₄ t', (∀ c ∈ [l₁, l₂, l₃, l₄], isxdigit c = true) ∧
    IsLowSurrogate (codeUnit l₁ l₂ l₃ l₄) ∧ t = unicodeEscape l₁ l₂ l₃ l₄ ++ t'

/-- The bytes between the quotes, and the text that they stand for. -/
inductive JsonCharsValue : Text → Text → Prop
  | nil : JsonCharsValue [] []
  | plain {c : UInt8} {t d : Text} (hc : 0x20 ≤ c) (hquote : c ≠ byte '"')
      (hslash : c ≠ byte '\\') (ht : JsonCharsValue t d) : JsonCharsValue (c :: t) (c :: d)
  | escape {c : UInt8} {t d : Text} (hc : c ∈ jsonEscapes) (ht : JsonCharsValue t d) :
      JsonCharsValue (byte '\\' :: c :: t) (jsonEscapeByte c :: d)
  | scalar {h₁ h₂ h₃ h₄ : UInt8} {t d : Text} (hex : ∀ c ∈ [h₁, h₂, h₃, h₄], isxdigit c = true)
      (hhigh : ¬ IsHighSurrogate (codeUnit h₁ h₂ h₃ h₄))
      (hlow : ¬ IsLowSurrogate (codeUnit h₁ h₂ h₃ h₄)) (ht : JsonCharsValue t d) :
      JsonCharsValue (unicodeEscape h₁ h₂ h₃ h₄ ++ t)
        (utf8OfCodepoint (codeUnit h₁ h₂ h₃ h₄) ++ d)
  | pair {h₁ h₂ h₃ h₄ l₁ l₂ l₃ l₄ : UInt8} {t d : Text}
      (hex : ∀ c ∈ [h₁, h₂, h₃, h₄], isxdigit c = true)
      (lex : ∀ c ∈ [l₁, l₂, l₃, l₄], isxdigit c = true)
      (hhigh : IsHighSurrogate (codeUnit h₁ h₂ h₃ h₄))
      (hlow : IsLowSurrogate (codeUnit l₁ l₂ l₃ l₄)) (ht : JsonCharsValue t d) :
      JsonCharsValue (unicodeEscape h₁ h₂ h₃ h₄ ++ (unicodeEscape l₁ l₂ l₃ l₄ ++ t))
        (utf8OfCodepoint (surrogatePair (codeUnit h₁ h₂ h₃ h₄) (codeUnit l₁ l₂ l₃ l₄)) ++ d)
  | alone {h₁ h₂ h₃ h₄ : UInt8} {t d : Text} (hex : ∀ c ∈ [h₁, h₂, h₃, h₄], isxdigit c = true)
      (hsurrogate : IsHighSurrogate (codeUnit h₁ h₂ h₃ h₄) ∧ ¬ StartsLow t ∨
        IsLowSurrogate (codeUnit h₁ h₂ h₃ h₄)) (ht : JsonCharsValue t d) :
      JsonCharsValue (unicodeEscape h₁ h₂ h₃ h₄ ++ t) (utf8OfCodepoint 0xFFFD ++ d)

/-- A string with its quotes, and the text that it stands for. -/
def JsonStringValue (s d : Text) : Prop :=
  ∃ t, JsonCharsValue t d ∧ s = byte '"' :: (t ++ [byte '"'])

theorem ne_of_isxdigit {c : UInt8} (h : isxdigit c = true) : c ≠ byte '"' ∧ c ≠ byte '\\' := by
  constructor <;>
    · rintro rfl
      exact absurd h (by decide)

variable {s : Text}

theorem JsonCharsValue.jsonChars {d : Text} (h : JsonCharsValue s d) : JsonChars s := by
  induction h with
  | nil => exact .nil
  | plain hc hq hsla _ ih => exact .plain hc hq hsla ih
  | escape hc _ ih => exact .escape hc ih
  | scalar hex _ _ _ ih => exact .unicode hex ih
  | pair hex lex _ _ _ ih => exact .unicode hex (.unicode lex ih)
  | alone hex _ _ ih => exact .unicode hex ih

theorem exists_jsonCharsValue (h : JsonChars s) : ∃ d, JsonCharsValue s d := by
  -- A pair takes two escapes at once, hence the induction on the length.
  induction hn : s.length using Nat.strong_induction_on generalizing s with
  | _ n ih =>
    subst hn
    cases h with
    | nil => exact ⟨[], .nil⟩
    | plain hc hq hsla ht =>
      obtain ⟨d, hd⟩ := ih _ (by simp) ht rfl
      exact ⟨_, .plain hc hq hsla hd⟩
    | escape hc ht =>
      obtain ⟨d, hd⟩ := ih _ (by simp only [length_cons]; omega) ht rfl
      exact ⟨_, .escape hc hd⟩
    | @unicode h₁ h₂ h₃ h₄ t hex ht =>
      obtain ⟨d, hd⟩ := ih _ (by simp only [length_cons]; omega) ht rfl
      by_cases hlow : IsLowSurrogate (codeUnit h₁ h₂ h₃ h₄)
      · exact ⟨_, .alone hex (.inr hlow) hd⟩
      by_cases hhigh : IsHighSurrogate (codeUnit h₁ h₂ h₃ h₄)
      swap
      · exact ⟨_, .scalar hex hhigh hlow hd⟩
      by_cases hstarts : StartsLow t
      swap
      · exact ⟨_, .alone hex (.inl ⟨hhigh, hstarts⟩) hd⟩
      obtain ⟨l₁, l₂, l₃, l₄, t', lex, hlow', rfl⟩ := hstarts
      have ht' : JsonChars t' := by
        cases ht with
        | plain _ _ hsla _ => exact absurd rfl hsla
        | escape hc _ => exact absurd hc (by decide)
        | unicode _ ht' => exact ht'
      obtain ⟨d', hd'⟩ := ih _
        (by simp only [unicodeEscape, length_cons, length_append]; omega) ht' rfl
      exact ⟨_, .pair hex lex hhigh hlow' hd'⟩

theorem JsonStringValue.isJsonString {d : Text} (h : JsonStringValue s d) : IsJsonString s := by
  obtain ⟨t, ht, rfl⟩ := h
  exact ⟨t, ht.jsonChars, rfl⟩

theorem exists_jsonStringValue (h : IsJsonString s) : ∃ d, JsonStringValue s d := by
  obtain ⟨t, ht, rfl⟩ := h
  obtain ⟨d, hd⟩ := exists_jsonCharsValue ht
  exact ⟨d, t, hd, rfl⟩

/-! ### Members -/

/-- What a member is bound to: the text of a string, and any other value's own text. -/
def IsBinding (v b : Text) : Prop := JsonStringValue v b ∨ ¬ IsJsonString v ∧ b = v

theorem exists_isBinding (v : Text) : ∃ b, IsBinding v b := by
  by_cases h : IsJsonString v
  · obtain ⟨d, hd⟩ := exists_jsonStringValue h
    exact ⟨d, .inl hd⟩
  · exact ⟨v, .inr ⟨h, rfl⟩⟩

/-- One member: its name, and what it is bound to. -/
inductive JsonMember (ws : UInt8 → Bool) (n : ℕ) : Text × Text → Text → Prop
  | mk {w k w' w₁ v w₂ name b : Text} (hw : IsBlank ws w) (hk : JsonStringValue k name)
      (hw' : IsBlank ws w') (hw₁ : IsBlank ws w₁) (hv : JsonSyntax ws .value n v)
      (hb : IsBinding v b) (hw₂ : IsBlank ws w₂) :
      JsonMember ws n (name, b) (w ++ (k ++ (w' ++ byte ':' :: (w₁ ++ (v ++ w₂)))))

/-- The members of an object, in order. -/
inductive JsonMembers (ws : UInt8 → Bool) (n : ℕ) : List (Text × Text) → Text → Prop
  | last {m : Text × Text} {s : Text} (hs : JsonMember ws n m s) : JsonMembers ws n [m] s
  | cons {m : Text × Text} {ms : List (Text × Text)} {s t : Text} (hs : JsonMember ws n m s)
      (ht : JsonMembers ws n ms t) : JsonMembers ws n (m :: ms) (s ++ byte ',' :: t)

variable {ws : UInt8 → Bool}

theorem IsBlank.append {u w : Text} (hu : IsBlank ws u) (hw : IsBlank ws w) :
    IsBlank ws (u ++ w) := forall_mem_append.mpr ⟨hu, hw⟩

variable {n : ℕ} {m : Text × Text} {u : Text}

theorem JsonMember.blank_append (h : JsonMember ws n m s)
    (hu : IsBlank ws u) : JsonMember ws n m (u ++ s) := by
  obtain ⟨hw, hk, hw', hw₁, hv, hb, hw₂⟩ := h
  rw [← append_assoc]
  exact .mk (hu.append hw) hk hw' hw₁ hv hb hw₂

theorem JsonMember.append_blank (h : JsonMember ws n m s)
    (hu : IsBlank ws u) : JsonMember ws n m (s ++ u) := by
  obtain ⟨hw, hk, hw', hw₁, hv, hb, hw₂⟩ := h
  have hmem := JsonMember.mk hw hk hw' hw₁ hv hb (hw₂.append hu)
  simpa only [append_assoc, cons_append] using hmem

variable {ms : List (Text × Text)}

theorem JsonMembers.blank_append (h : JsonMembers ws n ms s)
    (hu : IsBlank ws u) : JsonMembers ws n ms (u ++ s) := by
  cases h with
  | last hm => exact .last (hm.blank_append hu)
  | cons hm ht =>
    rw [← append_assoc]
    exact .cons (hm.blank_append hu) ht

theorem JsonMembers.append_blank (h : JsonMembers ws n ms s)
    (hu : IsBlank ws u) : JsonMembers ws n ms (s ++ u) := by
  induction h with
  | last hm => exact .last (hm.append_blank hu)
  | cons hm _ ih =>
    rw [append_assoc, cons_append]
    exact .cons hm ih

theorem exists_jsonMember (h : JsonSyntax ws .member n s) : ∃ m, JsonMember ws n m s := by
  cases h with
  | member hw hk hw' hs =>
    cases hs with
    | @element _ w₁ v w₂ hw₁ hv hw₂ =>
      obtain ⟨name, hname⟩ := exists_jsonStringValue hk
      obtain ⟨b, hb⟩ := exists_isBinding v
      exact ⟨(name, b), .mk hw hname hw' hw₁ hv hb hw₂⟩

theorem exists_jsonMembers (h : JsonSyntax ws .members n s) : ∃ ms, JsonMembers ws n ms s := by
  generalize hrule : JsonRule.members = rule at h
  induction h with
  | lastMember hs =>
    obtain ⟨m, hm⟩ := exists_jsonMember hs
    exact ⟨[m], .last hm⟩
  | members hs _ _ iht =>
    obtain ⟨m, hm⟩ := exists_jsonMember hs
    obtain ⟨ms, hms⟩ := iht rfl
    exact ⟨m :: ms, .cons hm hms⟩
  | string | number | literal | emptyArray | array | emptyObject | object => cases hrule
  | element | lastElement | elements | member => cases hrule

theorem JsonMember.grammar (h : JsonMember ws n m s) : JsonSyntax ws .member n s := by
  obtain ⟨hw, hk, hw', hw₁, hv, hb, hw₂⟩ := h
  exact .member hw hk.isJsonString hw' (.element hw₁ hv hw₂)

theorem JsonMembers.grammar (h : JsonMembers ws n ms s) : JsonSyntax ws .members n s := by
  induction h with
  | last hm => exact .lastMember hm.grammar
  | cons hm _ ih => exact .members hm.grammar ih

/-- A text that is an object with these members, and white space around it. -/
def ObjectText (ws : UInt8 → Bool) (n : ℕ) (ms : List (Text × Text)) (t w' : Text) : Prop :=
  ∃ w s, IsBlank ws w ∧ IsBlank ws w' ∧ (ms = [] ∧ IsBlank ws s ∨ JsonMembers ws n ms s) ∧
    t = w ++ byte '\x7b' :: (s ++ byte '\x7d' :: w')

theorem ObjectText.grammar {t w' : Text} (h : ObjectText ws n ms t w') :
    JsonSyntax ws .element (n + 1) t := by
  obtain ⟨w, s, hw, hw', hs, rfl⟩ := h
  have hval : JsonSyntax ws .value (n + 1) (byte '\x7b' :: (s ++ [byte '\x7d'])) := by
    rcases hs with ⟨-, hbla⟩ | hms
    · exact .emptyObject hbla
    · exact .object hms.grammar
  have helem := JsonSyntax.element hw hval hw'
  simpa only [cons_append, append_assoc, nil_append] using helem

/-! ### Elements -/

/-- The elements of an array, in order: each value with the white space between it and the comma or
bracket behind it. -/
inductive JsonElements (ws : UInt8 → Bool) (n : ℕ) : List (Text × Text) → Text → Prop
  | last {w v w' : Text} (hw : IsBlank ws w) (hv : JsonSyntax ws .value n v) (hw' : IsBlank ws w') :
      JsonElements ws n [(v, w')] (w ++ (v ++ w'))
  | cons {w v w' t : Text} {es : List (Text × Text)} (hw : IsBlank ws w)
      (hv : JsonSyntax ws .value n v) (hw' : IsBlank ws w') (ht : JsonElements ws n es t) :
      JsonElements ws n ((v, w') :: es) (w ++ (v ++ w') ++ byte ',' :: t)

theorem exists_jsonElements (h : JsonSyntax ws .elements n s) : ∃ es, JsonElements ws n es s := by
  generalize hrule : JsonRule.elements = rule at h
  induction h with
  | lastElement hs =>
    cases hs with
    | element hw hv hw' => exact ⟨_, .last hw hv hw'⟩
  | elements hs _ _ iht =>
    obtain ⟨es, hes⟩ := iht rfl
    cases hs with
    | element hw hv hw' => exact ⟨_, .cons hw hv hw' hes⟩
  | string | number | literal | emptyArray | array | emptyObject | object => cases hrule
  | element | lastMember | members | member => cases hrule

/-- A text that is an array with these elements, and white space around it. -/
def ArrayText (ws : UInt8 → Bool) (n : ℕ) (es : List (Text × Text)) (t : Text) : Prop :=
  ∃ w s w', IsBlank ws w ∧ IsBlank ws w' ∧ (es = [] ∧ IsBlank ws s ∨ JsonElements ws n es s) ∧
    t = w ++ byte '[' :: (s ++ byte ']' :: w')

end Grayscale
