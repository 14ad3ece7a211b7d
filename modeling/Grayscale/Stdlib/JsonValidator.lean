import Grayscale.Library.JsonGrammar
import Mathlib.Tactic.Ring

/-!
# The JSON validator

The recursive descent of `gray_json_is_valid` over the bytes from the cursor on. The recursion is
bounded by fuel.
-/

namespace Grayscale

open List
open Option (bind_some some.inj)

def grayJsonMaxDepth : ℕ := 512

def skipWhitespace (cursor : Text) : Text := cursor.dropWhile isspace

/-! ### Tokens

A helper gives the text after the token, or `none` where the source returns false. -/

/-- The loop of `validate_json_string_literal`, and the closing quote. -/
@[grind =] def validateJsonChars : Text → Option Text
  | [] => none
  | character :: cursor =>
    if character = byte '"' then some cursor
    else if character = byte '\\' then
      match cursor with
      | [] => none
      | escaped :: cursor =>
        if escaped ∈ jsonEscapes then validateJsonChars cursor
        else if escaped = byte 'u' then
          match cursor with
          | h₁ :: h₂ :: h₃ :: h₄ :: cursor =>
            if isxdigit h₁ && isxdigit h₂ && isxdigit h₃ && isxdigit h₄ then
              validateJsonChars cursor
            else none
          | _ => none
        else none
    else if character < 0x20 then none
    else validateJsonChars cursor

def validateJsonStringLiteral : Text → Option Text
  | [] => none
  | character :: cursor => if character = byte '"' then validateJsonChars cursor else none

/-- The digits of a number: at least one. -/
@[grind =] def validateJsonDigits : Text → Option Text
  | [] => none
  | character :: cursor => if isdigit character then some (cursor.dropWhile isdigit) else none

/-- The integer part of a number. -/
@[grind =] def validateJsonInt : Text → Option Text
  | [] => none
  | character :: cursor =>
    if character = byte '0' then some cursor
    else if byte '1' ≤ character ∧ character ≤ byte '9' then some (cursor.dropWhile isdigit)
    else none

@[grind =] def validateJsonFrac : Text → Option Text
  | [] => some []
  | character :: cursor =>
    if character = byte '.' then validateJsonDigits cursor else some (character :: cursor)

@[grind =] def skipJsonSign : Text → Text
  | [] => []
  | character :: cursor =>
    if character = byte '+' ∨ character = byte '-' then cursor else character :: cursor

/-- The exponent. -/
@[grind =] def validateJsonExp : Text → Option Text
  | [] => some []
  | character :: cursor =>
    if character = byte 'e' ∨ character = byte 'E' then validateJsonDigits (skipJsonSign cursor)
    else some (character :: cursor)

@[grind =] def skipJsonMinus : Text → Text
  | [] => []
  | character :: cursor => if character = byte '-' then cursor else character :: cursor

@[grind =] def validateJsonNumber (cursor : Text) : Option Text :=
  (validateJsonInt (skipJsonMinus cursor)).bind fun cursor =>
    (validateJsonFrac cursor).bind validateJsonExp

def validateJsonLiteral (literal cursor : Text) : Option Text :=
  if literal.isPrefixOf cursor then some (cursor.drop literal.length) else none

/-! ### Values -/

/-- What a validator comes to: the text after what it accepts, a refusal, or no fuel left. -/
inductive Validation
  | accepted (cursor : Text)
  | refused
  | outOfFuel
  deriving DecidableEq

namespace Validation

/-- What a token's helper comes to. -/
def ofOption : Option Text → Validation
  | some cursor => accepted cursor
  | none => refused

/-- Go on after an accepted part. -/
def andThen (v : Validation) (next : Text → Validation) : Validation :=
  match v with
  | accepted cursor => next cursor
  | refused => refused
  | outOfFuel => outOfFuel

end Validation

open Validation

/-- The end of a round: a comma leads to the next one, `close` ends the loop. -/
def nextItem (close : UInt8) (again : Text → Validation) (cursor : Text) : Validation :=
  match skipWhitespace cursor with
  | [] => refused
  | character :: cursor =>
    if character = byte ',' then again cursor
    else if character = close then accepted cursor
    else refused

/-- The start of an array or object, at its bracket: it is empty, or the loop runs. -/
def validateBracket (close : UInt8) (loop : Text → Validation) (cursor : Text) : Validation :=
  match skipWhitespace (cursor.drop 1) with
  | [] => loop []
  | character :: cursor =>
    if character = close then accepted cursor else loop (character :: cursor)

/-- The name of a member and its colon. -/
def validateJsonName (next : Text → Validation) (cursor : Text) : Validation :=
  (ofOption (validateJsonStringLiteral (skipWhitespace cursor))).andThen fun cursor =>
    match skipWhitespace cursor with
    | [] => refused
    | character :: cursor => if character = byte ':' then next cursor else refused

mutual

@[grind =] def validateJsonValue : ℕ → ℕ → Text → Validation
  | 0, _, _ => outOfFuel
  | fuel + 1, depth, cursor =>
    if depth > grayJsonMaxDepth then refused
    else match skipWhitespace cursor with
      | [] => refused
      | character :: rest =>
        let cursor := character :: rest
        if character = byte '\x7b' then
          validateBracket (byte '\x7d') (validateJsonObject fuel depth) cursor
        else if character = byte '[' then
          validateBracket (byte ']') (validateJsonArray fuel depth) cursor
        else if character = byte '"' then ofOption (validateJsonStringLiteral cursor)
        else if character = byte '-' ∨ isdigit character then ofOption (validateJsonNumber cursor)
        else if character = byte 't' then ofOption (validateJsonLiteral (bytes "true") cursor)
        else if character = byte 'f' then ofOption (validateJsonLiteral (bytes "false") cursor)
        else if character = byte 'n' then ofOption (validateJsonLiteral (bytes "null") cursor)
        else refused

/-- The loop of `validate_json_array`. -/
@[grind =] def validateJsonArray : ℕ → ℕ → Text → Validation
  | 0, _, _ => outOfFuel
  | fuel + 1, depth, cursor =>
    (validateJsonValue fuel (depth + 1) (skipWhitespace cursor)).andThen
      (nextItem (byte ']') (validateJsonArray fuel depth))

/-- The loop of `validate_json_object`. -/
@[grind =] def validateJsonObject : ℕ → ℕ → Text → Validation
  | 0, _, _ => outOfFuel
  | fuel + 1, depth, cursor =>
    validateJsonName (fun cursor =>
      (validateJsonValue fuel (depth + 1) (skipWhitespace cursor)).andThen
        (nextItem (byte '\x7d') (validateJsonObject fuel depth))) cursor

end

/-- The loop over the characters in `gray_json_is_valid`. -/
def utf8Scan (scan : Text) : Bool :=
  match scan with
  | [] => true
  | c :: rest =>
    if c < 0x80 then utf8Scan rest
    else
      if grayUtf8Decode (c :: rest) = (replacementCodepoint, 1) then false
      else utf8Scan ((c :: rest).drop (grayUtf8Decode (c :: rest)).2)
termination_by scan.length
decreasing_by
  · simp
  · have := utf8Decode_pos (c :: rest)
    simp only [length_drop, length_cons]
    omega

/-- `gray_json_is_valid`; `none` when the fuel runs out. -/
def grayJsonIsValid (fuel : ℕ) (text : Text) : Option Bool :=
  if text = [] then some false
  else if utf8Scan text = false then some false
  else match skipWhitespace text with
    | [] => some false
    | character :: rest =>
      match validateJsonValue fuel 0 (character :: rest) with
      | .outOfFuel => none
      | .refused => some false
      | .accepted cursor => some (skipWhitespace cursor == [])

/-! ### What the tokens accept -/

theorem jsonChars_quote (rest : Text) : validateJsonChars (byte '"' :: rest) = some rest := by
  rw [validateJsonChars.eq_def]
  exact if_pos rfl

variable {c : UInt8}

theorem jsonChars_plain (hc : 0x20 ≤ c) (hq : c ≠ byte '"')
    (hsla : c ≠ byte '\\') (l : Text) : validateJsonChars (c :: l) = validateJsonChars l := by
  rw [validateJsonChars.eq_def]
  simp only [if_neg hq, if_neg hsla, if_neg (UInt8.not_lt.mpr hc)]

theorem jsonChars_escape (hc : c ∈ jsonEscapes) (l : Text) :
    validateJsonChars (byte '\\' :: c :: l) = validateJsonChars l := by
  rw [validateJsonChars.eq_def]
  simp only [if_neg (by decide : byte '\\' ≠ byte '"'), if_true, if_pos hc]

theorem jsonChars_unicode {h₁ h₂ h₃ h₄ : UInt8}
    (hex : ∀ c ∈ [h₁, h₂, h₃, h₄], isxdigit c = true) (l : Text) :
    validateJsonChars (byte '\\' :: byte 'u' :: h₁ :: h₂ :: h₃ :: h₄ :: l) =
      validateJsonChars l := by
  simp only [forall_mem_cons] at hex
  rw [validateJsonChars.eq_def]
  simp only [if_neg (by decide : byte '\\' ≠ byte '"'), if_true,
    if_neg (by decide : byte 'u' ∉ jsonEscapes), hex.1, hex.2.1, hex.2.2.1, hex.2.2.2.1,
    Bool.and_self]

variable {rest l : Text}

theorem jsonChars_sound (h : validateJsonChars l = some rest) :
    ∃ s, JsonChars s ∧ l = s ++ byte '"' :: rest := by
  fun_induction validateJsonChars l with
  | case1 => simp at h
  | case2 cursor => exact ⟨[], .nil, by rw [nil_append, some.inj h]⟩
  | case3 | case6 | case7 | case8 | case9 => simp at h
  | case4 e cursor hesc _ ih =>
    obtain ⟨s, hs, rfl⟩ := ih h
    exact ⟨byte '\\' :: e :: s, .escape hesc hs, rfl⟩
  | case5 h₁ h₂ h₃ h₄ cursor hex _ _ ih =>
    obtain ⟨s, hs, rfl⟩ := ih h
    simp only [Bool.and_eq_true] at hex
    refine ⟨byte '\\' :: byte 'u' :: h₁ :: h₂ :: h₃ :: h₄ :: s, .unicode ?_ hs, rfl⟩
    simp only [forall_mem_cons, not_mem_nil, false_imp_iff, implies_true, and_true]
    exact ⟨hex.1.1.1, hex.1.1.2, hex.1.2, hex.2⟩
  | case10 c cursor hq hsla hlow ih =>
    obtain ⟨s, hs, rfl⟩ := ih h
    exact ⟨c :: s, .plain (UInt8.not_lt.mp hlow) hq hsla hs, rfl⟩

variable {s : Text}

theorem jsonChars_complete (hs : JsonChars s) (rest : Text) :
    validateJsonChars (s ++ byte '"' :: rest) = some rest := by
  induction hs with
  | nil => exact jsonChars_quote rest
  | plain hc hq hsla _ ih =>
    rw [cons_append, jsonChars_plain hc hq hsla, ih]
  | escape hc _ ih => rw [cons_append, cons_append, jsonChars_escape hc, ih]
  | unicode hex _ ih =>
    simp only [cons_append]
    rw [jsonChars_unicode hex, ih]

theorem jsonString_iff :
    validateJsonStringLiteral l = some rest ↔ ∃ s, IsJsonString s ∧ l = s ++ rest := by
  constructor
  · intro h
    cases l with
    | nil => simp [validateJsonStringLiteral] at h
    | cons c l =>
      rw [validateJsonStringLiteral] at h
      split_ifs at h with hc
      obtain ⟨s, hs, rfl⟩ := jsonChars_sound h
      exact ⟨byte '"' :: (s ++ [byte '"']), ⟨s, hs, rfl⟩, by simp [hc]⟩
  · rintro ⟨_, ⟨s, hs, rfl⟩, rfl⟩
    rw [cons_append, validateJsonStringLiteral, if_pos rfl, append_assoc]
    exact jsonChars_complete hs rest

theorem validateJsonLiteral_iff {literal : Text} :
    validateJsonLiteral literal l = some rest ↔ l = literal ++ rest := by
  rw [validateJsonLiteral]
  constructor
  · intro h
    split_ifs at h with hp
    obtain ⟨t, rfl⟩ := List.isPrefixOf_iff_prefix.mp hp
    rw [← some.inj h, drop_left]
  · rintro rfl
    rw [if_pos (List.isPrefixOf_iff_prefix.mpr (prefix_append _ _)), drop_left]

/-- What may follow a number, so that the number's helper stops. -/
def EndsNumber (rest : Text) : Prop :=
  ∀ c ∈ rest.head?, isdigit c = false ∧ c ≠ byte '.' ∧ c ≠ byte 'e' ∧ c ≠ byte 'E'

/-- No digit stands in front. -/
def EndsDigits (rest : Text) : Prop := ∀ c ∈ rest.head?, isdigit c = false

theorem endsDigits_cons (hc : isdigit c = false) (l : Text) : EndsDigits (c :: l) := by
  simpa [EndsDigits] using hc

theorem dropWhile_append_of_digits (hs : ∀ c ∈ s, isdigit c = true)
    (hrest : EndsDigits rest) : (s ++ rest).dropWhile isdigit = rest := by
  rw [dropWhile_append_of_pos hs]
  cases rest with
  | nil => rfl
  | cons c l => exact dropWhile_cons_of_neg (by simp [hrest c rfl])

theorem validateJsonDigits_sound (h : validateJsonDigits l = some rest) :
    ∃ s, IsDigits s ∧ l = s ++ rest := by
  cases l with
  | nil => simp [validateJsonDigits] at h
  | cons c l =>
    rw [validateJsonDigits] at h
    split_ifs at h with hc
    refine ⟨c :: l.takeWhile isdigit, ⟨cons_ne_nil _ _, ?_⟩, ?_⟩
    · exact forall_mem_cons.mpr ⟨hc, fun d hd => mem_takeWhile_imp hd⟩
    · rw [← some.inj h, cons_append, takeWhile_append_dropWhile]

theorem validateJsonDigits_complete (hs : IsDigits s) (hrest : EndsDigits rest) :
    validateJsonDigits (s ++ rest) = some rest := by
  obtain ⟨hne, hdig⟩ := hs
  cases s with
  | nil => exact absurd rfl hne
  | cons c s =>
    obtain ⟨hc, hs⟩ := forall_mem_cons.mp hdig
    rw [cons_append, validateJsonDigits, if_pos hc, dropWhile_append_of_digits hs hrest]

theorem skipJsonMinus_sound (l : Text) :
    ∃ minus, (minus = [] ∨ minus = [byte '-']) ∧ l = minus ++ skipJsonMinus l := by
  cases l with
  | nil => exact ⟨[], .inl rfl, rfl⟩
  | cons c l =>
    rw [skipJsonMinus]
    split_ifs with hc
    · exact ⟨[byte '-'], .inr rfl, by rw [hc]; rfl⟩
    · exact ⟨[], .inl rfl, rfl⟩

theorem skipJsonSign_sound (l : Text) :
    ∃ sign, (sign = [] ∨ sign = [byte '+'] ∨ sign = [byte '-']) ∧ l = sign ++ skipJsonSign l := by
  cases l with
  | nil => exact ⟨[], .inl rfl, rfl⟩
  | cons c l =>
    rw [skipJsonSign]
    split_ifs with hc
    · exact ⟨[c], .inr (by simpa using hc), rfl⟩
    · exact ⟨[], .inl rfl, rfl⟩

theorem validateJsonInt_sound (h : validateJsonInt l = some rest) :
    ∃ s, IsJsonInt s ∧ l = s ++ rest := by
  cases l with
  | nil => simp [validateJsonInt] at h
  | cons c l =>
    rw [validateJsonInt] at h
    split_ifs at h with hzero hdig
    · exact ⟨[byte '0'], .inl rfl, by rw [hzero, some.inj h]; rfl⟩
    · refine ⟨c :: l.takeWhile isdigit, .inr ⟨⟨cons_ne_nil _ _, ?_⟩, ?_⟩, ?_⟩
      · have hc : isdigit c = true := by
          rw [isdigit, Bool.and_eq_true, decide_eq_true_eq, decide_eq_true_eq]
          exact ⟨UInt8.le_trans (by decide) hdig.1, hdig.2⟩
        exact forall_mem_cons.mpr ⟨hc, fun d hd => mem_takeWhile_imp hd⟩
      · simpa using hzero
      · rw [← some.inj h, cons_append, takeWhile_append_dropWhile]

theorem validateJsonFrac_sound (h : validateJsonFrac l = some rest) :
    ∃ s, IsJsonFrac s ∧ l = s ++ rest := by
  cases l with
  | nil => exact ⟨[], .inl rfl, some.inj h⟩
  | cons c l =>
    rw [validateJsonFrac] at h
    split_ifs at h with hc
    · obtain ⟨s, hs, rfl⟩ := validateJsonDigits_sound h
      exact ⟨byte '.' :: s, .inr ⟨s, hs, rfl⟩, by rw [hc]; rfl⟩
    · exact ⟨[], .inl rfl, some.inj h⟩

theorem validateJsonExp_sound (h : validateJsonExp l = some rest) :
    ∃ s, IsJsonExp s ∧ l = s ++ rest := by
  cases l with
  | nil => exact ⟨[], .inl rfl, some.inj h⟩
  | cons e l =>
    rw [validateJsonExp] at h
    split_ifs at h with he
    · obtain ⟨s, hs, hl⟩ := validateJsonDigits_sound h
      obtain ⟨sign, hsign, hskip⟩ := skipJsonSign_sound l
      refine ⟨e :: (sign ++ s), .inr ⟨e, sign, s, he, hsign, hs, rfl⟩, ?_⟩
      rw [hskip, hl, cons_append, append_assoc]
    · exact ⟨[], .inl rfl, some.inj h⟩

theorem validateJsonNumber_sound (h : validateJsonNumber l = some rest) :
    ∃ s, IsJsonNumber s ∧ l = s ++ rest := by
  rw [validateJsonNumber, Option.bind_eq_some_iff] at h
  obtain ⟨l₁, h₁, h⟩ := h
  obtain ⟨l₂, h₂, h₃⟩ := Option.bind_eq_some_iff.mp h
  obtain ⟨minus, hneg, hl⟩ := skipJsonMinus_sound l
  obtain ⟨int, hint, hl₁⟩ := validateJsonInt_sound h₁
  obtain ⟨frac, hfrac, rfl⟩ := validateJsonFrac_sound h₂
  obtain ⟨exp, hexp, rfl⟩ := validateJsonExp_sound h₃
  refine ⟨_, ⟨minus, int, frac, exp, hneg, hint, hfrac, hexp, rfl⟩, ?_⟩
  rw [hl, hl₁]
  simp only [append_assoc]

theorem IsDigits.exists_cons (h : IsDigits s) :
    ∃ c t, s = c :: t ∧ isdigit c = true ∧ ∀ d ∈ t, isdigit d = true := by
  obtain ⟨hne, hdig⟩ := h
  cases s with
  | nil => exact absurd rfl hne
  | cons c t => exact ⟨c, t, rfl, forall_mem_cons.mp hdig⟩

theorem IsJsonInt.exists_cons (h : IsJsonInt s) : ∃ c t, s = c :: t ∧ isdigit c = true := by
  rcases h with rfl | ⟨hdig, -⟩
  · exact ⟨_, _, rfl, by decide⟩
  · obtain ⟨c, t, rfl, hc, -⟩ := hdig.exists_cons
    exact ⟨c, t, rfl, hc⟩

theorem skipJsonMinus_complete {minus int : Text} (hneg : minus = [] ∨ minus = [byte '-'])
    (hint : IsJsonInt int) (rest : Text) :
    skipJsonMinus (minus ++ (int ++ rest)) = int ++ rest := by
  obtain ⟨c, t, rfl, hc⟩ := hint.exists_cons
  rcases hneg with rfl | rfl
  · have hne : c ≠ byte '-' := by rintro rfl; exact absurd hc (by decide)
    rw [nil_append, cons_append, skipJsonMinus, if_neg hne]
  · rfl

theorem skipJsonSign_complete {sign digits : Text}
    (hsign : sign = [] ∨ sign = [byte '+'] ∨ sign = [byte '-']) (hdig : IsDigits digits)
    (rest : Text) : skipJsonSign (sign ++ (digits ++ rest)) = digits ++ rest := by
  obtain ⟨c, t, rfl, hc, -⟩ := hdig.exists_cons
  rcases hsign with rfl | rfl | rfl
  · have hne : ¬ (c = byte '+' ∨ c = byte '-') := by
      rintro (rfl | rfl) <;> exact absurd hc (by decide)
    rw [nil_append, cons_append, skipJsonSign, if_neg hne]
  · rfl
  · rfl

theorem validateJsonInt_complete {int : Text} (hint : IsJsonInt int) (hrest : EndsDigits rest) :
    validateJsonInt (int ++ rest) = some rest := by
  rcases hint with rfl | ⟨hdig, hhead⟩
  · rfl
  · obtain ⟨c, t, rfl, hc, ht⟩ := hdig.exists_cons
    have hzero : c ≠ byte '0' := by simpa using hhead
    rw [isdigit, Bool.and_eq_true, decide_eq_true_eq, decide_eq_true_eq] at hc
    have hone : byte '1' ≤ c := by
      have hne : c.toNat ≠ 48 := fun h => hzero (UInt8.toNat_inj.mp h)
      have hle : 48 ≤ c.toNat := UInt8.le_iff_toNat_le.mp hc.1
      rw [UInt8.le_iff_toNat_le]
      change 49 ≤ c.toNat
      omega
    rw [cons_append, validateJsonInt, if_neg hzero, if_pos ⟨hone, hc.2⟩,
      dropWhile_append_of_digits ht hrest]

theorem validateJsonFrac_complete {frac : Text} (hfrac : IsJsonFrac frac) (hrest : EndsDigits rest)
    (hpt : ∀ c ∈ rest.head?, c ≠ byte '.') : validateJsonFrac (frac ++ rest) = some rest := by
  rcases hfrac with rfl | ⟨t, ht, rfl⟩
  · cases rest with
    | nil => rfl
    | cons c l => rw [nil_append, validateJsonFrac, if_neg (hpt c rfl)]
  · rw [cons_append, validateJsonFrac, if_pos rfl, validateJsonDigits_complete ht hrest]

theorem validateJsonExp_complete {exp : Text} (hexp : IsJsonExp exp) (hrest : EndsNumber rest) :
    validateJsonExp (exp ++ rest) = some rest := by
  rcases hexp with rfl | ⟨e, sign, t, he, hsign, ht, rfl⟩
  · cases rest with
    | nil => rfl
    | cons c l =>
      have hne : ¬ (c = byte 'e' ∨ c = byte 'E') := not_or.mpr (hrest c rfl).2.2
      rw [nil_append, validateJsonExp, if_neg hne]
  · rw [cons_append, validateJsonExp, if_pos he, append_assoc, skipJsonSign_complete hsign ht,
      validateJsonDigits_complete ht fun c hc => (hrest c hc).1]

theorem endsNumber_exp {exp : Text} (hexp : IsJsonExp exp) (hrest : EndsNumber rest) :
    ∀ c ∈ (exp ++ rest).head?, isdigit c = false ∧ c ≠ byte '.' := by
  rcases hexp with rfl | ⟨e, sign, t, rfl | rfl, -, -, rfl⟩
  · exact fun c hc => ⟨(hrest c hc).1, (hrest c hc).2.1⟩
  · simpa using (by decide : isdigit (byte 'e') = false ∧ byte 'e' ≠ byte '.')
  · simpa using (by decide : isdigit (byte 'E') = false ∧ byte 'E' ≠ byte '.')

theorem endsDigits_frac {frac : Text} (hfrac : IsJsonFrac frac) (hrest : EndsDigits rest) :
    EndsDigits (frac ++ rest) := by
  rcases hfrac with rfl | ⟨t, -, rfl⟩
  · exact hrest
  · exact endsDigits_cons (by decide) _

theorem validateJsonNumber_complete (hs : IsJsonNumber s) (hrest : EndsNumber rest) :
    validateJsonNumber (s ++ rest) = some rest := by
  obtain ⟨minus, int, frac, exp, hneg, hint, hfrac, hexp, rfl⟩ := hs
  have haft := endsNumber_exp hexp hrest
  have hdig : EndsDigits (exp ++ rest) := fun c hc => (haft c hc).1
  simp only [append_assoc]
  rw [validateJsonNumber, skipJsonMinus_complete hneg hint,
    validateJsonInt_complete hint (endsDigits_frac hfrac hdig), bind_some,
    validateJsonFrac_complete hfrac hdig fun c hc => (haft c hc).2, bind_some,
    validateJsonExp_complete hexp hrest]

end Grayscale
