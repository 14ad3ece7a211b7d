import Grayscale.Runtime.MapLaws
import Grayscale.Stdlib.JsonDecode
import Grayscale.Stdlib.JsonValidatorLaws

/-!
# What the JSON decoder gives

The decoder against the grammar of the validator: on every object that is valid it binds the names
of the members to their values, and stops at the closing brace.
-/

namespace Grayscale

open HashMaps List

/-! ### Code units and codepoints -/

theorem hexDigit_spec : ∀ c : UInt8,
    grayHexDigitValue c = (if isxdigit c = true then some (hexDigitValue c) else none) ∧
      (isxdigit c = true → hexDigitValue c < 16) := forall_byte (by decide +kernel)

variable {c : UInt8}

theorem hexDigit_eq (h : isxdigit c = true) : grayHexDigitValue c = some (hexDigitValue c) := by
  rw [(hexDigit_spec c).1, if_pos h]

theorem isxdigit_of_hexDigit {d : ℕ} (h : grayHexDigitValue c = some d) : isxdigit c = true := by
  by_contra hnot
  rw [(hexDigit_spec c).1, if_neg hnot] at h
  cases h

theorem hexDigitValue_lt (h : isxdigit c = true) : hexDigitValue c < 16 := (hexDigit_spec c).2 h

theorem codeUnit_lt {h₁ h₂ h₃ h₄ : UInt8} (hex : ∀ c ∈ [h₁, h₂, h₃, h₄], isxdigit c = true) :
    codeUnit h₁ h₂ h₃ h₄ < 0x10000 := by
  simp only [forall_mem_cons] at hex
  have := hexDigitValue_lt hex.1
  have := hexDigitValue_lt hex.2.1
  have := hexDigitValue_lt hex.2.2.1
  have := hexDigitValue_lt hex.2.2.2.1
  rw [codeUnit]
  omega

theorem jsonHex4_eq {h₁ h₂ h₃ h₄ : UInt8} (hex : ∀ c ∈ [h₁, h₂, h₃, h₄], isxdigit c = true)
    (t : Text) : jsonHex4 (h₁ :: h₂ :: h₃ :: h₄ :: t) = some (codeUnit h₁ h₂ h₃ h₄) := by
  simp only [forall_mem_cons] at hex
  simp only [jsonHex4, hexDigit_eq hex.1, hexDigit_eq hex.2.1,
    hexDigit_eq hex.2.2.1, hexDigit_eq hex.2.2.2.1, Option.bind_some]
  rfl

theorem exists_of_jsonHex4 {l : Text} {u : ℕ} (h : jsonHex4 l = some u) :
    ∃ h₁ h₂ h₃ h₄ t, l = h₁ :: h₂ :: h₃ :: h₄ :: t ∧
      (∀ c ∈ [h₁, h₂, h₃, h₄], isxdigit c = true) ∧ u = codeUnit h₁ h₂ h₃ h₄ := by
  match l, h with
  | h₁ :: h₂ :: h₃ :: h₄ :: t, h =>
    have hsome := h
    simp only [jsonHex4, Option.bind_eq_some_iff] at hsome
    obtain ⟨d₁, hd₁, d₂, hd₂, d₃, hd₃, d₄, hd₄, -⟩ := hsome
    have hex : ∀ c ∈ [h₁, h₂, h₃, h₄], isxdigit c = true := by
      simp only [forall_mem_cons]
      exact ⟨isxdigit_of_hexDigit hd₁, isxdigit_of_hexDigit hd₂,
        isxdigit_of_hexDigit hd₃, isxdigit_of_hexDigit hd₄, by simp⟩
    rw [jsonHex4_eq hex] at h
    exact ⟨h₁, h₂, h₃, h₄, t, rfl, hex, (Option.some.inj h).symm⟩

variable {n : ℕ}

theorem jsonPutUtf8_eq (hn : n < 0x110000) (hhigh : ¬ IsHighSurrogate n) (hlow : ¬ IsLowSurrogate n) :
    jsonPutUtf8 n = utf8OfCodepoint n := by
  have hvalid : n.isValidChar := by
    simp only [IsHighSurrogate, IsLowSurrogate] at hhigh hlow
    rw [Nat.isValidChar]
    omega
  have hval : (Char.ofNat n).val.toNat = n := by
    rw [Char.ofNat, dif_pos hvalid]
    rfl
  have htail : ∀ m, 0x80 ||| (m &&& 0x3F) = m % 0x40 + 0x80 := by
    intro m
    have hall : ∀ k < 0x40, 0x80 ||| k = k + 0x80 := by decide
    rw [show (0x3F : ℕ) = 2 ^ 6 - 1 by rfl, Nat.and_two_pow_sub_one_eq_mod]
    exact hall _ (Nat.mod_lt _ (by decide))
  have htwo : ∀ k < 0x20, 0xC0 ||| k = k + 0xC0 := by decide
  have hthree : ∀ k < 0x10, 0xE0 ||| k = k + 0xE0 := by decide
  have hfour : ∀ k < 0x08, 0xF0 ||| k = k + 0xF0 := by decide
  simp only [jsonPutUtf8, utf8OfCodepoint, String.utf8EncodeChar, hval, htail,
    Nat.shiftRight_eq_div_pow]
  by_cases hone : n < 0x80
  · rw [if_pos hone, if_pos (by omega)]
  by_cases htwo' : n < 0x800
  · rw [if_neg hone, if_pos htwo', if_neg (by omega), if_pos (by omega), htwo _ (by omega),
      Nat.mod_eq_of_lt (by omega : n / 64 < 32)]
  by_cases hthree' : n < 0x10000
  · rw [if_neg hone, if_neg htwo', if_pos hthree', if_neg (by omega), if_neg (by omega),
      if_pos (by omega), hthree _ (by omega), Nat.mod_eq_of_lt (by omega : n / 4096 < 16)]
  · rw [if_neg hone, if_neg htwo', if_neg hthree', if_neg (by omega), if_neg (by omega),
      if_neg (by omega), hfour _ (by omega), Nat.mod_eq_of_lt (by omega : n / 262144 < 8)]

/-! ### Strings -/

variable {u : ℕ}

theorem jsonCodepoint_scalar (hhigh : ¬ IsHighSurrogate u) (hlow : ¬ IsLowSurrogate u)
    (scan : Text) : jsonCodepoint u scan = (u, 0) := by
  unfold IsHighSurrogate at hhigh
  unfold IsLowSurrogate at hlow
  unfold jsonCodepoint
  rw [if_neg hhigh, if_neg hlow]

theorem jsonCodepoint_pair {l₁ l₂ l₃ l₄ : UInt8} (hhigh : IsHighSurrogate u)
    (lex : ∀ c ∈ [l₁, l₂, l₃, l₄], isxdigit c = true)
    (hlow : IsLowSurrogate (codeUnit l₁ l₂ l₃ l₄)) (t : Text) :
    jsonCodepoint u (unicodeEscape l₁ l₂ l₃ l₄ ++ t) =
      (surrogatePair u (codeUnit l₁ l₂ l₃ l₄), 6) := by
  unfold IsHighSurrogate at hhigh
  unfold IsLowSurrogate at hlow
  have hshf : (u - 0xD800) <<< 10 = (u - 0xD800) * 0x400 := Nat.shiftLeft_eq _ _
  unfold jsonCodepoint surrogatePair
  rw [if_pos hhigh]
  simp only [unicodeEscape, cons_append, nil_append, and_self, if_true, jsonHex4_eq lex,
    if_pos hlow, hshf]

theorem jsonCodepoint_low (hlow : IsLowSurrogate u) (scan : Text) :
    jsonCodepoint u scan = (0xFFFD, 0) := by
  have hhigh : ¬ (0xD800 ≤ u ∧ u ≤ 0xDBFF) := fun h => by
    unfold IsLowSurrogate at hlow
    omega
  unfold IsLowSurrogate at hlow
  unfold jsonCodepoint
  rw [if_neg hhigh, if_pos hlow]

theorem jsonCodepoint_alone (hhigh : IsHighSurrogate u) {scan : Text}
    (hstarts : ¬ StartsLow scan) : jsonCodepoint u scan = (0xFFFD, 0) := by
  unfold IsHighSurrogate at hhigh
  unfold jsonCodepoint
  rw [if_pos hhigh]
  match scan, hstarts with
  | [], _ => rfl
  | [_], _ => rfl
  | s₀ :: s₁ :: rest, hstarts =>
    simp only
    by_cases hesc : s₀ = byte '\\' ∧ s₁ = byte 'u'
    · rw [if_pos hesc]
      cases hhex : jsonHex4 rest with
      | none => rfl
      | some low =>
        obtain ⟨l₁, l₂, l₃, l₄, t, rfl, lex, rfl⟩ := exists_of_jsonHex4 hhex
        have hlow : ¬ (0xDC00 ≤ codeUnit l₁ l₂ l₃ l₄ ∧ codeUnit l₁ l₂ l₃ l₄ ≤ 0xDFFF) := by
          intro hlow
          refine hstarts ⟨l₁, l₂, l₃, l₄, t, lex, hlow, ?_⟩
          rw [hesc.1, hesc.2]
          rfl
        exact if_neg hlow
    · rw [if_neg hesc]

theorem jsonUnescape_plain (hc : c ≠ byte '\\') (l : Text) :
    jsonUnescape (c :: l) = c :: jsonUnescape l := by
  rw [jsonUnescape.eq_def]
  exact if_pos hc

theorem jsonUnescape_escape (hc : c ∈ jsonEscapes) (l : Text) :
    jsonUnescape (byte '\\' :: c :: l) = jsonEscapeByte c :: jsonUnescape l := by
  have hu : c ≠ byte 'u' := by
    rintro rfl
    exact absurd hc (by decide)
  rw [jsonUnescape.eq_def, jsonEscapeByte]
  simp only [ne_eq, not_true_eq_false, if_false, if_neg hu]
  split_ifs <;> rfl

theorem jsonUnescape_unicode {h₁ h₂ h₃ h₄ : UInt8}
    (hex : ∀ c ∈ [h₁, h₂, h₃, h₄], isxdigit c = true) (l : Text) :
    jsonUnescape (unicodeEscape h₁ h₂ h₃ h₄ ++ l) =
      jsonPutUtf8 (jsonCodepoint (codeUnit h₁ h₂ h₃ h₄) l).1 ++
        jsonUnescape (l.drop (jsonCodepoint (codeUnit h₁ h₂ h₃ h₄) l).2) := by
  rw [jsonUnescape.eq_def]
  simp only [unicodeEscape, cons_append, nil_append, ne_eq, not_true_eq_false, if_false,
    jsonHex4_eq hex, if_neg (by decide : byte 'u' ≠ byte 'b'),
    if_neg (by decide : byte 'u' ≠ byte 'f'), if_neg (by decide : byte 'u' ≠ byte 'n'),
    if_neg (by decide : byte 'u' ≠ byte 'r'), if_neg (by decide : byte 'u' ≠ byte 't'), if_true,
    drop_succ_cons, drop_zero]

theorem surrogatePair_bounds {u v : ℕ} (hu : IsHighSurrogate u) (hv : IsLowSurrogate v) :
    0x10000 ≤ surrogatePair u v ∧ surrogatePair u v < 0x110000 := by
  unfold IsHighSurrogate at hu
  unfold IsLowSurrogate at hv
  unfold surrogatePair
  omega

variable {s : Text}

theorem jsonUnescape_eq {d : Text} (h : JsonCharsValue s d) : jsonUnescape s = d := by
  have hreplacement : jsonPutUtf8 0xFFFD = utf8OfCodepoint 0xFFFD :=
    jsonPutUtf8_eq (by decide) (by unfold IsHighSurrogate; omega) (by unfold IsLowSurrogate; omega)
  induction h with
  | nil => rw [jsonUnescape.eq_def]
  | plain _ _ hsla _ ih => rw [jsonUnescape_plain hsla, ih]
  | escape hc _ ih => rw [jsonUnescape_escape hc, ih]
  | scalar hex hhigh hlow _ ih =>
    have hlt := codeUnit_lt hex
    rw [jsonUnescape_unicode hex, jsonCodepoint_scalar hhigh hlow, drop_zero, ih,
      jsonPutUtf8_eq (by omega) hhigh hlow]
  | @pair h₁ h₂ h₃ h₄ l₁ l₂ l₃ l₄ t d hex lex hhigh hlow _ ih =>
    have hbnd := surrogatePair_bounds hhigh hlow
    have hput := jsonPutUtf8_eq hbnd.2 (by unfold IsHighSurrogate; omega)
      (by unfold IsLowSurrogate; omega)
    have hdrop : (unicodeEscape l₁ l₂ l₃ l₄ ++ t).drop 6 = t := rfl
    rw [jsonUnescape_unicode hex, jsonCodepoint_pair hhigh lex hlow, hdrop, ih, hput]
  | alone hex hsurr _ ih =>
    rw [jsonUnescape_unicode hex]
    rcases hsurr with ⟨hhigh, hstarts⟩ | hlow
    · rw [jsonCodepoint_alone hhigh hstarts, drop_zero, ih, hreplacement]
    · rw [jsonCodepoint_low hlow, drop_zero, ih, hreplacement]

theorem jsonStringClose_eq (h : JsonChars s) (rest : Text) :
    jsonStringClose (s ++ byte '"' :: rest) = (s, byte '"' :: rest) := by
  have hpl : ∀ {c : UInt8} {l s : Text}, c ≠ byte '"' → c ≠ byte '\\' →
      jsonStringClose l = (s, byte '"' :: rest) →
      jsonStringClose (c :: l) = (c :: s, byte '"' :: rest) := by
    intro c l s hq hsla hl
    rw [jsonStringClose.eq_def]
    simp only [if_neg hq, if_neg hsla, hl]
  have hesc : ∀ {c : UInt8} {l s : Text}, jsonStringClose l = (s, byte '"' :: rest) →
      jsonStringClose (byte '\\' :: c :: l) = (byte '\\' :: c :: s, byte '"' :: rest) := by
    intro c l s hl
    rw [jsonStringClose.eq_def]
    simp only [if_neg (by decide : byte '\\' ≠ byte '"'), if_true, hl]
  induction h with
  | nil =>
    rw [nil_append, jsonStringClose.eq_def]
    exact if_pos rfl
  | plain _ hq hsla _ ih => exact hpl hq hsla ih
  | escape _ _ ih => exact hesc ih
  | unicode hex _ ih =>
    simp only [forall_mem_cons] at hex
    obtain ⟨hx₁, hx₂, hx₃, hx₄, -⟩ := hex
    exact hesc (hpl (ne_of_isxdigit hx₁).1 (ne_of_isxdigit hx₁).2
      (hpl (ne_of_isxdigit hx₂).1 (ne_of_isxdigit hx₂).2
        (hpl (ne_of_isxdigit hx₃).1 (ne_of_isxdigit hx₃).2
          (hpl (ne_of_isxdigit hx₄).1 (ne_of_isxdigit hx₄).2 ih))))

theorem parseJsonString_eq {d : Text} (h : JsonStringValue s d) (rest : Text) :
    parseJsonString (s ++ rest) = (d, rest) := by
  obtain ⟨t, ht, rfl⟩ := h
  rw [cons_append, append_assoc, parseJsonString, if_pos rfl]
  simp only [singleton_append, jsonStringClose_eq ht.jsonChars, jsonUnescape_eq ht,
    drop_succ_cons, drop_zero]

/-! ### Nested values -/

/-- A text that the bracket count passes over. -/
def Passes (s : Text) : Prop := ∀ (depth : ℤ) (rest : Text), 1 ≤ depth →
  jsonNestedLoop depth (s ++ rest) =
    (s ++ (jsonNestedLoop depth rest).1, (jsonNestedLoop depth rest).2)

variable {t : Text}

theorem Passes.append (hs : Passes s) (ht : Passes t) : Passes (s ++ t) := by
  intro depth rest hdep
  rw [append_assoc, hs depth _ hdep, ht depth _ hdep, append_assoc]

/-- A byte that the loop does not look at. -/
def isNestedByte (c : UInt8) : Bool :=
  c == byte '"' || c == byte '\x7b' || c == byte '[' || c == byte '\x7d' || c == byte ']'

theorem nestedLoop_other (hc : isNestedByte c = false) (depth : ℤ) (l : Text) :
    jsonNestedLoop depth (c :: l) =
      (c :: (jsonNestedLoop depth l).1, (jsonNestedLoop depth l).2) := by
  simp only [isNestedByte, Bool.or_eq_false_iff, beq_eq_false_iff_ne] at hc
  obtain ⟨⟨⟨⟨hq, hbr⟩, hbra⟩, hcl⟩, hcl'⟩ := hc
  rw [jsonNestedLoop.eq_def]
  simp only [if_neg hq, if_neg (not_or.mpr ⟨hbr, hbra⟩), if_neg (not_or.mpr ⟨hcl, hcl'⟩)]

theorem Passes.of_bytes (hs : ∀ c ∈ s, isNestedByte c = false) : Passes s := by
  intro depth rest hdep
  induction s with
  | nil => rfl
  | cons c s ih =>
    obtain ⟨hc, hs⟩ := forall_mem_cons.mp hs
    rw [cons_append, nestedLoop_other hc, ih hs]
    rfl

theorem Passes.string (hs : IsJsonString s) : Passes s := by
  intro depth rest _
  obtain ⟨t, ht, rfl⟩ := hs
  rw [cons_append, append_assoc, singleton_append, jsonNestedLoop.eq_def]
  simp only [if_true, jsonStringClose_eq ht, drop_succ_cons, drop_zero,
    take_succ_cons, take_zero, cons_append, append_assoc]

theorem nestedLoop_open (hc : c = byte '\x7b' ∨ c = byte '[') (depth : ℤ) (l : Text) :
    jsonNestedLoop depth (c :: l) =
      (c :: (jsonNestedLoop (depth + 1) l).1, (jsonNestedLoop (depth + 1) l).2) := by
  have hq : c ≠ byte '"' := by rcases hc with rfl | rfl <;> decide
  rw [jsonNestedLoop.eq_def]
  simp only [if_neg hq, if_pos hc]

theorem nestedLoop_close (hc : c = byte '\x7d' ∨ c = byte ']') (depth : ℤ) (l : Text) :
    jsonNestedLoop depth (c :: l) =
      if depth - 1 = 0 then ([c], l)
      else (c :: (jsonNestedLoop (depth - 1) l).1, (jsonNestedLoop (depth - 1) l).2) := by
  have hq : c ≠ byte '"' := by rcases hc with rfl | rfl <;> decide
  have hopen : ¬ (c = byte '\x7b' ∨ c = byte '[') := by rcases hc with rfl | rfl <;> decide
  rw [jsonNestedLoop.eq_def]
  simp only [if_neg hq, if_neg hopen, if_pos hc]

variable {a b : UInt8}

theorem Passes.bracket (ha : a = byte '\x7b' ∨ a = byte '[')
    (hb : b = byte '\x7d' ∨ b = byte ']') (hs : Passes s) : Passes (a :: (s ++ [b])) := by
  intro depth rest hdep
  rw [cons_append, append_assoc, singleton_append, nestedLoop_open ha,
    hs _ _ (by omega), nestedLoop_close hb, if_neg (by omega), Int.add_sub_cancel]
  simp only [cons_append, append_assoc, nil_append]

theorem isNested_of_class {p : UInt8 → Bool} (h : p c = true) (hq : p (byte '"') = false)
    (hbr : p (byte '\x7b') = false) (hbra : p (byte '[') = false)
    (hcl : p (byte '\x7d') = false) (hcl' : p (byte ']') = false) : isNestedByte c = false := by
  have hne : ∀ {d : UInt8}, p d = false → c ≠ d := by
    rintro d hd rfl
    exact absurd (h.symm.trans hd) (by decide)
  simp only [isNestedByte, Bool.or_eq_false_iff, beq_eq_false_iff_ne]
  exact ⟨⟨⟨⟨hne hq, hne hbr⟩, hne hbra⟩, hne hcl⟩, hne hcl'⟩

theorem isNested_of_isdigit (h : isdigit c = true) : isNestedByte c = false :=
  isNested_of_class h rfl rfl rfl rfl rfl

theorem isNested_of_isspace (h : isspace c = true) : isNestedByte c = false :=
  isNested_of_class h rfl rfl rfl rfl rfl

theorem Passes.number (hs : IsJsonNumber s) : Passes s :=
  .of_bytes (hs.forall_mem (fun _ => isNested_of_isdigit) (by decide) (by decide) (by decide)
    (by decide) (by decide))

theorem literal_bytes (hs : s ∈ jsonLiterals) :
    (∀ c ∈ s, isNestedByte c = false ∧ isScalarByte c = true) ∧ s.head? ≠ some (byte '\x7b') := by
  have hall : jsonLiterals.all (fun s => s.all (fun c => !isNestedByte c && isScalarByte c) &&
      s.head? != some (byte '\x7b')) = true := by decide
  simpa only [Bool.and_eq_true, all_eq_true, Bool.not_eq_true', bne_iff_ne] using
    all_eq_true.mp hall s hs

theorem Passes.literal (hs : s ∈ jsonLiterals) : Passes s :=
  .of_bytes fun c hc => ((literal_bytes hs).1 c hc).1

variable {w : Text}

theorem Passes.blank (hw : IsBlank isspace w) : Passes w :=
  .of_bytes fun c hc => isNested_of_isspace (hw c hc)

theorem Passes.cons (hc : isNestedByte c = false) (hs : Passes s) : Passes (c :: s) :=
  Passes.append (s := [c]) (.of_bytes (by simpa using hc)) hs

theorem passes_of_grammar {rule : JsonRule} (h : JsonSyntax isspace rule n s) : Passes s := by
  induction h with
  | string hs => exact .string hs
  | number hs => exact .number hs
  | literal hs => exact .literal hs
  | emptyArray hw => exact .bracket (.inr rfl) (.inr rfl) (.blank hw)
  | array _ ih => exact .bracket (.inr rfl) (.inr rfl) ih
  | emptyObject hw => exact .bracket (.inl rfl) (.inl rfl) (.blank hw)
  | object _ ih => exact .bracket (.inl rfl) (.inl rfl) ih
  | element hw _ hw' ih => exact (Passes.blank hw).append (ih.append (.blank hw'))
  | lastElement _ ih => exact ih
  | elements _ _ ihs iht => exact ihs.append (.cons (by decide) iht)
  | member hw hk hw' _ ih =>
    exact (Passes.blank hw).append
      ((Passes.string hk).append ((Passes.blank hw').append (.cons (by decide) ih)))
  | lastMember _ ih => exact ih
  | members _ _ ihs iht => exact ihs.append (.cons (by decide) iht)

theorem parseJsonNestedAsString_eq (ha : a = byte '\x7b' ∨ a = byte '[')
    (hb : b = byte '\x7d' ∨ b = byte ']') (hs : Passes s) (rest : Text) :
    parseJsonNestedAsString (a :: (s ++ [b]) ++ rest) = (a :: (s ++ [b]), rest) := by
  rw [parseJsonNestedAsString, cons_append, append_assoc, singleton_append,
    nestedLoop_open ha, hs _ _ (by decide), nestedLoop_close hb, if_pos (by decide)]

/-! ### Values -/

/-- What may follow a number or literal, so that the loop over it stops. -/
def EndsScalar (rest : Text) : Prop := ∀ c ∈ rest.head?, isScalarByte c = false

theorem endsScalar_cons (hc : isScalarByte c = false) (l : Text) : EndsScalar (c :: l) := by
  simpa [EndsScalar] using hc

variable {rest : Text}

theorem EndsScalar.blank_append (hw : IsBlank isspace w) (hrest : EndsScalar rest) :
    EndsScalar (w ++ rest) := by
  cases w with
  | nil => exact hrest
  | cons c w =>
    have hc : isspace c = true := hw c mem_cons_self
    exact endsScalar_cons (by simp [isScalarByte, hc]) _

theorem takeWhile_scalar (hs : ∀ c ∈ s, isScalarByte c = true) (hrest : EndsScalar rest) :
    (s ++ rest).takeWhile isScalarByte = s ∧ (s ++ rest).dropWhile isScalarByte = rest := by
  rw [takeWhile_append_of_pos hs, dropWhile_append_of_pos hs]
  cases rest with
  | nil => simp
  | cons c l =>
    have hc : isScalarByte c = false := hrest c rfl
    simp [hc]

theorem parseValue_scalar (hw : IsBlank isspace w) (hs : ∀ c ∈ s, isScalarByte c = true)
    (hrest : EndsScalar rest) {t : Text} (hcons : s = c :: t) (hc : 0x20 < c)
    (hq : c ≠ byte '"') (hopen : ¬ (c = byte '\x7b' ∨ c = byte '[')) :
    parseJsonValueAsString (w ++ (s ++ rest)) = (s, rest) := by
  have hrun := takeWhile_scalar hs hrest
  subst hcons
  rw [parseJsonValueAsString, cons_append, skipBlanks_blank_cons hw hc]
  simp only [if_neg hq, if_neg hopen]
  rw [cons_append] at hrun
  rw [hrun.1, hrun.2]

theorem isScalarByte_of_isdigit : ∀ {c : UInt8}, isdigit c = true → isScalarByte c = true :=
  fun {c} => forall_byte (P := fun c => isdigit c = true → isScalarByte c = true)
    (by decide +kernel) c

theorem IsJsonNumber.exists_cons (hs : IsJsonNumber s) :
    ∃ c t, s = c :: t ∧ (c = byte '-' ∨ isdigit c = true) := by
  obtain ⟨minus, int, frac, exp, hneg, hint, -, -, rfl⟩ := hs
  obtain ⟨c, t, rfl, hc⟩ := hint.exists_cons
  rcases hneg with rfl | rfl
  · exact ⟨c, _, rfl, .inr hc⟩
  · exact ⟨_, _, rfl, .inl rfl⟩

theorem parseValue_number (hw : IsBlank isspace w) (hs : IsJsonNumber s)
    (hrest : EndsScalar rest) : parseJsonValueAsString (w ++ (s ++ rest)) = (s, rest) := by
  have hbyt : ∀ c ∈ s, isScalarByte c = true :=
    hs.forall_mem (fun _ => isScalarByte_of_isdigit) (by decide) (by decide) (by decide)
      (by decide) (by decide)
  obtain ⟨c, t, hcons, hc⟩ := hs.exists_cons
  have hnest : isNestedByte c = false := by
    rcases hc with rfl | hc
    · decide
    · exact isNested_of_isdigit hc
  have hlow : 0x20 < c := by
    rcases hc with rfl | hc
    · decide
    · simp only [isdigit, Bool.and_eq_true, decide_eq_true_eq] at hc
      exact UInt8.lt_of_lt_of_le (by decide) hc.1
  simp only [isNestedByte, Bool.or_eq_false_iff, beq_eq_false_iff_ne] at hnest
  exact parseValue_scalar hw hbyt hrest hcons hlow hnest.1.1.1.1
    (not_or.mpr ⟨hnest.1.1.1.2, hnest.1.1.2⟩)

theorem parseValue_literal (hw : IsBlank isspace w) (hs : s ∈ jsonLiterals)
    (hrest : EndsScalar rest) : parseJsonValueAsString (w ++ (s ++ rest)) = (s, rest) := by
  have hbyt : ∀ c ∈ s, isScalarByte c = true := fun c hc => ((literal_bytes hs).1 c hc).2
  simp only [jsonLiterals, mem_cons, not_mem_nil, or_false] at hs
  rcases hs with rfl | rfl | rfl
  all_goals exact parseValue_scalar hw hbyt hrest rfl (by decide) (by decide) (by decide)

theorem parseValue_bracket (hw : IsBlank isspace w)
    (ha : a = byte '\x7b' ∨ a = byte '[') (hb : b = byte '\x7d' ∨ b = byte ']') (hs : Passes s)
    (rest : Text) :
    parseJsonValueAsString (w ++ (a :: (s ++ [b]) ++ rest)) = (a :: (s ++ [b]), rest) := by
  have hnest := parseJsonNestedAsString_eq ha hb hs rest
  have hlow : 0x20 < a := by rcases ha with rfl | rfl <;> decide
  have hq : a ≠ byte '"' := by rcases ha with rfl | rfl <;> decide
  rw [cons_append] at hnest ⊢
  rw [parseJsonValueAsString, skipBlanks_blank_cons hw hlow]
  simp only [if_neg hq, if_pos ha, hnest]

theorem not_isJsonString (hc : c ≠ byte '"') : ¬ IsJsonString (c :: t) := by
  rintro ⟨s, -, hs⟩
  exact hc (List.cons.inj hs).1

theorem parseJsonValueAsString_eq {v b : Text} (hw : IsBlank isspace w)
    (hv : JsonSyntax isspace .value n v) (hb : IsBinding v b) (hrest : EndsScalar rest) :
    parseJsonValueAsString (w ++ (v ++ rest)) = (b, rest) := by
  have hoth : ¬ IsJsonString v → b = v := by
    intro hnot
    rcases hb with ⟨t, ht, rfl⟩ | ⟨-, rfl⟩
    · exact absurd ⟨t, ht.jsonChars, rfl⟩ hnot
    · rfl
  cases hv with
  | string hs =>
    rcases hb with hb | ⟨hnot, -⟩
    · have hprs := parseJsonString_eq hb rest
      obtain ⟨t, -, rfl⟩ := hb
      rw [cons_append] at hprs ⊢
      rw [parseJsonValueAsString, skipBlanks_blank_cons hw (by decide)]
      exact hprs
    · exact absurd hs hnot
  | number hs =>
    have hnot : ¬ IsJsonString v := by
      obtain ⟨c, t, rfl, hc⟩ := hs.exists_cons
      refine not_isJsonString ?_
      rintro rfl
      rcases hc with hc | hc
      · exact absurd hc (by decide)
      · exact absurd hc (by decide)
    rw [hoth hnot, parseValue_number hw hs hrest]
  | literal hs =>
    have hnot : ¬ IsJsonString v := by
      simp only [jsonLiterals, mem_cons, not_mem_nil, or_false] at hs
      rcases hs with rfl | rfl | rfl
      all_goals exact not_isJsonString (by decide)
    rw [hoth hnot, parseValue_literal hw hs hrest]
  | emptyArray hbla =>
    rw [hoth (not_isJsonString (by decide)),
      parseValue_bracket hw (.inr rfl) (.inr rfl) (.blank hbla)]
  | array hs =>
    rw [hoth (not_isJsonString (by decide)),
      parseValue_bracket hw (.inr rfl) (.inr rfl) (passes_of_grammar hs)]
  | emptyObject hbla =>
    rw [hoth (not_isJsonString (by decide)),
      parseValue_bracket hw (.inl rfl) (.inl rfl) (.blank hbla)]
  | object hs =>
    rw [hoth (not_isJsonString (by decide)),
      parseValue_bracket hw (.inl rfl) (.inl rfl) (passes_of_grammar hs)]

/-! ### Members -/

theorem decodeLoop_round {m : Text × Text} (hs : JsonMember isspace n m s) {d : UInt8}
    (hd : 0x20 < d) (hscal : isScalarByte d = false) (seed : UInt64) (fuel : ℕ) (rest : Text)
    (map : GrayMap Text) : jsonDecodeLoop seed (fuel + 1) (s ++ d :: rest) map =
      (grayMapSet seed 2 map m.1 m.2).bind fun map =>
        jsonDecodeLoop seed fuel (skipByte (byte ',') (d :: rest)) map := by
  obtain ⟨hw, hk, hw', hw₁, hv, hb, hw₂⟩ := hs
  rename_i w k w' w₁ v w₂ name b
  -- The value, and what the delimiter leaves of the white space behind it.
  obtain ⟨c, t, hcons, hc, -⟩ := exists_cons_of_value hv
  have hval : parseJsonValueAsString (v ++ (w₂ ++ d :: rest)) = (b, w₂ ++ d :: rest) :=
    parseJsonValueAsString_eq (w := []) (by simp [IsBlank]) hv hb
      ((endsScalar_cons hscal rest).blank_append hw₂)
  have hskip : skipWhitespace (w₁ ++ (v ++ (w₂ ++ d :: rest))) = v ++ (w₂ ++ d :: rest) := by
    rw [hcons]
    exact skipBlanks_blank_cons hw₁ hc _
  have hcol : skipByte (byte ':') (skipWhitespace
      (w' ++ byte ':' :: (w₁ ++ (v ++ (w₂ ++ d :: rest))))) = w₁ ++ (v ++ (w₂ ++ d :: rest)) := by
    rw [skipBlanks_blank_cons hw' (by decide), skipByte, if_pos rfl]
  -- The name.
  have hname := parseJsonString_eq hk (w' ++ byte ':' :: (w₁ ++ (v ++ (w₂ ++ d :: rest))))
  obtain ⟨q, -, rfl⟩ := hk
  simp only [append_assoc, cons_append] at hname ⊢
  rw [jsonDecodeLoop, skipBlanks_blank_cons hw (by decide)]
  simp only [ne_eq, not_true_eq_false, if_false, hname, hcol, hskip, hval,
    skipBlanks_blank_cons hw₂ hd]

/-- Setting the members one after the other. -/
def setMembers (seed : UInt64) (map : GrayMap Text) (ms : List (Text × Text)) :
    Option (GrayMap Text) := ms.foldlM (fun map m => grayMapSet seed 2 map m.1 m.2) map

variable (seed : UInt64)

theorem decodeLoop_end (fuel : ℕ) (hw : IsBlank isspace w) (rest : Text)
    (map : GrayMap Text) : jsonDecodeLoop seed (fuel + 1) (w ++ byte '\x7d' :: rest) map =
      some (map, byte '\x7d' :: rest) := by
  rw [jsonDecodeLoop, skipBlanks_blank_cons hw (by decide)]
  exact if_pos (by decide)

variable {ms : List (Text × Text)}

theorem decodeLoop_eq (hs : JsonMembers isspace n ms s) (seed : UInt64) {fuel : ℕ}
    (hfuel : ms.length < fuel) (rest : Text) (map : GrayMap Text) :
    jsonDecodeLoop seed fuel (s ++ byte '\x7d' :: rest) map =
      (setMembers seed map ms).map fun map => (map, byte '\x7d' :: rest) := by
  induction hs generalizing fuel map with
  | last hm =>
    obtain ⟨fuel, rfl⟩ := Nat.exists_eq_add_of_lt hfuel
    rw [length_singleton, Nat.add_assoc, Nat.add_comm 1 (fuel + 1),
      decodeLoop_round hm (by decide) (by decide)]
    have hend := decodeLoop_end seed fuel (w := []) (by simp [IsBlank]) rest
    simp only [nil_append] at hend
    simp only [skipByte, if_neg (by decide : byte '\x7d' ≠ byte ','), hend, setMembers,
      foldlM_cons, foldlM_nil]
    cases grayMapSet seed 2 map _ _ <;> rfl
  | cons hm _ ih =>
    obtain ⟨fuel, rfl⟩ : ∃ f, fuel = f + 1 := ⟨fuel - 1, by omega⟩
    rw [length_cons] at hfuel
    rw [append_assoc, cons_append, decodeLoop_round hm (by decide) (by decide)]
    simp only [skipByte, if_true, setMembers, foldlM_cons]
    cases grayMapSet seed 2 map _ _ with
    | none => rfl
    | some map' =>
      simp only [Option.bind_some, Option.bind_eq_bind]
      exact ih (by omega) map'

/-! ### The map of the members -/

def memberOps (ms : List (Text × Text)) : List (MapOp Text) := ms.map fun m => .set m.1 m.2

theorem setMembers_eq (map : GrayMap Text) (ms : List (Text × Text)) :
    setMembers seed map ms = runOps seed 2 map (memberOps ms) := by
  rw [runOps, memberOps, foldlM_map]
  rfl

theorem runEntries_memberOps (ms : List (Text × Text)) :
    runEntries (memberOps ms) = ms.foldl (fun l m => Entries.set l m.1 m.2) [] := by
  rw [runEntries, memberOps, foldl_map]
  rfl

theorem valueAfter_memberOps (key : Text) (ms : List (Text × Text)) :
    valueAfter key (memberOps ms) = Entries.find ms.reverse key := by
  induction ms using List.reverseRecOn with
  | nil => rfl
  | append_singleton ms m ih =>
    rw [reverse_append, reverse_singleton, singleton_append, Entries.find_cons, ← ih,
      valueAfter, memberOps, map_append, foldl_append, ← memberOps, ← valueAfter]
    by_cases hkey : key = m.1
    · subst hkey
      simp
    · simp [hkey, Ne.symm hkey]

def named (ms : List (Text × Text)) : List (Text × Text) := ms.filter fun m => m.1 ≠ []

theorem length_runEntries_memberOps (ms : List (Text × Text)) : (runEntries (memberOps ms)).length ≤
      (named ms).length + if [] ∈ Entries.keys (runEntries (memberOps ms)) then 1 else 0 := by
  induction ms using List.reverseRecOn with
  | nil => exact Nat.zero_le _
  | append_singleton ms m ih =>
    have hstep : runEntries (memberOps (ms ++ [m])) =
        Entries.set (runEntries (memberOps ms)) m.1 m.2 := by
      rw [runEntries_memberOps, runEntries_memberOps, foldl_append]
      rfl
    have hnamed : (named (ms ++ [m])).length = (named ms).length + if m.1 ≠ [] then 1 else 0 := by
      rw [named, filter_append, length_append, ← named, filter_singleton]
      by_cases hm : m.1 = [] <;> simp [hm]
    rw [hstep, hnamed]
    generalize runEntries (memberOps ms) = l at ih
    by_cases hmem : m.1 ∈ Entries.keys l
    · rw [Entries.set, if_pos hmem, length_map, Entries.keys_map_update]
      omega
    · rw [Entries.set, if_neg hmem, length_append, length_singleton, Entries.keys_append]
      by_cases hm : m.1 = []
      · rw [hm] at hmem
        rw [if_neg hmem] at ih
        simp [hm]
        omega
      · simp only [hm, Entries.keys_cons, Entries.keys_nil, mem_append, mem_singleton,
          Ne.symm hm, or_false, ne_eq, not_false_eq_true, if_true]
        omega

theorem five_le_of_member {m : Text × Text} (hs : JsonMember isspace n m s) (hname : m.1 ≠ []) :
    5 ≤ s.length := by
  obtain ⟨hw, hk, hw', hw₁, hv, hb, hw₂⟩ := hs
  obtain ⟨c, t, rfl, -, -⟩ := exists_cons_of_value hv
  obtain ⟨q, hq, rfl⟩ := hk
  have hlen : 1 ≤ q.length := by
    refine length_pos_iff.mpr ?_
    rintro rfl
    cases hq
    exact hname rfl
  simp only [length_append, length_cons]
  omega

theorem named_le_of_members (hs : JsonMembers isspace n ms s) :
    6 * (named ms).length ≤ s.length + 1 ∧ ms.length ≤ s.length := by
  have hone : ∀ {m : Text × Text} {s : Text}, JsonMember isspace n m s →
      6 * (named [m]).length ≤ s.length + 1 ∧ 1 ≤ s.length := by
    intro m s hm
    have hpos : 1 ≤ s.length := by
      obtain ⟨hw, hk, hw', hw₁, hv, hb, hw₂⟩ := hm
      simp only [length_append, length_cons]
      omega
    by_cases hname : m.1 = []
    · simp [named, hname, hpos]
    · have hfive := five_le_of_member hm hname
      simp only [named, filter_singleton, hname, ne_eq, not_false_eq_true, decide_true,
        cond_true, length_singleton]
      omega
  induction hs with
  | last hm => exact hone hm
  | @cons m ms s t hm _ ih =>
    have hspl : named (m :: ms) = named [m] ++ named ms := filter_append [m] ms
    have hm := hone hm
    rw [hspl]
    simp only [length_append, length_cons]
    omega

theorem setMembers_spec (hnamed : 6 * (named ms).length < 2 ^ 31) :
    ∃ map, setMembers seed (grayMapNewKind 8) ms = some map ∧ map.Valid seed ∧
      map.entries = ms.foldl (fun l m => Entries.set l m.1 m.2) [] ∧
      ∀ key, grayMapGet seed map key = Entries.find ms.reverse key := by
  have hcnts : ∀ pre, pre <+: memberOps ms → (runEntries pre).length < 3 * 2 ^ 27 := by
    intro pre hpre
    have htake : pre = memberOps (ms.take pre.length) := by
      rw [memberOps, map_take]
      exact prefix_iff_eq_take.mp hpre
    have hle := length_runEntries_memberOps (ms.take pre.length)
    have hsub : (named (ms.take pre.length)).length ≤ (named ms).length :=
      ((take_sublist _ _).filter _).length_le
    rw [← htake] at hle
    split_ifs at hle <;> omega
  obtain ⟨map, hrun, hval, hents⟩ := runOps_spec seed (Nat.le_refl 2) 8 (memberOps ms) hcnts
  refine ⟨map, by rw [setMembers_eq, hrun], hval, by rw [hents, runEntries_memberOps],
    fun key => ?_⟩
  rw [hval.get_eq, hents, find_runEntries, valueAfter_memberOps]

/-! ### Valid objects -/

theorem named_lt_of_objectText {t w' : Text} (h : ObjectText isspace n ms t w')
    (hlen : t.length < 2 ^ 31) : 6 * (named ms).length < 2 ^ 31 := by
  obtain ⟨w, s, -, -, ⟨rfl, -⟩ | hms, rfl⟩ := h
  · decide
  · have hle := (named_le_of_members hms).1
    simp only [length_append, length_cons] at hlen
    omega

theorem grayJsonDecode_object {t w' : Text} (h : ObjectText isspace n ms t w') (seed : UInt64)
    {fuel : ℕ} (hfuel : t.length ≤ fuel) : grayJsonDecode seed fuel t =
      (setMembers seed (grayMapNewKind 8) ms).map fun map => (map, byte '\x7d' :: w') := by
  obtain ⟨w, s, hw, -, hms, rfl⟩ := h
  rw [grayJsonDecode, skipBlanks_blank_cons hw (by decide)]
  simp only [if_true]
  simp only [length_append, length_cons] at hfuel
  rcases hms with ⟨rfl, hs⟩ | hs
  · obtain ⟨fuel, rfl⟩ : ∃ f, fuel = f + 1 := ⟨fuel - 1, by omega⟩
    rw [decodeLoop_end seed fuel hs]
    rfl
  · have hle := (named_le_of_members hs).2
    exact decodeLoop_eq hs seed (by omega) w' _

theorem exists_objectText (h : JsonSyntax isspace .element n t)
    (hobject : (skipWhitespace t).head? = some (byte '\x7b')) :
    ∃ k ms w', ObjectText isspace k ms t w' := by
  cases h with
  | @element _ w v w' hw hv hw' =>
    obtain ⟨c, u, hcons, hc, -⟩ := exists_cons_of_value hv
    have hhead : c = byte '\x7b' := by
      rw [hcons, cons_append, skipBlanks_blank_cons hw hc] at hobject
      exact Option.some.inj hobject
    subst hhead
    have hnot : ∀ {d : UInt8} {u' : Text}, v = d :: u' → d = byte '\x7b' := fun hd =>
      (List.cons.inj (hd.symm.trans hcons)).1
    cases hv with
    | string hs =>
      obtain ⟨q, -, hq⟩ := hs
      exact absurd (hnot hq) (by decide)
    | number hs =>
      obtain ⟨d, u', hd, hdig⟩ := hs.exists_cons
      rw [hnot hd] at hdig
      exact absurd hdig (by decide)
    | literal hs =>
      exact absurd (by rw [hcons]; rfl) (literal_bytes hs).2
    | emptyArray => exact absurd (hnot rfl) (by decide)
    | array => exact absurd (hnot rfl) (by decide)
    | @emptyObject _ s hs =>
      refine ⟨n, [], w', w, s, hw, hw', .inl ⟨rfl, hs⟩, ?_⟩
      simp only [append_assoc, cons_append, nil_append]
    | @object m s hs =>
      obtain ⟨ms, hms⟩ := exists_jsonMembers hs
      refine ⟨m, ms, w', w, s, hw, hw', .inr hms, ?_⟩
      simp only [append_assoc, cons_append, nil_append]

/-- The decoder on valid objects: it stops at the closing brace, and each name is bound to the value
of its last member. -/
theorem grayJsonDecode_of_valid (seed : UInt64) (t : Text) (hlength : t.length < 2 ^ 31)
    (hvalid : grayJsonIsValid (2 * t.length + 1) t = some true)
    (hobject : (skipWhitespace t).head? = some (byte '\x7b')) :
    (∃ n ms w', ObjectText isspace n ms t w') ∧ ∀ n ms w', ObjectText isspace n ms t w' →
      ∃ map, (∀ fuel, t.length ≤ fuel →
          grayJsonDecode seed fuel t = some (map, byte '\x7d' :: w')) ∧
        ∀ name, grayMapGet seed map name = Entries.find ms.reverse name := by
  obtain ⟨-, hgram⟩ := (grayJsonIsValid_spec (Nat.lt_succ_self _)).mp hvalid
  refine ⟨exists_objectText hgram hobject, fun n ms w' htext => ?_⟩
  obtain ⟨map, hset, -, -, hget⟩ := setMembers_spec seed (named_lt_of_objectText htext hlength)
  refine ⟨map, fun fuel hfuel => ?_, hget⟩
  rw [grayJsonDecode_object htext seed hfuel, hset]
  rfl

/-- An object whose member is a number. -/
theorem grayJsonDecode_of_valid_one :
    (∃ n ms w', ObjectText isspace n ms (bytes "\x7b\"a\": 1 \x7d") w') ∧
      ∀ n ms w', ObjectText isspace n ms (bytes "\x7b\"a\": 1 \x7d") w' →
        ∃ map, (∀ fuel, (bytes "\x7b\"a\": 1 \x7d").length ≤ fuel →
            grayJsonDecode 7 fuel (bytes "\x7b\"a\": 1 \x7d") = some (map, byte '\x7d' :: w')) ∧
          ∀ name, grayMapGet 7 map name = Entries.find ms.reverse name :=
  grayJsonDecode_of_valid 7 _ (by decide) (by decide +kernel) (by decide +kernel)

end Grayscale
