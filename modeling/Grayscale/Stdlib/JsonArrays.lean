import Grayscale.Stdlib.JsonDecodeLaws
import Grayscale.Stdlib.Strconv
import Grayscale.Stdlib.WideParse

/-!
# The elements of JSON arrays

The splitter of `gray_json_split_array`, and the conversions that read its elements. The splitter
counts braces and brackets and skips strings; an element ends at a comma or bracket outside of them.
-/

namespace Grayscale

open List

/-! ### The splitter -/

/-- The loop to the end of an element: the element, and the text from its end on. -/
def jsonElementLoop (depthBrace depthBracket : ℤ) (inString : Bool) : Text → Text × Text
  | [] => ([], [])
  | character :: cursor =>
    if inString then
      if character = byte '\\' then
        match cursor with
        | [] => ([character], [])
        | escaped :: cursor =>
          let next := jsonElementLoop depthBrace depthBracket true cursor
          (character :: escaped :: next.1, next.2)
      else
        let next := jsonElementLoop depthBrace depthBracket (character != byte '"') cursor
        (character :: next.1, next.2)
    else if character = byte '"' then
      let next := jsonElementLoop depthBrace depthBracket true cursor
      (character :: next.1, next.2)
    else if character = byte '\x7b' then
      let next := jsonElementLoop (depthBrace + 1) depthBracket false cursor
      (character :: next.1, next.2)
    else if character = byte '\x7d' then
      let next := jsonElementLoop (depthBrace - 1) depthBracket false cursor
      (character :: next.1, next.2)
    else if character = byte '[' then
      let next := jsonElementLoop depthBrace (depthBracket + 1) false cursor
      (character :: next.1, next.2)
    else if character = byte ']' then
      if depthBracket = 0 then ([], character :: cursor)
      else
        let next := jsonElementLoop depthBrace (depthBracket - 1) false cursor
        (character :: next.1, next.2)
    else if character = byte ',' ∧ depthBrace = 0 ∧ depthBracket = 0 then ([], character :: cursor)
    else
      let next := jsonElementLoop depthBrace depthBracket false cursor
      (character :: next.1, next.2)

/-- The loop of `gray_json_split_array`; `none` when the fuel runs out. -/
def jsonSplitLoop : ℕ → Text → Option (List Text)
  | 0, _ => none
  | fuel + 1, cursor =>
    match skipWhitespace cursor with
    | [] => some []
    | c :: rest =>
      if c = byte ']' then some []
      else
        let scan := jsonElementLoop 0 0 false (c :: rest)
        (jsonSplitLoop fuel (skipByte (byte ',') (skipWhitespace scan.2))).map fun array =>
          if scan.1 = [] then array else scan.1 :: array

def grayJsonSplitArray (fuel : ℕ) (text : Text) : Option (List Text) :=
  match skipWhitespace text with
  | [] => some []
  | c :: cursor => if c = byte '[' then jsonSplitLoop fuel cursor else some []

/-! ### The conversions -/

/-- The panic P0135 for a field: its name, what it expects, and what the value is. -/
structure JsonFieldPanic where
  key : Text
  expected : String
  found : String
  deriving DecidableEq

def grayJsonFieldAsBool (value key : Text) : Except JsonFieldPanic Bool :=
  if value = bytes "true" then .ok true
  else if value = bytes "false" then .ok false
  else .error ⟨key, "a bool", "not a bool"⟩

def grayJsonElementAsString (element key : Text) : Except JsonFieldPanic Text :=
  if element.length < 2 ∨ byteAt element 0 ≠ byte '"' then .error ⟨key, "a string", "not a string"⟩
  else .ok (parseJsonString element).1

/-- The floating-point functions of the C library and of the machine. -/
structure CFloat (F : Type) where
  strtod : Text → StrtoResult F
  toFloat32 : F → F
  isinf : F → Bool
  isZero : F → Bool

/-- The kinds of `gray_json_field_decode`. -/
inductive NumberKind
  | integer (T : ScalarType)
  | f32
  | f64
  deriving DecidableEq

/-- What is written to the output. -/
inductive DecodedNumber (F : Type)
  | integer (value : ℤ)
  | float (value : F)
  deriving DecidableEq

/-- The integer cases of `gray_json_field_decode`; the output stays for a kind that is none. -/
def fieldDecodeInteger (T : ScalarType) (text : Text) (output : ℤ) : Except String ℤ :=
  match T with
  | .i8 => (strconvToI64 text).bind fun value => castCheck value (-128) 127
  | .i16 => (strconvToI64 text).bind fun value => castCheck value (-32768) 32767
  | .i32 => (strconvToI64 text).bind fun value => castCheck value (-2147483648) 2147483647
  | .i64 => strconvToI64 text
  | .u8 => (strconvToU64 text).bind fun value => ucastCheckU64 value 255
  | .u16 => (strconvToU64 text).bind fun value => ucastCheckU64 value 65535
  | .u32 => (strconvToU64 text).bind fun value => ucastCheckU64 value 4294967295
  | .u64 => strconvToU64 text
  | .i128 => (stringToI128 text).map (Words128.value .i128)
  | .u128 => (stringToU128 text).map (Words128.value .u128)
  | .i256 => (stringToI256 text).map (Words256.value .i256)
  | .u256 => (stringToU256 text).map (Words256.value .u256)
  | .char => .ok output

/-- A value whose conversion to 32 bits loses it. -/
def CFloat.isOutsideF32 {F : Type} (float : CFloat F) (parsed : F) : Bool :=
  float.isinf (float.toFloat32 parsed) ||
    float.isZero (float.toFloat32 parsed) && !float.isZero parsed

/-- `gray_json_field_decode`, with the integer that stands in the output before. -/
def grayJsonFieldDecode {F : Type} (float : CFloat F) (text : Text) (kind : NumberKind)
    (output : ℤ) : Except String (DecodedNumber F) :=
  match kind with
  | .integer T => (fieldDecodeInteger T text output).map .integer
  | .f32 =>
    (strconvToF64 float.strtod text).bind fun parsed =>
      if float.isOutsideF32 parsed then .error "P0136" else .ok (.float (float.toFloat32 parsed))
  | .f64 => (strconvToF64 float.strtod text).map .float

/-! ### The scan over the grammar -/

/-- A byte that the scan outside of strings looks at. -/
def isElementByte (c : UInt8) : Bool := isNestedByte c || c == byte ','

theorem elementLoop_outside (c : UInt8) (a b : ℤ) (l : Text) : jsonElementLoop a b false (c :: l) =
      if c = byte '"' then (c :: (jsonElementLoop a b true l).1, (jsonElementLoop a b true l).2)
      else if c = byte '\x7b' then
        (c :: (jsonElementLoop (a + 1) b false l).1, (jsonElementLoop (a + 1) b false l).2)
      else if c = byte '\x7d' then
        (c :: (jsonElementLoop (a - 1) b false l).1, (jsonElementLoop (a - 1) b false l).2)
      else if c = byte '[' then
        (c :: (jsonElementLoop a (b + 1) false l).1, (jsonElementLoop a (b + 1) false l).2)
      else if c = byte ']' then
        if b = 0 then ([], c :: l)
        else (c :: (jsonElementLoop a (b - 1) false l).1, (jsonElementLoop a (b - 1) false l).2)
      else if c = byte ',' ∧ a = 0 ∧ b = 0 then ([], c :: l)
      else (c :: (jsonElementLoop a b false l).1, (jsonElementLoop a b false l).2) := by
  rw [jsonElementLoop.eq_def]
  simp only [Bool.false_eq_true, if_false]

theorem elementLoop_other {c : UInt8} (hc : isElementByte c = false) (a b : ℤ) (l : Text) :
    jsonElementLoop a b false (c :: l) =
      (c :: (jsonElementLoop a b false l).1, (jsonElementLoop a b false l).2) := by
  simp only [isElementByte, isNestedByte, Bool.or_eq_false_iff, beq_eq_false_iff_ne] at hc
  obtain ⟨⟨⟨⟨⟨hq, hbr⟩, hbra⟩, hcl⟩, hcl'⟩, hcom⟩ := hc
  rw [elementLoop_outside]
  simp only [if_neg hq, if_neg hbr, if_neg hbra, if_neg hcl, if_neg hcl', hcom, false_and, if_false]

theorem elementLoop_comma {a b : ℤ} (hdep : ¬ (a = 0 ∧ b = 0)) (l : Text) :
    jsonElementLoop a b false (byte ',' :: l) =
      (byte ',' :: (jsonElementLoop a b false l).1, (jsonElementLoop a b false l).2) := by
  rw [elementLoop_outside]
  simp only [if_neg (by decide : byte ',' ≠ byte '"'),
    if_neg (by decide : byte ',' ≠ byte '\x7b'), if_neg (by decide : byte ',' ≠ byte '\x7d'),
    if_neg (by decide : byte ',' ≠ byte '['), if_neg (by decide : byte ',' ≠ byte ']'), true_and,
    if_neg hdep]

variable {s : Text}

theorem elementLoop_string (h : JsonChars s) (a b : ℤ) (rest : Text) :
    jsonElementLoop a b true (s ++ byte '"' :: rest) =
      (s ++ byte '"' :: (jsonElementLoop a b false rest).1, (jsonElementLoop a b false rest).2) := by
  have hpl : ∀ {c : UInt8} {l : Text} {p : Text × Text}, c ≠ byte '"' → c ≠ byte '\\' →
      jsonElementLoop a b true l = p → jsonElementLoop a b true (c :: l) = (c :: p.1, p.2) := by
    rintro c l _ hq hsla rfl
    have hstill : (c != byte '"') = true := bne_iff_ne.mpr hq
    rw [jsonElementLoop.eq_def]
    simp only [if_true, if_neg hsla, hstill]
  have hesc : ∀ {c : UInt8} {l : Text} {p : Text × Text}, jsonElementLoop a b true l = p →
      jsonElementLoop a b true (byte '\\' :: c :: l) = (byte '\\' :: c :: p.1, p.2) := by
    rintro c l _ rfl
    rw [jsonElementLoop.eq_def]
    simp only [if_true]
  induction h with
  | nil =>
    rw [nil_append, jsonElementLoop.eq_def]
    simp only [if_true, if_neg (by decide : byte '"' ≠ byte '\\'), bne_self_eq_false, nil_append]
  | plain _ hq hsla _ ih => exact hpl hq hsla ih
  | escape _ _ ih => exact hesc ih
  | unicode hex _ ih =>
    simp only [forall_mem_cons] at hex
    obtain ⟨hx₁, hx₂, hx₃, hx₄, -⟩ := hex
    exact hesc (hpl (ne_of_isxdigit hx₁).1 (ne_of_isxdigit hx₁).2
      (hpl (ne_of_isxdigit hx₂).1 (ne_of_isxdigit hx₂).2
        (hpl (ne_of_isxdigit hx₃).1 (ne_of_isxdigit hx₃).2
          (hpl (ne_of_isxdigit hx₄).1 (ne_of_isxdigit hx₄).2 ih))))

/-- A text that the scan passes over, inside of at least `k` braces and brackets. -/
def Scans (k : ℤ) (s : Text) : Prop := ∀ (a b : ℤ) (rest : Text), 0 ≤ a → 0 ≤ b → k ≤ a + b →
  jsonElementLoop a b false (s ++ rest) =
    (s ++ (jsonElementLoop a b false rest).1, (jsonElementLoop a b false rest).2)

theorem Scans.mono {k m : ℤ} (hkm : k ≤ m) (hs : Scans k s) : Scans m s :=
  fun a b rest ha hb hm => hs a b rest ha hb (hkm.trans hm)

theorem Scans.append {k : ℤ} {t : Text} (hs : Scans k s) (ht : Scans k t) : Scans k (s ++ t) := by
  intro a b rest ha hb hk
  rw [append_assoc, hs a b _ ha hb hk, ht a b _ ha hb hk, append_assoc]

theorem Scans.of_bytes (hs : ∀ c ∈ s, isElementByte c = false) : Scans 0 s := by
  intro a b rest ha hb hk
  induction s with
  | nil => rfl
  | cons c s ih =>
    obtain ⟨hc, hs⟩ := forall_mem_cons.mp hs
    rw [cons_append, elementLoop_other hc, ih hs]
    rfl

theorem Scans.string (hs : IsJsonString s) : Scans 0 s := by
  intro a b rest _ _ _
  obtain ⟨t, ht, rfl⟩ := hs
  rw [cons_append, append_assoc, singleton_append, elementLoop_outside]
  simp only [if_true, elementLoop_string ht, cons_append, append_assoc, nil_append]

theorem Scans.brace (hs : Scans 1 s) : Scans 0 (byte '\x7b' :: (s ++ [byte '\x7d'])) := by
  intro a b rest ha hb _
  have hopen : ∀ (a : ℤ) (l : Text), jsonElementLoop a b false (byte '\x7b' :: l) =
      (byte '\x7b' :: (jsonElementLoop (a + 1) b false l).1,
        (jsonElementLoop (a + 1) b false l).2) := by
    intro a l
    rw [elementLoop_outside]
    simp only [if_true, if_neg (by decide : byte '\x7b' ≠ byte '"')]
  have hcl : ∀ (a : ℤ) (l : Text), jsonElementLoop a b false (byte '\x7d' :: l) =
      (byte '\x7d' :: (jsonElementLoop (a - 1) b false l).1,
        (jsonElementLoop (a - 1) b false l).2) := by
    intro a l
    rw [elementLoop_outside]
    simp only [if_true, if_neg (by decide : byte '\x7d' ≠ byte '"'),
      if_neg (by decide : byte '\x7d' ≠ byte '\x7b')]
  rw [cons_append, append_assoc, singleton_append, hopen,
    hs _ _ _ (by omega) hb (by omega), hcl, Int.add_sub_cancel]
  simp only [cons_append, append_assoc, nil_append]

theorem Scans.bracket (hs : Scans 1 s) : Scans 0 (byte '[' :: (s ++ [byte ']'])) := by
  intro a b rest ha hb _
  have hopen : ∀ (b : ℤ) (l : Text), jsonElementLoop a b false (byte '[' :: l) =
      (byte '[' :: (jsonElementLoop a (b + 1) false l).1,
        (jsonElementLoop a (b + 1) false l).2) := by
    intro b l
    rw [elementLoop_outside]
    simp only [if_true, if_neg (by decide : byte '[' ≠ byte '"'),
      if_neg (by decide : byte '[' ≠ byte '\x7b'), if_neg (by decide : byte '[' ≠ byte '\x7d')]
  have hcl : ∀ (b : ℤ) (l : Text), b ≠ 0 → jsonElementLoop a b false (byte ']' :: l) =
      (byte ']' :: (jsonElementLoop a (b - 1) false l).1,
        (jsonElementLoop a (b - 1) false l).2) := by
    intro b l hb
    rw [elementLoop_outside]
    simp only [if_true, if_neg (by decide : byte ']' ≠ byte '"'),
      if_neg (by decide : byte ']' ≠ byte '\x7b'), if_neg (by decide : byte ']' ≠ byte '\x7d'),
      if_neg (by decide : byte ']' ≠ byte '['), if_neg hb]
  rw [cons_append, append_assoc, singleton_append, hopen,
    hs _ _ _ ha (by omega) (by omega), hcl _ _ (by omega), Int.add_sub_cancel]
  simp only [cons_append, append_assoc, nil_append]

theorem Scans.cons {c : UInt8} (hc : c = byte ':' ∨ c = byte ',') (hs : Scans 1 s) :
    Scans 1 (c :: s) := by
  intro a b rest ha hb hk
  rcases hc with rfl | rfl
  · rw [cons_append, elementLoop_other (by decide), hs a b rest ha hb hk]
    rfl
  · rw [cons_append, elementLoop_comma (by omega), hs a b rest ha hb hk]
    rfl

theorem isElementByte_of_class {p : UInt8 → Bool} {c : UInt8} (h : p c = true)
    (hnest : isNestedByte c = false) (hcom : p (byte ',') = false) : isElementByte c = false := by
  have hne : c ≠ byte ',' := by
    rintro rfl
    exact absurd (h.symm.trans hcom) (by decide)
  rw [isElementByte, hnest, Bool.false_or, beq_eq_false_iff_ne]
  exact hne

theorem Scans.number (hs : IsJsonNumber s) : Scans 0 s :=
  .of_bytes (hs.forall_mem (fun _ hc => isElementByte_of_class hc (isNested_of_isdigit hc) rfl)
    (by decide) (by decide) (by decide) (by decide) (by decide))

theorem Scans.literal (hs : s ∈ jsonLiterals) : Scans 0 s := .of_bytes fun c hc =>
    isElementByte_of_class ((literal_bytes hs).1 c hc).2 ((literal_bytes hs).1 c hc).1 rfl

theorem Scans.blank {w : Text} (hw : IsBlank isspace w) : Scans 0 w :=
  .of_bytes fun c hc => isElementByte_of_class (hw c hc) (isNested_of_isspace (hw c hc)) rfl

theorem scans_of_grammar {rule : JsonRule} {n : ℕ} (h : JsonSyntax isspace rule n s) :
    Scans 1 s ∧ (rule = .value → Scans 0 s) := by
  have hval : ∀ {rule : JsonRule} {s : Text}, Scans 0 s →
      Scans 1 s ∧ (rule = .value → Scans 0 s) := fun hs => ⟨hs.mono (by decide), fun _ => hs⟩
  have hbla : ∀ {w : Text}, IsBlank isspace w → Scans 1 w := fun hw =>
    (Scans.blank hw).mono (by decide)
  induction h with
  | string hs => exact hval (.string hs)
  | number hs => exact hval (.number hs)
  | literal hs => exact hval (.literal hs)
  | emptyArray hw => exact hval (.bracket (hbla hw))
  | array _ ih => exact hval (.bracket ih.1)
  | emptyObject hw => exact hval (.brace (hbla hw))
  | object _ ih => exact hval (.brace ih.1)
  | element hw _ hw' ih => exact ⟨(hbla hw).append (ih.1.append (hbla hw')), nofun⟩
  | lastElement _ ih | lastMember _ ih => exact ⟨ih.1, nofun⟩
  | elements _ _ ihs iht | members _ _ ihs iht =>
    exact ⟨ihs.1.append (.cons (.inr rfl) iht.1), nofun⟩
  | member hw hk hw' _ ih =>
    have hname : Scans 1 _ := (Scans.string hk).mono (by decide)
    exact ⟨(hbla hw).append (hname.append ((hbla hw').append (.cons (.inl rfl) ih.1))), nofun⟩

/-! ### The elements -/

theorem elementLoop_stop {d : UInt8} (hd : d = byte ',' ∨ d = byte ']') (l : Text) :
    jsonElementLoop 0 0 false (d :: l) = ([], d :: l) := by
  rcases hd with rfl | rfl <;>
    · rw [elementLoop_outside]
      simp

variable {n : ℕ}

theorem jsonSplitLoop_round {w v w' : Text} {d : UInt8} (hw : IsBlank isspace w)
    (hv : JsonSyntax isspace .value n v) (hw' : IsBlank isspace w')
    (hd : d = byte ',' ∨ d = byte ']') (fuel : ℕ) (l : Text) :
    jsonSplitLoop (fuel + 1) (w ++ (v ++ w') ++ d :: l) =
      (jsonSplitLoop fuel (skipByte (byte ',') (d :: l))).map ((v ++ w') :: ·) := by
  have hscan : jsonElementLoop 0 0 false (v ++ w' ++ d :: l) = (v ++ w', d :: l) := by
    rw [((scans_of_grammar hv).2 rfl).append (.blank hw') 0 0 (d :: l) le_rfl le_rfl le_rfl,
      elementLoop_stop hd, append_nil]
  have hskip : skipWhitespace (d :: l) = d :: l := by
    rcases hd with rfl | rfl <;> exact skipBlanks_cons (by decide) l
  obtain ⟨c, t, rfl, hc, hcl⟩ := exists_cons_of_value hv
  simp only [cons_append, append_assoc] at hscan ⊢
  rw [jsonSplitLoop, skipBlanks_blank_cons hw hc]
  simp only [if_neg hcl, hscan, hskip, reduceCtorEq, if_false]

variable {es : List (Text × Text)}

theorem jsonSplitLoop_eq (hs : JsonElements isspace n es s)
    {fuel : ℕ} (hfuel : es.length < fuel) (l : Text) :
    jsonSplitLoop fuel (s ++ byte ']' :: l) = some (es.map fun e => e.1 ++ e.2) := by
  induction hs generalizing fuel with
  | last hw hv hw' =>
    obtain ⟨fuel, rfl⟩ := Nat.exists_eq_add_of_le' hfuel
    rw [length_singleton, jsonSplitLoop_round hw hv hw' (.inr rfl) (fuel + 1),
      skipByte, if_neg (by decide), jsonSplitLoop, skipBlanks_cons (by decide)]
    rfl
  | cons hw hv hw' _ ih =>
    rw [length_cons] at hfuel
    obtain ⟨fuel, rfl⟩ : ∃ f, fuel = f + 1 := ⟨fuel - 1, by omega⟩
    rw [append_assoc, cons_append, jsonSplitLoop_round hw hv hw' (.inl rfl) fuel,
      skipByte, if_pos rfl, ih (by omega)]
    rfl

theorem JsonElements.length_le (h : JsonElements isspace n es s) : es.length ≤ s.length := by
  induction h with
  | last hw hv hw' =>
    obtain ⟨c, t, rfl, -, -⟩ := exists_cons_of_value hv
    simp only [length_append, length_cons, length_nil]
    omega
  | cons =>
    simp only [length_append, length_cons]
    omega

theorem splitArray_eq {t : Text}
    (h : ArrayText isspace n es t) {fuel : ℕ} (hfuel : t.length ≤ fuel) :
    grayJsonSplitArray fuel t = some (es.map fun e => e.1 ++ e.2) := by
  obtain ⟨w, s, w', hw, -, hs, rfl⟩ := h
  simp only [length_append, length_cons] at hfuel
  rw [grayJsonSplitArray, skipBlanks_blank_cons hw (by decide)]
  simp only [if_true]
  rcases hs with ⟨rfl, hbla⟩ | hs
  · obtain ⟨fuel, rfl⟩ : ∃ f, fuel = f + 1 := ⟨fuel - 1, by omega⟩
    rw [jsonSplitLoop, skipBlanks_blank_cons hbla (by decide)]
    rfl
  · have hle := hs.length_le
    exact jsonSplitLoop_eq hs (by omega) w'

theorem exists_arrayText {t : Text} (h : JsonSyntax isspace .element n t)
    (harr : (skipWhitespace t).head? = some (byte '[')) : ∃ k es, ArrayText isspace k es t := by
  cases h with
  | @element _ w v w' hw hv hw' =>
    obtain ⟨c, u, hcons, hc, -⟩ := exists_cons_of_value hv
    rw [hcons, cons_append, skipBlanks_blank_cons hw hc, head?_cons] at harr
    cases harr
    have hhead : ∀ {d : UInt8} {u' : Text}, v = d :: u' → d = byte '[' := fun hd =>
      (List.cons.inj (hd.symm.trans hcons)).1
    cases hv with
    | string hs =>
      obtain ⟨q, -, hq⟩ := hs
      exact absurd (hhead hq) (by decide)
    | number hs =>
      obtain ⟨d, u', hd, hdig⟩ := hs.exists_cons
      rw [hhead hd] at hdig
      exact absurd hdig (by decide)
    | literal hs =>
      have hbra := ((literal_bytes hs).1 (byte '[') (by rw [hcons]; exact mem_cons_self)).1
      exact absurd hbra (by decide)
    | @emptyArray _ s hs =>
      refine ⟨n, [], w, s, w', hw, hw', .inl ⟨rfl, hs⟩, ?_⟩
      simp only [append_assoc, cons_append, nil_append]
    | @array m s hs =>
      obtain ⟨es, hes⟩ := exists_jsonElements hs
      refine ⟨m, es, w, s, w', hw, hw', .inr hes, ?_⟩
      simp only [append_assoc, cons_append, nil_append]
    | emptyObject => exact absurd (hhead rfl) (by decide)
    | object => exact absurd (hhead rfl) (by decide)

/-! ### The conversions of values -/

/-- The text of an integer of the type; an unsigned type takes no sign. -/
def IsIntegerText (T : ScalarType) (v : Text) (n : ℤ) : Prop :=
  ∃ minus digits, (minus = [] ∨ minus = [byte '-'] ∧ T.isSigned = true) ∧ IsJsonInt digits ∧
    v = minus ++ digits ∧ n = signedNumber (minus == [byte '-']) digits ∧ T.format.Contains n ∧
    T ≠ .char

/-- The conversions succeed on an element: those of the type of its value. -/
structure Converts {F : Type} (float : CFloat F) (element value : Text) : Prop where
  bool : ∀ b key, value = bytes (if b then "true" else "false") →
    grayJsonFieldAsBool element key = .ok b
  string : ∀ d key, JsonStringValue value d → grayJsonElementAsString element key = .ok d
  integer : ∀ T n output, IsIntegerText T value n →
    grayJsonFieldDecode float element (.integer T) output = .ok (.integer n)
  f64 : ∀ output, IsJsonNumber value → (float.strtod value).isRangeError = false →
    grayJsonFieldDecode float element .f64 output = .ok (.float (float.strtod value).value)
  f32 : ∀ output, IsJsonNumber value → (float.strtod value).isRangeError = false →
    float.isOutsideF32 (float.strtod value).value = false →
    grayJsonFieldDecode float element .f32 output =
      .ok (.float (float.toFloat32 (float.strtod value).value))

theorem IsJsonInt.isDigits (h : IsJsonInt s) : IsDigits s := by
  rcases h with rfl | h
  · exact ⟨cons_ne_nil _ _, forall_mem_singleton.mpr rfl⟩
  · exact h.1

theorem wideText_of_digits {minus digits : Text} (hneg : minus = [] ∨ minus = [byte '-'])
    (hdig : IsDigits digits) :
    WideText (minus ++ digits) (signedNumber (minus == [byte '-']) digits) := by
  have htext := WideText.mk [] minus digits [] (by simp) (hneg.imp_right .inr) hdig.1
    (fun c hc => (isdigit_iff c).mp (hdig.2 c hc)) (by simp)
  rw [append_nil, nil_append] at htext
  simpa only [signedNumber, beq_iff_eq] using htext

theorem Except.map_of_exists {α : Type} {r : Except String α} {f : α → ℤ} {n : ℤ}
    (h : ∃ x, r = .ok x ∧ f x = n) : r.map f = .ok n := by
  obtain ⟨x, rfl, rfl⟩ := h
  rfl

theorem fieldDecodeInteger_text {T : ScalarType} {v : Text} {n : ℤ} (h : IsIntegerText T v n)
    (output : ℤ) : fieldDecodeInteger T v output = .ok n := by
  obtain ⟨minus, digits, hsign, hint, rfl, rfl, hin, hchar⟩ := h
  have hdig := hint.isDigits
  have hneg : minus = [] ∨ minus = [byte '-'] := hsign.imp_right And.left
  have hwide := wideText_of_digits hneg hdig
  have hdvd : (2 ^ 128 : ℤ) ∣ 2 ^ 256 := ⟨2 ^ 128, by norm_num⟩
  -- The signed types of one word, whose range is inside of that of `i64`.
  have hsig : ∀ {low high : ℤ}, -2 ^ 63 ≤ low → high < 2 ^ 63 →
      low ≤ signedNumber (minus == [byte '-']) digits →
      signedNumber (minus == [byte '-']) digits ≤ high →
      ((strconvToI64 (minus ++ digits)).bind fun value => castCheck value low high) =
        .ok (signedNumber (minus == [byte '-']) digits) := by
    intro low high hlow hhigh hl hh
    rw [strconvToI64_decimal hneg hdig (hlow.trans hl) (lt_of_le_of_lt hh hhigh)]
    exact if_neg (not_or.mpr ⟨not_lt.mpr hl, not_lt.mpr hh⟩)
  -- The unsigned types of one word, where no sign stands.
  have huns : minus = [] → ∀ {high : ℤ}, high < 2 ^ 64 → high ≠ 0x10FFFF →
      signedNumber (minus == [byte '-']) digits ≤ high →
      ((strconvToU64 (minus ++ digits)).bind fun value => ucastCheckU64 value high) =
        .ok (signedNumber (minus == [byte '-']) digits) := by
    rintro rfl high hhigh hchar' hh
    have hval : signedNumber (([] : Text) == [byte '-']) digits = DecimalText.read 0 digits := rfl
    rw [hval] at hh ⊢
    rw [nil_append, strconvToU64_decimal hdig (by omega)]
    change (if high < (DecimalText.read 0 digits : ℤ) then _ else _) = _
    rw [if_neg (not_lt.mpr hh)]
    exact if_neg fun hc => hchar' hc.1
  have hbnd := hin
  simp only [IntFormat.Contains, IntFormat.min, IntFormat.size, ScalarType.format] at hbnd
  cases T with
  | i8 | i16 | i32 =>
    simp only [ScalarType.bits, ScalarType.isSigned, if_true] at hbnd
    exact hsig (by decide) (by decide) (by omega) (by omega)
  | i64 =>
    simp only [ScalarType.bits, ScalarType.isSigned, if_true] at hbnd
    exact strconvToI64_decimal hneg hdig (by omega) (by omega)
  | u8 | u16 | u32 =>
    have hnone := hsign.resolve_right fun hs => Bool.false_ne_true hs.2
    simp only [ScalarType.bits, ScalarType.isSigned, Bool.false_eq_true, if_false] at hbnd
    exact huns hnone (by decide) (by decide) (by omega)
  | u64 =>
    obtain rfl := hsign.resolve_right fun hs => Bool.false_ne_true hs.2
    simp only [ScalarType.bits, ScalarType.isSigned, Bool.false_eq_true, if_false] at hbnd
    have hval : signedNumber (([] : Text) == [byte '-']) digits = DecimalText.read 0 digits := rfl
    rw [hval] at hbnd ⊢
    change strconvToU64 digits = _
    exact strconvToU64_decimal hdig (by omega)
  | i128 =>
    exact Except.map_of_exists
      (wideInteger_accepts (T := .i128) hdvd (assemble_128 rfl) hwide hin)
  | u128 =>
    exact Except.map_of_exists
      (wideInteger_accepts (T := .u128) hdvd (assemble_128 rfl) hwide hin)
  | i256 =>
    exact Except.map_of_exists
      (wideInteger_accepts (T := .i256) (dvd_refl _) assemble_256 hwide hin)
  | u256 =>
    exact Except.map_of_exists
      (wideInteger_accepts (T := .u256) (dvd_refl _) assemble_256 hwide hin)
  | char => exact absurd rfl hchar

theorem converts_self {F : Type} {float : CFloat F}
    (hstrtod : ∀ s, IsJsonNumber s → (float.strtod s).rest = []) (v : Text) :
    Converts float v v where
  bool b key hb := by
    subst hb
    cases b <;> rfl
  string d key hd := by
    have hprs := parseJsonString_eq hd []
    obtain ⟨t, -, rfl⟩ := hd
    rw [append_nil] at hprs
    have hlen : ¬ (byte '"' :: (t ++ [byte '"'])).length < 2 := by simp
    rw [grayJsonElementAsString, if_neg (not_or.mpr ⟨hlen, by simp⟩), hprs]
  integer T n output hn := by
    rw [grayJsonFieldDecode, fieldDecodeInteger_text hn output]
    rfl
  f64 output hnum hrng := by
    obtain ⟨c, t, hcons, -⟩ := hnum.exists_cons
    have hne : v ≠ [] := hcons ▸ cons_ne_nil c t
    rw [grayJsonFieldDecode, strconvToF64_number hnum hne (hstrtod v hnum) hrng]
    rfl
  f32 output hnum hrng hnarrow := by
    obtain ⟨c, t, hcons, -⟩ := hnum.exists_cons
    have hne : v ≠ [] := hcons ▸ cons_ne_nil c t
    rw [grayJsonFieldDecode, strconvToF64_number hnum hne (hstrtod v hnum) hrng]
    change (if float.isOutsideF32 (float.strtod v).value then _ else _) = _
    rw [hnarrow]
    rfl

/-- A valid array is split into the texts of its values, which are converted, if and only if no
white space stands between a value and the comma or bracket behind it. -/
theorem grayJsonSplitArray_iff {F : Type} (float : CFloat F)
    (hstrtod : ∀ s, IsJsonNumber s → (float.strtod s).rest = []) (t : Text)
    (hvalid : grayJsonIsValid (2 * t.length + 1) t = some true)
    (harray : (skipWhitespace t).head? = some (byte '[')) :
    (∃ n es, ArrayText isspace n es t) ∧ ∀ n es, ArrayText isspace n es t →
      ((∀ fuel, t.length ≤ fuel → ∃ elements, grayJsonSplitArray fuel t = some elements ∧
          elements = es.map Prod.fst ∧ List.Forall₂ (Converts float) elements (es.map Prod.fst)) ↔
        ∀ e ∈ es, e.2 = []) := by
  obtain ⟨-, hgram⟩ := (grayJsonIsValid_spec (Nat.lt_succ_self _)).mp hvalid
  refine ⟨exists_arrayText hgram harray, fun n es htext => ⟨fun h e he => ?_, fun h fuel hfuel => ?_⟩⟩
  · obtain ⟨elements, hspl, hvals, -⟩ := h _ le_rfl
    rw [splitArray_eq htext le_rfl, hvals] at hspl
    have hval : e.1 ++ e.2 = e.1 := map_inj_left.mp (Option.some.inj hspl) e he
    exact append_right_eq_self.mp hval
  · have hvals : es.map (fun e => e.1 ++ e.2) = es.map Prod.fst :=
      map_congr_left fun e he => by rw [h e he, append_nil]
    refine ⟨_, splitArray_eq htext hfuel, hvals, ?_⟩
    rw [hvals]
    exact forall₂_same.mpr fun v _ => converts_self hstrtod v

/-- The floating-point functions on natural numbers that a float of 32 bits holds. -/
def naturalCFloat : CFloat ℕ where
  strtod s := ⟨DecimalText.read 0 (s.takeWhile isdigit), [], false⟩
  toFloat32 := id
  isinf _ := false
  isZero n := n == 0

/-- An array without white space. -/
theorem grayJsonSplitArray_iff_dense : (∃ n es, ArrayText isspace n es (bytes "[true,\"a\",12]")) ∧
      ∀ n es, ArrayText isspace n es (bytes "[true,\"a\",12]") →
        ((∀ fuel, (bytes "[true,\"a\",12]").length ≤ fuel → ∃ elements,
            grayJsonSplitArray fuel (bytes "[true,\"a\",12]") = some elements ∧
            elements = es.map Prod.fst ∧
            List.Forall₂ (Converts naturalCFloat) elements (es.map Prod.fst)) ↔
          ∀ e ∈ es, e.2 = []) :=
  grayJsonSplitArray_iff naturalCFloat (fun _ _ => rfl) _ (by decide +kernel) (by decide +kernel)

/-- White space stays on the elements in front of it, and the conversions panic. -/
theorem grayJsonSplitArray_spaced : grayJsonIsValid 21 (bytes "[true ,1 ]") = some true ∧
      ArrayText isspace 1 [(bytes "true", bytes " "), (bytes "1", bytes " ")] (bytes "[true ,1 ]") ∧
      grayJsonSplitArray 10 (bytes "[true ,1 ]") = some [bytes "true ", bytes "1 "] ∧
      grayJsonFieldAsBool (bytes "true ") (bytes "k") = .error ⟨bytes "k", "a bool", "not a bool"⟩ ∧
      fieldDecodeInteger .i64 (bytes "1 ") 0 = .error "P0055" := by
  have hbla : IsBlank isspace (bytes " ") := all_eq_true.mp (by decide)
  have hemp : IsBlank isspace [] := fun _ hc => absurd hc not_mem_nil
  have hnum : IsJsonNumber (bytes "1") := ⟨[], bytes "1", [], [], .inl rfl,
      .inr ⟨⟨by decide, all_eq_true.mp (by decide)⟩, by decide⟩, .inl rfl, .inl rfl, rfl⟩
  have htrue : JsonSyntax isspace .value 1 (bytes "true") := .literal (by decide)
  have hels := JsonElements.cons hemp htrue hbla (.last hemp (.number hnum) hbla)
  refine ⟨by decide +kernel, ⟨[], _, [], hemp, hemp, .inr hels, rfl⟩, ?_, rfl, ?_⟩
  · decide +kernel
  · decide +kernel

end Grayscale
