import Grayscale.Library.Utf8

/-!
# The grammar of JSON

The grammar of RFC 8259 over byte texts. It is stated for an arbitrary set of white space and with
a bound on the nesting, so that the grammars of programs that allow more can be compared with it.
-/

namespace Grayscale

open List

/-! ### Tokens -/

/-- The characters that a backslash may stand in front of, but for `u`. -/
def jsonEscapes : Text := bytes "\"\\/bfnrt"

/-- The bytes between the quotes of a string. -/
inductive JsonChars : Text → Prop
  | nil : JsonChars []
  | plain {c : UInt8} {t : Text} (hc : 0x20 ≤ c) (hquote : c ≠ byte '"') (hslash : c ≠ byte '\\')
      (ht : JsonChars t) : JsonChars (c :: t)
  | escape {c : UInt8} {t : Text} (hc : c ∈ jsonEscapes) (ht : JsonChars t) :
      JsonChars (byte '\\' :: c :: t)
  | unicode {h₁ h₂ h₃ h₄ : UInt8} {t : Text} (hex : ∀ c ∈ [h₁, h₂, h₃, h₄], isxdigit c = true)
      (ht : JsonChars t) : JsonChars (byte '\\' :: byte 'u' :: h₁ :: h₂ :: h₃ :: h₄ :: t)

def IsJsonString (s : Text) : Prop := ∃ t, JsonChars t ∧ s = byte '"' :: (t ++ [byte '"'])

/-- One digit or more. -/
def IsDigits (s : Text) : Prop := s ≠ [] ∧ ∀ c ∈ s, isdigit c = true

/-- `int`: no leading zero. -/
def IsJsonInt (s : Text) : Prop := s = [byte '0'] ∨ IsDigits s ∧ s.head? ≠ some (byte '0')

/-- An optional `frac`. -/
def IsJsonFrac (s : Text) : Prop := s = [] ∨ ∃ t, IsDigits t ∧ s = byte '.' :: t

/-- An optional `exp`. -/
def IsJsonExp (s : Text) : Prop := s = [] ∨ ∃ e sign t, (e = byte 'e' ∨ e = byte 'E') ∧
    (sign = [] ∨ sign = [byte '+'] ∨ sign = [byte '-']) ∧ IsDigits t ∧ s = e :: (sign ++ t)

def IsJsonNumber (s : Text) : Prop :=
  ∃ minus int frac exp, (minus = [] ∨ minus = [byte '-']) ∧ IsJsonInt int ∧ IsJsonFrac frac ∧
    IsJsonExp exp ∧ s = minus ++ (int ++ (frac ++ exp))

def jsonLiterals : List Text := [bytes "true", bytes "false", bytes "null"]

/-! ### Values -/

/-- What a text is read as: a value, a value between white space, a list of these with commas, a
member of an object, or a list of members. -/
inductive JsonRule
  | value
  | element
  | elements
  | member
  | members
  deriving DecidableEq

/-- White space of the set `ws`. -/
def IsBlank (ws : UInt8 → Bool) (w : Text) : Prop := ∀ c ∈ w, ws c = true

/-- The grammar, where a value may hold values on `levels` levels below it. -/
inductive JsonSyntax (ws : UInt8 → Bool) : JsonRule → ℕ → Text → Prop
  | string {n : ℕ} {s : Text} (hs : IsJsonString s) : JsonSyntax ws .value n s
  | number {n : ℕ} {s : Text} (hs : IsJsonNumber s) : JsonSyntax ws .value n s
  | literal {n : ℕ} {s : Text} (hs : s ∈ jsonLiterals) : JsonSyntax ws .value n s
  | emptyArray {n : ℕ} {w : Text} (hw : IsBlank ws w) :
      JsonSyntax ws .value n (byte '[' :: (w ++ [byte ']']))
  | array {n : ℕ} {s : Text} (hs : JsonSyntax ws .elements n s) :
      JsonSyntax ws .value (n + 1) (byte '[' :: (s ++ [byte ']']))
  | emptyObject {n : ℕ} {w : Text} (hw : IsBlank ws w) :
      JsonSyntax ws .value n (byte '\x7b' :: (w ++ [byte '\x7d']))
  | object {n : ℕ} {s : Text} (hs : JsonSyntax ws .members n s) :
      JsonSyntax ws .value (n + 1) (byte '\x7b' :: (s ++ [byte '\x7d']))
  | element {n : ℕ} {w s w' : Text} (hw : IsBlank ws w) (hs : JsonSyntax ws .value n s)
      (hw' : IsBlank ws w') : JsonSyntax ws .element n (w ++ (s ++ w'))
  | lastElement {n : ℕ} {s : Text} (hs : JsonSyntax ws .element n s) : JsonSyntax ws .elements n s
  | elements {n : ℕ} {s t : Text} (hs : JsonSyntax ws .element n s)
      (ht : JsonSyntax ws .elements n t) : JsonSyntax ws .elements n (s ++ byte ',' :: t)
  | member {n : ℕ} {w k w' s : Text} (hw : IsBlank ws w) (hk : IsJsonString k)
      (hw' : IsBlank ws w') (hs : JsonSyntax ws .element n s) :
      JsonSyntax ws .member n (w ++ (k ++ (w' ++ byte ':' :: s)))
  | lastMember {n : ℕ} {s : Text} (hs : JsonSyntax ws .member n s) : JsonSyntax ws .members n s
  | members {n : ℕ} {s t : Text} (hs : JsonSyntax ws .member n s)
      (ht : JsonSyntax ws .members n t) : JsonSyntax ws .members n (s ++ byte ',' :: t)

/-- The white space of RFC 8259. -/
def isJsonSpace (c : UInt8) : Bool :=
  c == byte ' ' || c == byte '\t' || c == byte '\n' || c == byte '\r'

/-- A JSON text of RFC 8259, in UTF-8, whose values nest at most `levels` levels below the top. -/
def JsonText (levels : ℕ) (t : Text) : Prop :=
  WellFormedUtf8 t ∧ JsonSyntax isJsonSpace .element levels t

/-! ### The bytes of a text -/

theorem le_of_isdigit {c : UInt8} (h : isdigit c = true) : 0x20 ≤ c := by
  simp only [isdigit, Bool.and_eq_true, decide_eq_true_eq] at h
  exact UInt8.le_trans (by decide) h.1

theorem le_of_isxdigit {c : UInt8} (h : isxdigit c = true) : 0x20 ≤ c := by
  simp only [isxdigit, isdigit, Bool.or_eq_true, Bool.and_eq_true, decide_eq_true_eq] at h
  rcases h with (h | h) | h <;> exact UInt8.le_trans (by decide) h.1

variable {s : Text}

theorem JsonChars.le_byte (h : JsonChars s) : ∀ c ∈ s, 0x20 ≤ c := by
  induction h with
  | nil => simp
  | plain hc _ _ _ ih => exact forall_mem_cons.mpr ⟨hc, ih⟩
  | escape hc _ ih =>
    have hescapes : jsonEscapes.all (fun c => decide (0x20 ≤ c)) = true := by decide +kernel
    have hesc : ∀ c ∈ jsonEscapes, 0x20 ≤ c := fun c hc =>
      of_decide_eq_true (all_eq_true.mp hescapes c hc)
    exact forall_mem_cons.mpr ⟨by decide, forall_mem_cons.mpr ⟨hesc _ hc, ih⟩⟩
  | unicode hex _ ih =>
    have hle := fun c hc => le_of_isxdigit (hex c hc)
    simp only [forall_mem_cons] at hle ⊢
    exact ⟨by decide, by decide, hle.1, hle.2.1, hle.2.2.1, hle.2.2.2.1, ih⟩

theorem IsJsonString.le_byte (h : IsJsonString s) : ∀ c ∈ s, 0x20 ≤ c := by
  obtain ⟨t, ht, rfl⟩ := h
  simp only [mem_cons, mem_append, not_mem_nil, or_false]
  rintro c (rfl | hc | rfl)
  · decide
  · exact ht.le_byte c hc
  · decide

theorem IsJsonNumber.forall_mem {P : UInt8 → Prop} (hdigit : ∀ c, isdigit c = true → P c)
    (hneg : P (byte '-')) (hplus : P (byte '+')) (hpt : P (byte '.')) (he : P (byte 'e'))
    (hE : P (byte 'E')) (h : IsJsonNumber s) : ∀ c ∈ s, P c := by
  obtain ⟨minus, int, frac, exp, hm, hint, hfrac, hexp, rfl⟩ := h
  have hdig : ∀ {t : Text}, IsDigits t → ∀ c ∈ t, P c := fun ht c hc => hdigit c (ht.2 c hc)
  simp only [forall_mem_append]
  refine ⟨?_, ?_, ?_, ?_⟩
  · rcases hm with rfl | rfl
    · simp
    · simpa using hneg
  · rcases hint with rfl | hint
    · simpa using hdigit _ (by decide : isdigit (byte '0') = true)
    · exact hdig hint.1
  · rcases hfrac with rfl | ⟨t, ht, rfl⟩
    · simp
    · exact forall_mem_cons.mpr ⟨hpt, hdig ht⟩
  · rcases hexp with rfl | ⟨e, sign, t, hmark, hsign, ht, rfl⟩
    · simp
    · refine forall_mem_cons.mpr ⟨?_, forall_mem_append.mpr ⟨?_, hdig ht⟩⟩
      · rcases hmark with rfl | rfl
        · exact he
        · exact hE
      · rcases hsign with rfl | rfl | rfl
        · simp
        · simpa using hplus
        · simpa using hneg

theorem IsJsonNumber.le_byte (h : IsJsonNumber s) : ∀ c ∈ s, 0x20 ≤ c :=
  h.forall_mem (fun _ => le_of_isdigit) (by decide) (by decide) (by decide) (by decide) (by decide)

theorem le_of_mem_jsonLiterals (h : s ∈ jsonLiterals) : ∀ c ∈ s, 0x20 ≤ c := by
  have hall : jsonLiterals.all (fun s => s.all fun c => decide (0x20 ≤ c)) = true := by
    decide +kernel
  exact fun c hc => of_decide_eq_true (all_eq_true.mp (all_eq_true.mp hall s h) c hc)

theorem JsonSyntax.space_or_le {ws : UInt8 → Bool} {rule : JsonRule} {n : ℕ}
    (h : JsonSyntax ws rule n s) : ∀ c ∈ s, ws c = true ∨ 0x20 ≤ c := by
  have hbla : ∀ w, IsBlank ws w → ∀ c ∈ w, ws c = true ∨ 0x20 ≤ c := fun w hw c hc => .inl (hw c hc)
  have hgram : ∀ b, 0x20 ≤ b → ws b = true ∨ 0x20 ≤ b := fun b hb => .inr hb
  induction h with
  | string hs => exact fun c hc => .inr (hs.le_byte c hc)
  | number hs => exact fun c hc => .inr (hs.le_byte c hc)
  | literal hs => exact fun c hc => .inr (le_of_mem_jsonLiterals hs c hc)
  | emptyArray hw | emptyObject hw =>
    simp only [forall_mem_cons, forall_mem_append, not_mem_nil, false_imp_iff,
      implies_true, and_true]
    exact ⟨hgram _ (by decide), hbla _ hw, hgram _ (by decide)⟩
  | array _ ih | object _ ih =>
    simp only [forall_mem_cons, forall_mem_append, not_mem_nil, false_imp_iff,
      implies_true, and_true]
    exact ⟨hgram _ (by decide), ih, hgram _ (by decide)⟩
  | element hw _ hw' ih =>
    simp only [forall_mem_append]
    exact ⟨hbla _ hw, ih, hbla _ hw'⟩
  | lastElement _ ih | lastMember _ ih => exact ih
  | elements _ _ ihs iht | members _ _ ihs iht =>
    simp only [forall_mem_append, forall_mem_cons]
    exact ⟨ihs, hgram _ (by decide), iht⟩
  | member hw hk hw' _ ih =>
    simp only [forall_mem_append, forall_mem_cons]
    exact ⟨hbla _ hw, fun c hc => .inr (hk.le_byte c hc), hbla _ hw', hgram _ (by decide), ih⟩

/-! ### Other white space -/

section Map

variable {ws ws' : UInt8 → Bool} {f : UInt8 → UInt8} (hspace : ∀ c, ws' (f c) = ws c)
  (hkeep : ∀ c, 0x20 ≤ c → f c = c) (hback : ∀ c, 0x20 ≤ f c → f c = c)

variable {s : Text}

include hkeep in
theorem map_eq_of_le (h : ∀ c ∈ s, 0x20 ≤ c) : s.map f = s := by
  rw [map_congr_left (g := id) fun c hc => hkeep c (h c hc), map_id]

include hback in
theorem map_eq_of_le_map (h : ∀ c ∈ s.map f, 0x20 ≤ c) : s.map f = s := by
  rw [map_congr_left (g := id) fun c hc => hback c (h _ (mem_map_of_mem hc)), map_id]

include hback in
theorem exists_of_map_bracket {a b : UInt8} (ha : 0x20 ≤ a) (hb : 0x20 ≤ b) {w : Text}
    (h : s.map f = a :: (w ++ [b])) : ∃ w', s = a :: (w' ++ [b]) ∧ w'.map f = w := by
  obtain ⟨a', t, rfl, ha', ht⟩ := map_eq_cons_iff.mp h
  obtain ⟨w', t', rfl, hw, ht'⟩ := map_eq_append_iff.mp ht
  obtain ⟨b', rfl, hb'⟩ := map_eq_singleton_iff.mp ht'
  obtain rfl : a' = a := (hback a' (ha' ▸ ha)).symm.trans ha'
  obtain rfl : b' = b := (hback b' (hb' ▸ hb)).symm.trans hb'
  exact ⟨w', rfl, hw⟩

include hspace in
theorem isBlank_map_iff {w : Text} : IsBlank ws' (w.map f) ↔ IsBlank ws w := by
  simp only [IsBlank, forall_mem_map, hspace]

include hspace hkeep

variable {rule : JsonRule}

theorem JsonSyntax.map {n : ℕ} (h : JsonSyntax ws rule n s) : JsonSyntax ws' rule n (s.map f) := by
  have hbla : ∀ w, IsBlank ws w → IsBlank ws' (w.map f) := fun w => (isBlank_map_iff hspace).mpr
  have hbyte : ∀ c ∈ [byte '[', byte ']', byte '\x7b', byte '\x7d', byte ',', byte ':'], f c = c :=
    fun c hc => hkeep c ((by decide +kernel : ∀ c ∈ [byte '[', byte ']', byte '\x7b', byte '\x7d',
      byte ',', byte ':'], 0x20 ≤ c) c hc)
  simp only [forall_mem_cons] at hbyte
  obtain ⟨hopen, hcl, hopenBrace, hcloseBrace, hcom, hcol, -⟩ := hbyte
  induction h with
  | string hs => exact .string ((map_eq_of_le hkeep hs.le_byte).symm ▸ hs)
  | number hs => exact .number ((map_eq_of_le hkeep hs.le_byte).symm ▸ hs)
  | literal hs => exact .literal ((map_eq_of_le hkeep (le_of_mem_jsonLiterals hs)).symm ▸ hs)
  | emptyArray hw =>
    simp only [map_cons, map_append, map_nil, hopen, hcl]
    exact .emptyArray (hbla _ hw)
  | array _ ih =>
    simp only [map_cons, map_append, map_nil, hopen, hcl]
    exact .array ih
  | emptyObject hw =>
    simp only [map_cons, map_append, map_nil, hopenBrace, hcloseBrace]
    exact .emptyObject (hbla _ hw)
  | object _ ih =>
    simp only [map_cons, map_append, map_nil, hopenBrace, hcloseBrace]
    exact .object ih
  | element hw _ hw' ih =>
    simp only [map_append]
    exact .element (hbla _ hw) ih (hbla _ hw')
  | lastElement _ ih => exact .lastElement ih
  | elements _ _ ihs iht =>
    simp only [map_append, map_cons, hcom]
    exact .elements ihs iht
  | member hw hk hw' _ ih =>
    simp only [map_append, map_cons, hcol, map_eq_of_le hkeep hk.le_byte]
    exact .member (hbla _ hw) hk (hbla _ hw') ih
  | lastMember _ ih => exact .lastMember ih
  | members _ _ ihs iht =>
    simp only [map_append, map_cons, hcom]
    exact .members ihs iht

omit hkeep in
include hback in
theorem JsonSyntax.of_map {n : ℕ} (h : JsonSyntax ws' rule n (s.map f)) :
    JsonSyntax ws rule n s := by
  have hbla : ∀ w, IsBlank ws' (w.map f) → IsBlank ws w := fun w => (isBlank_map_iff hspace).mp
  have hbyte : ∀ c b, f c = b → 0x20 ≤ b → c = b := fun c b hc hb =>
    (hback c (hc ▸ hb)).symm.trans hc
  generalize hu : s.map f = u at h
  induction h generalizing s with
  | string hs =>
    subst hu
    exact .string (map_eq_of_le_map hback hs.le_byte ▸ hs)
  | number hs =>
    subst hu
    exact .number (map_eq_of_le_map hback hs.le_byte ▸ hs)
  | literal hs =>
    subst hu
    exact .literal (map_eq_of_le_map hback (le_of_mem_jsonLiterals hs) ▸ hs)
  | emptyArray hw =>
    obtain ⟨w, rfl, rfl⟩ := exists_of_map_bracket hback (by decide) (by decide) hu
    exact .emptyArray (hbla _ hw)
  | array _ ih =>
    obtain ⟨t, rfl, ht⟩ := exists_of_map_bracket hback (by decide) (by decide) hu
    exact .array (ih ht)
  | emptyObject hw =>
    obtain ⟨w, rfl, rfl⟩ := exists_of_map_bracket hback (by decide) (by decide) hu
    exact .emptyObject (hbla _ hw)
  | object _ ih =>
    obtain ⟨t, rfl, ht⟩ := exists_of_map_bracket hback (by decide) (by decide) hu
    exact .object (ih ht)
  | element hw _ hw' ih =>
    obtain ⟨w, t, rfl, rfl, ht⟩ := map_eq_append_iff.mp hu
    obtain ⟨s', w', rfl, hs', rfl⟩ := map_eq_append_iff.mp ht
    exact .element (hbla _ hw) (ih hs') (hbla _ hw')
  | lastElement _ ih => exact .lastElement (ih hu)
  | elements _ _ ihs iht =>
    obtain ⟨s', t, rfl, hs', ht⟩ := map_eq_append_iff.mp hu
    obtain ⟨b, t', rfl, hb, ht'⟩ := map_eq_cons_iff.mp ht
    obtain rfl := hbyte _ _ hb (by decide)
    exact .elements (ihs hs') (iht ht')
  | member hw hk hw' _ ih =>
    obtain ⟨w, t, rfl, rfl, ht⟩ := map_eq_append_iff.mp hu
    obtain ⟨k, t, rfl, rfl, hmid⟩ := map_eq_append_iff.mp ht
    obtain ⟨w', t, rfl, rfl, hcol⟩ := map_eq_append_iff.mp hmid
    obtain ⟨b, t', rfl, hb, ht'⟩ := map_eq_cons_iff.mp hcol
    obtain rfl := hbyte _ _ hb (by decide)
    exact .member (hbla _ hw) (map_eq_of_le_map hback hk.le_byte ▸ hk) (hbla _ hw') (ih ht')
  | lastMember _ ih => exact .lastMember (ih hu)
  | members _ _ ihs iht =>
    obtain ⟨s', t, rfl, hs', ht⟩ := map_eq_append_iff.mp hu
    obtain ⟨b, t', rfl, hb, ht'⟩ := map_eq_cons_iff.mp ht
    obtain rfl := hbyte _ _ hb (by decide)
    exact .members (ihs hs') (iht ht')

include hback in
theorem jsonSyntax_map_iff {n : ℕ} : JsonSyntax ws' rule n (s.map f) ↔ JsonSyntax ws rule n s :=
  ⟨JsonSyntax.of_map hspace hback, JsonSyntax.map hspace hkeep⟩

end Map

end Grayscale
