import Grayscale.Stdlib.EncodingBuffers
import Grayscale.Stdlib.JsonDecodeLaws

/-!
# Quoted strings

`gray_strconv_quote` and `gray_strconv_unquote_result` of `stdlib/strconv.c`.
-/

namespace Grayscale.Quoting

open List

/-! ### The functions -/

/-- What `gray_strconv_quote` writes for a byte. -/
def quotedByte (c : UInt8) : Text :=
  if c = byte '"' then [byte '\\', byte '"']
  else if c = byte '\\' then [byte '\\', byte '\\']
  else if c = byte '\n' then [byte '\\', byte 'n']
  else if c = byte '\r' then [byte '\\', byte 'r']
  else if c = byte '\t' then [byte '\\', byte 't']
  else if c < 0x20 ∨ c = 0x7F then
    [byte '\\', byte 'x', hexDigit (c >>> 4).toNat, hexDigit (c &&& 0xF).toNat]
  else [c]

/-- `none` when a write has no room in the buffer or no `int32_t` position. -/
def grayStrconvQuote (string : Text) : Option Text :=
  enclosedLoop (outputRoom (string.length * 4 + 3)) quotedByte (byte '"') string

/-- The escapes of one byte of `strconv_unquote_into`. -/
def escapes : List (UInt8 × UInt8) :=
  [(byte 'n', byte '\n'), (byte 't', byte '\t'), (byte 'r', byte '\r'), (byte '\\', byte '\\'),
    (byte '"', byte '"'), (byte '\'', byte '\''), (byte '0', 0), (byte 'a', 7), (byte 'b', 8),
    (byte 'f', 12), (byte 'v', 11), (byte '$', byte '$')]

/-- The digits behind `\x`: the byte, and the text behind. -/
def hexEscape : Text → Option (UInt8 × Text)
  | high :: low :: rest =>
    (grayHexDigitValue high).bind fun highDigit =>
      (grayHexDigitValue low).map fun lowDigit => ((highDigit <<< 4 ||| lowDigit).toUInt8, rest)
  | _ => none

/-- The text behind a backslash. -/
def readEscape : Text → Option (UInt8 × Text)
  | [] => none
  | escape :: rest =>
    match escapes.lookup escape with
    | some value => some (value, rest)
    | none => if escape = byte 'x' then hexEscape rest else none

theorem lookup_of_mem_escapes : ∀ entry ∈ escapes, escapes.lookup entry.1 = some entry.2 := by
  simp only [escapes, forall_mem_cons]
  exact ⟨rfl, rfl, rfl, rfl, rfl, rfl, rfl, rfl, rfl, rfl, rfl, rfl, forall_mem_nil _⟩

theorem hexEscape_eq_some_iff {rest after : Text} {value : UInt8} :
    hexEscape rest = some (value, after) ↔ ∃ high low, isxdigit high = true ∧
      isxdigit low = true ∧ rest = high :: low :: after ∧
      value = (hexDigitValue high * 16 + hexDigitValue low).toUInt8 := by
  constructor
  · intro h
    rcases rest with _ | ⟨high, _ | ⟨low, rest⟩⟩
    · cases h
    · cases h
    · obtain ⟨a, ha, h⟩ := Option.bind_eq_some_iff.mp h
      obtain ⟨b, hb, h⟩ := Option.map_eq_some_iff.mp h
      have hhigh := isxdigit_of_hexDigit ha
      have hlow := isxdigit_of_hexDigit hb
      rw [hexDigit_eq hhigh] at ha
      rw [hexDigit_eq hlow] at hb
      cases ha
      cases hb
      cases h
      exact ⟨high, low, hhigh, hlow, rfl,
        congrArg Nat.toUInt8 (shiftLeft_or 4 (hexDigitValue_lt hlow))⟩
  · rintro ⟨high, low, hhigh, hlow, rfl, rfl⟩
    rw [hexEscape, hexDigit_eq hhigh, hexDigit_eq hlow, Option.bind_some, Option.map_some]
    exact congrArg (fun n => some (n.toUInt8, after)) (shiftLeft_or 4 (hexDigitValue_lt hlow))

theorem readEscape_eq_some_iff {rest after : Text} {value : UInt8} :
    readEscape rest = some (value, after) ↔ (∃ c, (c, value) ∈ escapes ∧ rest = c :: after) ∨
        ∃ digits, rest = byte 'x' :: digits ∧ hexEscape digits = some (value, after) := by
  constructor
  · intro h
    cases rest with
    | nil => cases h
    | cons c rest =>
      rw [readEscape] at h
      split at h
      · rename_i value' hlook
        obtain ⟨l₁, l₂, hspl, -⟩ := lookup_eq_some_iff.mp hlook
        cases h
        exact .inl ⟨c, by rw [hspl]; simp, rfl⟩
      · split_ifs at h with hx
        exact .inr ⟨rest, by rw [hx], h⟩
  · rintro (⟨c, hmem, rfl⟩ | ⟨digits, rfl, h⟩)
    · rw [readEscape, lookup_of_mem_escapes _ hmem]
    · exact h

theorem length_of_readEscape {rest after : Text} {value : UInt8}
    (h : readEscape rest = some (value, after)) : after.length < rest.length := by
  rcases readEscape_eq_some_iff.mp h with ⟨c, -, rfl⟩ | ⟨digits, rfl, h⟩
  · exact Nat.lt_succ_self _
  · obtain ⟨high, low, -, -, rfl, -⟩ := hexEscape_eq_some_iff.mp h
    simp only [length_cons]
    omega

/-- A byte in front of what the rest of the loop writes. -/
def writes (c : UInt8) (result : Text × Bool) : Text × Bool := (c :: result.1, result.2)

/-- The loop of `strconv_unquote_into` up to `end_index`: what it writes to the buffer, and whether
it ends. -/
def unquoteLoop : Text → Text × Bool
  | [] => ([], true)
  | c :: rest =>
    if c = byte '"' then ([], false)
    else if c ≠ byte '\\' then writes c (unquoteLoop rest)
    else match h : readEscape rest with
      | none => ([], false)
      | some (value, after) => writes value (unquoteLoop after)
termination_by text => text.length
decreasing_by
  · exact Nat.lt_succ_self _
  · exact (length_of_readEscape h).trans (Nat.lt_succ_self _)

/-- The bytes from the second one up to `end_index`. -/
def interior (string : Text) : Text := string.tail.dropLast

/-- `strconv_unquote_into`: what is returned, and `*output`. -/
def strconvUnquoteInto (string output : Text) : Bool × Text :=
  if string.length < 2 ∨ string.head? ≠ some (byte '"') ∨ string.getLast? ≠ some (byte '"') then
    (false, output)
  else if (unquoteLoop (interior string)).2 then (true, (unquoteLoop (interior string)).1)
  else (false, output)

def grayStrconvUnquoteResult (string : Text) : Except String Text :=
  if (strconvUnquoteInto string []).1 then .ok (strconvUnquoteInto string []).2
  else .error "cannot unquote string"

/-! ### The grammar -/

/-- Characters other than an unescaped quote and complete escapes, and the bytes they stand for. -/
inductive Quotes : Text → Text → Prop
  | nil : Quotes [] []
  | plain {c : UInt8} {t v : Text} (hquote : c ≠ byte '"') (hbackslash : c ≠ byte '\\')
    (h : Quotes t v) : Quotes (c :: t) (c :: v)
  | escape {c value : UInt8} {t v : Text} (hescape : (c, value) ∈ escapes) (h : Quotes t v) :
    Quotes (byte '\\' :: c :: t) (value :: v)
  | hex {high low : UInt8} {t v : Text} (hhigh : isxdigit high = true)
    (hlow : isxdigit low = true) (h : Quotes t v) :
    Quotes (byte '\\' :: byte 'x' :: high :: low :: t)
      ((hexDigitValue high * 16 + hexDigitValue low).toUInt8 :: v)

/-- The string comes back from its quoted form. -/
def Restores (string : Text) : Prop :=
  ∃ quoted, grayStrconvQuote string = some quoted ∧ grayStrconvUnquoteResult quoted = .ok string

/-- A text is read exactly when it is in the grammar, else the output stays; and the loop writes
no more than it reads. -/
def UnquotesStrictly (text output : Text) : Prop := ((strconvUnquoteInto text output).1 = true ↔
      ∃ t v, text = byte '"' :: (t ++ [byte '"']) ∧ Quotes t v) ∧
    ((strconvUnquoteInto text output).1 = false → (strconvUnquoteInto text output).2 = output) ∧
    (unquoteLoop (interior text)).1.length ≤ (interior text).length

/-! ### The loop -/

theorem hexDigits_spec : ∀ c : UInt8,
    isxdigit (hexDigit (c >>> 4).toNat) = true ∧ isxdigit (hexDigit (c &&& 0xF).toNat) = true ∧
      (hexDigitValue (hexDigit (c >>> 4).toNat) * 16 +
        hexDigitValue (hexDigit (c &&& 0xF).toNat)).toUInt8 = c := forall_byte (by decide +kernel)

theorem unquoteLoop_escape {rest after : Text} {value : UInt8}
    (h : readEscape rest = some (value, after)) :
    unquoteLoop (byte '\\' :: rest) = writes value (unquoteLoop after) := by
  rw [unquoteLoop, if_neg (by decide), if_neg (by decide)]
  split
  · rename_i hnone
    cases hnone.symm.trans h
  · rename_i hsome
    cases hsome.symm.trans h
    rfl

theorem Quotes.unquoteLoop_eq {t v : Text} (h : Quotes t v) : unquoteLoop t = (v, true) := by
  induction h with
  | nil => rw [unquoteLoop]
  | plain hq hback h ih => rw [unquoteLoop, if_neg hq, if_pos hback, ih, writes]
  | escape hesc h ih =>
    rw [unquoteLoop_escape (readEscape_eq_some_iff.mpr (.inl ⟨_, hesc, rfl⟩)), ih, writes]
  | hex hhigh hlow h ih =>
    rw [unquoteLoop_escape (readEscape_eq_some_iff.mpr (.inr ⟨_, rfl,
      hexEscape_eq_some_iff.mpr ⟨_, _, hhigh, hlow, rfl, rfl⟩⟩)), ih, writes]

theorem quotes_of_unquoteLoop {t : Text} (h : (unquoteLoop t).2 = true) :
    Quotes t (unquoteLoop t).1 := by
  fun_induction unquoteLoop t with
  | case1 => exact .nil
  | case2 => cases h
  | case3 c rest hq hback ih => exact .plain hq hback (ih h)
  | case4 => cases h
  | case5 c rest hq hback value after hesc ih =>
    rw [not_not] at hback
    rcases readEscape_eq_some_iff.mp hesc with ⟨e, hmem, rfl⟩ | ⟨digits, rfl, hhex⟩
    · exact hback ▸ .escape hmem (ih h)
    · obtain ⟨high, low, hhigh, hlow, rfl, rfl⟩ := hexEscape_eq_some_iff.mp hhex
      exact hback ▸ .hex hhigh hlow (ih h)

theorem length_unquoteLoop_le (t : Text) : (unquoteLoop t).1.length ≤ t.length := by
  fun_induction unquoteLoop t with
  | case1 | case2 | case4 => exact Nat.zero_le _
  | case3 c rest hq hback ih => exact Nat.succ_le_succ ih
  | case5 c rest hq hback value after hesc ih =>
    exact Nat.succ_le_succ (ih.trans (length_of_readEscape hesc).le)

theorem Quotes.quotedByte (c : UInt8) {t v : Text} (h : Quotes t v) :
    Quotes (quotedByte c ++ t) (c :: v) := by
  obtain ⟨hhigh, hlow, hval⟩ := hexDigits_spec c
  unfold Quoting.quotedByte
  split_ifs with hq hback hfeed hret htab hcontrol
  · subst hq
    exact .escape (by decide) h
  · subst hback
    exact .escape (by decide) h
  · subst hfeed
    exact .escape (by decide) h
  · subst hret
    exact .escape (by decide) h
  · subst htab
    exact .escape (by decide) h
  · have hhex := Quotes.hex hhigh hlow h
    rwa [hval] at hhex
  · exact .plain hq hback h

theorem quotes_flatMap (s : Text) : Quotes (s.flatMap Quoting.quotedByte) s := by
  induction s with
  | nil => exact .nil
  | cons c s ih => exact ih.quotedByte c

/-! ### Whole texts -/

theorem ends_iff {text : Text} :
    ¬ (text.length < 2 ∨ text.head? ≠ some (byte '"') ∨ text.getLast? ≠ some (byte '"')) ↔
      ∃ t, text = byte '"' :: (t ++ [byte '"']) := by
  constructor
  · intro h
    rw [not_or, not_or, not_not, not_not] at h
    obtain ⟨hlen, hfst, hlast⟩ := h
    cases text with
    | nil => cases hfst
    | cons c rest =>
      rcases eq_nil_or_concat' rest with rfl | ⟨t, d, rfl⟩
      · exact absurd (Nat.lt_succ_self 1) hlen
      · rw [← cons_append, getLast?_concat] at hlast
        cases hfst
        cases hlast
        exact ⟨t, rfl⟩
  · rintro ⟨t, rfl⟩
    simp [getLast?_cons]

theorem strconvUnquoteInto_of_quoted (t output : Text) :
    strconvUnquoteInto (byte '"' :: (t ++ [byte '"'])) output =
      if (unquoteLoop t).2 then (true, (unquoteLoop t).1) else (false, output) := by
  have hinn : interior (byte '"' :: (t ++ [byte '"'])) = t := dropLast_concat
  rw [strconvUnquoteInto, if_neg (ends_iff.mpr ⟨t, rfl⟩), hinn]

theorem unquotesStrictly (text output : Text) : UnquotesStrictly text output := by
  refine ⟨⟨fun h => ?_, ?_⟩, fun h => ?_, length_unquoteLoop_le _⟩
  · by_cases hends : ∃ t, text = byte '"' :: (t ++ [byte '"'])
    · obtain ⟨t, rfl⟩ := hends
      rw [strconvUnquoteInto_of_quoted] at h
      split_ifs at h with hloop
      exact ⟨t, _, rfl, quotes_of_unquoteLoop hloop⟩
    · rw [strconvUnquoteInto, if_pos (not_not.mp (mt ends_iff.mp hends))] at h
      cases h
  · rintro ⟨t, v, rfl, hquotes⟩
    rw [strconvUnquoteInto_of_quoted, hquotes.unquoteLoop_eq]
    rfl
  · unfold strconvUnquoteInto at h ⊢
    split_ifs at h ⊢
    · rfl
    · rfl

theorem length_quotedByte_le (c : UInt8) : (quotedByte c).length ≤ 4 := by
  unfold quotedByte
  split_ifs <;> simp

theorem grayStrconvQuote_eq (string : Text) : grayStrconvQuote string =
    if (byte '"' :: (string.flatMap quotedByte ++ [byte '"'])).length < 2 ^ 31 then
      some (byte '"' :: (string.flatMap quotedByte ++ [byte '"']))
    else none := enclosedLoop_eq length_quotedByte_le _ string

/-- A string whose quoted form has an `int32_t` length comes back, and what is not quoted is
refused. -/
theorem restores_of_length {string : Text} (h : (string.flatMap quotedByte).length + 2 < 2 ^ 31)
    (text output : Text) : Restores string ∧ UnquotesStrictly text output := by
  refine ⟨⟨_, (grayStrconvQuote_eq string).trans (if_pos ?_), ?_⟩, unquotesStrictly text output⟩
  · simpa only [length_cons, length_append, length_nil] using h
  · rw [grayStrconvUnquoteResult, strconvUnquoteInto_of_quoted,
      (quotes_flatMap string).unquoteLoop_eq]
    rfl

theorem restores_tab : Restores (bytes "a\t\x01\"") ∧ UnquotesStrictly (bytes "\"\\") [] :=
  restores_of_length (by decide) _ _

/-- The position overflows on a string of `2 ^ 29` control characters. -/
theorem not_restores_controls : ¬ ∀ string : Text, string.length < 2 ^ 31 → ∀ text output,
    Restores string ∧ UnquotesStrictly text output := by
  intro h
  obtain ⟨n, hn⟩ : ∃ n : ℕ, n = 2 ^ 29 := ⟨_, rfl⟩
  have hlen : ((replicate n 1).flatMap quotedByte).length = n * 4 := by
    rw [length_flatMap, map_replicate, sum_replicate_nat]
    rfl
  obtain ⟨⟨quoted, hquo, -⟩, -⟩ := h (replicate n 1)
    (by rw [length_replicate]; omega) [] []
  rw [grayStrconvQuote_eq, if_neg] at hquo
  · cases hquo
  · simp only [length_cons, length_append, length_nil, hlen]
    omega

end Grayscale.Quoting
