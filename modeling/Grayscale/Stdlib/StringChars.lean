import Mathlib.Algebra.Order.Ring.Int
import Grayscale.Stdlib.Utf8

/-!
# Characters of strings

The conversions of `stdlib/strings.c` between strings and arrays of codepoints.
-/

namespace Grayscale

open List
open UInt8 (le_iff_toNat_le toNat_inj)

/-! ### The functions -/

/-- `codepoint_to_utf8`, for a codepoint that is not negative. -/
def codepointToUtf8 (codepoint : ℕ) : Text :=
  if codepoint < 0x80 then [codepoint.toUInt8]
  else if codepoint < 0x800 then
    [(0xC0 ||| (codepoint >>> 6)).toUInt8, (0x80 ||| (codepoint &&& 0x3F)).toUInt8]
  else if codepoint < 0x10000 then
    [(0xE0 ||| (codepoint >>> 12)).toUInt8, (0x80 ||| ((codepoint >>> 6) &&& 0x3F)).toUInt8,
      (0x80 ||| (codepoint &&& 0x3F)).toUInt8]
  else
    [(0xF0 ||| (codepoint >>> 18)).toUInt8, (0x80 ||| ((codepoint >>> 12) &&& 0x3F)).toUInt8,
      (0x80 ||| ((codepoint >>> 6) &&& 0x3F)).toUInt8, (0x80 ||| (codepoint &&& 0x3F)).toUInt8]

def grayBuiltinCharToUtf8 (codepoint : ℤ) : Text :=
  if codepoint < 0 ∨ 0x110000 ≤ codepoint ∨ 0xD800 ≤ codepoint ∧ codepoint ≤ 0xDFFF then
    codepointToUtf8 replacementCodepoint
  else codepointToUtf8 codepoint.toNat

/-- The rounds of a loop over `gray_utf8_decode`: the bytes that each takes, and the codepoint. -/
def utf8Pieces : Text → List (Text × ℕ)
  | [] => []
  | c :: cs =>
    ((c :: cs).take (grayUtf8Decode (c :: cs)).2, (grayUtf8Decode (c :: cs)).1) ::
      utf8Pieces ((c :: cs).drop (grayUtf8Decode (c :: cs)).2)
termination_by l => l.length
decreasing_by
  have hpos := utf8Decode_pos (c :: cs)
  simp only [length_drop, length_cons]
  omega

def grayStringsToChars (string : Text) : List ℤ := (utf8Pieces string).map fun piece => piece.2

/-- The loop of `gray_strings_from_chars`, `none` when the `int32_t` position overflows. -/
def fromCharsLoop : List ℤ → Text → Option Text
  | [], buffer => some buffer
  | c :: chars, buffer =>
    if buffer.length + (grayBuiltinCharToUtf8 c).length < 2 ^ 31 then
      fromCharsLoop chars (buffer ++ grayBuiltinCharToUtf8 c)
    else none

def grayStringsFromChars (chars : List ℤ) : Option Text := fromCharsLoop chars []

/-! ### Decoding -/

theorem toNat_and_mask (c : UInt8) (k : ℕ) (hk : k ≤ 8) :
    (c &&& UInt8.ofNat (2 ^ k - 1)).toNat = c.toNat % 2 ^ k := by
  have hmask : (UInt8.ofNat (2 ^ k - 1)).toNat = 2 ^ k - 1 := by
    have hle := Nat.pow_le_pow_right (by decide : 1 ≤ 2) hk
    rw [UInt8.toNat_ofNat']
    exact Nat.mod_eq_of_lt (by omega)
  rw [UInt8.toNat_and, hmask, Nat.and_two_pow_sub_one_eq_mod]

variable {s : Text}

theorem utf8Decode_char (hs : Utf8Char s) (r : Text) :
    grayUtf8Decode (s ++ r) = (utf8Value s, s.length) := by
  have hsix : ∀ c : UInt8, (c &&& 0x3F).toNat = c.toNat % 64 :=
    fun c => toNat_and_mask c 6 (by decide)
  cases hs with
  | one ha => simp [grayUtf8Decode, ha, utf8Value]
  | @two a b ha hb =>
    refine utf8Decode_eq (u := []) (UInt8.le_trans (by decide) ha.1) (utf8Lead_two ha) rfl hb ?_
    rw [utf8Continue, hsix, show (a &&& 0x1F).toNat = a.toNat % 32 from toNat_and_mask a 5 (by decide)]
    rfl
  | @three a b c ha hb hlow hhigh hc =>
    refine utf8Decode_eq (u := [c]) (UInt8.le_trans (by decide) ha.1) (utf8Lead_three ha) rfl
      ⟨?_, ?_⟩ ?_
    · split_ifs with h
      · exact hlow h
      · exact hb.1
    · split_ifs with h
      · exact hhigh h
      · exact hb.2
    · rw [utf8Continue_tail hc, utf8Continue, hsix, hsix,
        show (a &&& 0x0F).toNat = a.toNat % 16 from toNat_and_mask a 4 (by decide)]
      rfl
  | @four a b c d ha hb hlow hhigh hc hd =>
    refine utf8Decode_eq (u := [c, d]) (UInt8.le_trans (by decide) ha.1) (utf8Lead_four ha) rfl
      ⟨?_, ?_⟩ ?_
    · split_ifs with h
      · exact hlow h
      · exact hb.1
    · split_ifs with h
      · exact hhigh h
      · exact hb.2
    · rw [utf8Continue_tail hc, utf8Continue_tail hd, utf8Continue, hsix, hsix, hsix,
        show (a &&& 0x07).toNat = a.toNat % 8 from toNat_and_mask a 3 (by decide)]
      rfl

theorem utf8Decode_cases {l : Text} (hl : l ≠ []) :
    (∃ s r, Utf8Char s ∧ l = s ++ r ∧ grayUtf8Decode l = (utf8Value s, s.length)) ∨
      ((∀ s r, l = s ++ r → ¬ Utf8Char s) ∧ grayUtf8Decode l = (replacementCodepoint, 1)) := by
  by_cases hchar : ∃ s r, Utf8Char s ∧ l = s ++ r
  · obtain ⟨s, r, hs, rfl⟩ := hchar
    exact .inl ⟨s, r, hs, rfl, utf8Decode_char hs r⟩
  · obtain ⟨a, t, rfl⟩ := exists_cons_of_ne_nil hl
    refine .inr ⟨fun s r hsr hs => hchar ⟨s, r, hs, hsr⟩, ?_⟩
    have ha : 0x80 ≤ a := UInt8.not_lt.mp fun ha => hchar ⟨[a], t, .one ha, rfl⟩
    by_contra hne
    exact hchar (exists_char_of_decode ha hne)

theorem utf8Pieces_nil : utf8Pieces [] = [] := by rw [utf8Pieces]

theorem utf8Pieces_of_ne_nil {l : Text} (hl : l ≠ []) :
    utf8Pieces l = (l.take (grayUtf8Decode l).2, (grayUtf8Decode l).1) ::
      utf8Pieces (l.drop (grayUtf8Decode l).2) := by
  obtain ⟨c, cs, rfl⟩ := exists_cons_of_ne_nil hl
  rw [utf8Pieces]

theorem utf8Pieces_char (hs : Utf8Char s) (r : Text) :
    utf8Pieces (s ++ r) = (s, utf8Value s) :: utf8Pieces r := by
  rw [utf8Pieces_of_ne_nil (by simp [hs.ne_nil]), utf8Decode_char hs, take_left, drop_left]

theorem flatMap_utf8Pieces (l : Text) : (utf8Pieces l).flatMap Prod.fst = l := by
  fun_induction utf8Pieces l with
  | case1 => rfl
  | case2 c cs ih => rw [flatMap_cons, ih, take_append_drop]

theorem utf8Pieces_spec (l : Text) : ∀ piece ∈ utf8Pieces l,
    Utf8Char piece.1 ∧ piece.2 = utf8Value piece.1 ∨
      piece.1.length = 1 ∧ ¬ Utf8Char piece.1 ∧ piece.2 = replacementCodepoint := by
  fun_induction utf8Pieces l with
  | case1 => simp
  | case2 c cs ih =>
    refine forall_mem_cons.mpr ⟨?_, ih⟩
    rcases utf8Decode_cases (cons_ne_nil c cs) with ⟨s, r, hs, hl, hdec⟩ | ⟨hnone, hdec⟩
    · rw [hdec, hl, take_left]
      exact .inl ⟨hs, rfl⟩
    · rw [hdec]
      exact .inr ⟨rfl, hnone _ _ (take_append_drop 1 _).symm, rfl⟩

/-! ### Encoding -/

theorem ofNat_or {m n k : ℕ} {c : UInt8} (hn : n < 2 ^ k) (h : m * 2 ^ k + n = c.toNat) :
    (m <<< k ||| n).toUInt8 = c := by
  rw [shiftLeft_or k hn, h]
  exact UInt8.ofNat_toNat

theorem tailByte_eq {n : ℕ} {c : UInt8} (hc : IsUtf8Tail c) (h : n % 64 = c.toNat % 64) :
    (0x80 ||| (n &&& 0x3F)).toUInt8 = c := by
  simp only [IsUtf8Tail, le_iff_toNat_le, UInt8.reduceToNat] at hc
  rw [show (0x3F : ℕ) = 2 ^ 6 - 1 from rfl, Nat.and_two_pow_sub_one_eq_mod,
    show (0x80 : ℕ) = 1 <<< 7 from rfl]
  exact ofNat_or (by omega) (by omega)

theorem toUtf8_utf8Value (hs : Utf8Char s) : codepointToUtf8 (utf8Value s) = s := by
  cases hs with
  | @one a ha =>
    simp only [UInt8.lt_iff_toNat_lt, UInt8.reduceToNat] at ha
    rw [utf8Value, codepointToUtf8, if_pos ha]
    exact congrArg (· :: []) UInt8.ofNat_toNat
  | @two a b ha hb =>
    simp only [le_iff_toNat_le, UInt8.reduceToNat] at ha
    rw [utf8Value, codepointToUtf8, if_neg (by omega), if_pos (by omega),
      show (0xC0 : ℕ) = 6 <<< 5 from rfl, Nat.shiftRight_eq_div_pow,
      ofNat_or (c := a) (by omega) (by omega), tailByte_eq hb (by omega)]
  | @three a b c ha hb hlow hhigh hc =>
    have hb' := hb
    simp only [IsUtf8Tail, le_iff_toNat_le, ← toNat_inj, UInt8.reduceToNat]
      at ha hb' hlow hhigh
    rw [utf8Value, codepointToUtf8, if_neg (by omega), if_neg (by omega), if_pos (by omega),
      show (0xE0 : ℕ) = 14 <<< 4 from rfl, Nat.shiftRight_eq_div_pow, Nat.shiftRight_eq_div_pow,
      ofNat_or (c := a) (by omega) (by omega), tailByte_eq hb (by omega), tailByte_eq hc (by omega)]
  | @four a b c d ha hb hlow hhigh hc hd =>
    have hb' := hb
    simp only [IsUtf8Tail, le_iff_toNat_le, ← toNat_inj, UInt8.reduceToNat]
      at ha hb' hlow hhigh
    rw [utf8Value, codepointToUtf8, if_neg (by omega), if_neg (by omega), if_neg (by omega),
      show (0xF0 : ℕ) = 30 <<< 3 from rfl, Nat.shiftRight_eq_div_pow, Nat.shiftRight_eq_div_pow,
      Nat.shiftRight_eq_div_pow, ofNat_or (c := a) (by omega) (by omega), tailByte_eq hb (by omega),
      tailByte_eq hc (by omega), tailByte_eq hd (by omega)]

theorem toNat_ofNat_or {m n k : ℕ} (hn : n < 2 ^ k) (h : m * 2 ^ k + n < 256) :
    (m <<< k ||| n).toUInt8.toNat = m * 2 ^ k + n := by
  rw [shiftLeft_or k hn]
  exact UInt8.toNat_ofNat_of_lt' h

theorem toNat_tailByte (n : ℕ) : (0x80 ||| (n &&& 0x3F)).toUInt8.toNat = 0x80 + n % 64 := by
  rw [show (0x3F : ℕ) = 2 ^ 6 - 1 from rfl, Nat.and_two_pow_sub_one_eq_mod,
    show (0x80 : ℕ) = 1 <<< 7 from rfl]
  exact toNat_ofNat_or (by omega) (by omega)

theorem isUtf8Tail_tailByte (n : ℕ) : IsUtf8Tail (0x80 ||| (n &&& 0x3F)).toUInt8 := by
  simp only [IsUtf8Tail, le_iff_toNat_le, toNat_tailByte, UInt8.reduceToNat]
  omega

theorem utf8Char_toUtf8 {n : ℕ} (hn : IsUtf8Scalar n) :
    Utf8Char (codepointToUtf8 n) ∧ utf8Value (codepointToUtf8 n) = n := by
  unfold IsUtf8Scalar at hn
  unfold codepointToUtf8
  by_cases hone : n < 0x80
  · rw [if_pos hone]
    have htoNat : n.toUInt8.toNat = n := UInt8.toNat_ofNat_of_lt' (show n < 256 by omega)
    refine ⟨.one ?_, htoNat⟩
    rwa [UInt8.lt_iff_toNat_lt, htoNat]
  by_cases htwo : n < 0x800
  · rw [if_neg hone, if_pos htwo, show (0xC0 : ℕ) = 6 <<< 5 from rfl, Nat.shiftRight_eq_div_pow]
    have htoNat := toNat_ofNat_or (m := 6) (n := n / 2 ^ 6) (k := 5) (by omega) (by omega)
    refine ⟨.two ?_ (isUtf8Tail_tailByte _), ?_⟩
    · simp only [le_iff_toNat_le, htoNat, UInt8.reduceToNat]
      omega
    · simp only [utf8Value, htoNat, toNat_tailByte]
      omega
  by_cases hthree : n < 0x10000
  · rw [if_neg hone, if_neg htwo, if_pos hthree, show (0xE0 : ℕ) = 14 <<< 4 from rfl,
      Nat.shiftRight_eq_div_pow, Nat.shiftRight_eq_div_pow]
    have htoNat := toNat_ofNat_or (m := 14) (n := n / 2 ^ 12) (k := 4) (by omega) (by omega)
    refine ⟨.three ?_ (isUtf8Tail_tailByte _) ?_ ?_ (isUtf8Tail_tailByte _), ?_⟩
    · simp only [le_iff_toNat_le, htoNat, UInt8.reduceToNat]
      omega
    · simp only [le_iff_toNat_le, ← toNat_inj, htoNat, toNat_tailByte, UInt8.reduceToNat]
      omega
    · simp only [le_iff_toNat_le, ← toNat_inj, htoNat, toNat_tailByte, UInt8.reduceToNat]
      omega
    · simp only [utf8Value, htoNat, toNat_tailByte]
      omega
  · rw [if_neg hone, if_neg htwo, if_neg hthree, show (0xF0 : ℕ) = 30 <<< 3 from rfl,
      Nat.shiftRight_eq_div_pow, Nat.shiftRight_eq_div_pow, Nat.shiftRight_eq_div_pow]
    have htoNat := toNat_ofNat_or (m := 30) (n := n / 2 ^ 18) (k := 3) (by omega) (by omega)
    refine ⟨.four ?_ (isUtf8Tail_tailByte _) ?_ ?_ (isUtf8Tail_tailByte _) (isUtf8Tail_tailByte _),
      ?_⟩
    · simp only [le_iff_toNat_le, htoNat, UInt8.reduceToNat]
      omega
    · simp only [le_iff_toNat_le, ← toNat_inj, htoNat, toNat_tailByte, UInt8.reduceToNat]
      omega
    · simp only [le_iff_toNat_le, ← toNat_inj, htoNat, toNat_tailByte, UInt8.reduceToNat]
      omega
    · simp only [utf8Value, htoNat, toNat_tailByte]
      omega

/-- A scalar value as a `char`. -/
def IsScalarChar (c : ℤ) : Prop := 0 ≤ c ∧ IsUtf8Scalar c.toNat

theorem charToUtf8_eq {c : ℤ} (hc : IsScalarChar c) :
    grayBuiltinCharToUtf8 c = codepointToUtf8 c.toNat := by
  obtain ⟨hc, hscal⟩ := hc
  unfold IsUtf8Scalar at hscal
  exact if_neg (by omega)

/-! ### Whole strings -/

theorem fromCharsLoop_eq (chars : List ℤ) (buffer : Text) (hbuf : buffer.length < 2 ^ 31) :
    fromCharsLoop chars buffer =
      if (buffer ++ chars.flatMap grayBuiltinCharToUtf8).length < 2 ^ 31 then
        some (buffer ++ chars.flatMap grayBuiltinCharToUtf8)
      else none := by
  induction chars generalizing buffer with
  | nil => rw [fromCharsLoop, flatMap_nil, append_nil, if_pos hbuf]
  | cons c chars ih =>
    rw [fromCharsLoop, flatMap_cons, ← append_assoc]
    by_cases h : buffer.length + (grayBuiltinCharToUtf8 c).length < 2 ^ 31
    · rw [if_pos h, ih _ (by rwa [length_append])]
    · rw [if_neg h, if_neg]
      simp only [length_append] at h ⊢
      omega

theorem grayStringsFromChars_eq (chars : List ℤ) : grayStringsFromChars chars =
      if (chars.flatMap grayBuiltinCharToUtf8).length < 2 ^ 31 then
        some (chars.flatMap grayBuiltinCharToUtf8)
      else none := fromCharsLoop_eq chars [] (by decide)

theorem grayStringsToChars_flatMap {chars : List ℤ} (h : ∀ c ∈ chars, IsScalarChar c) :
    grayStringsToChars (chars.flatMap grayBuiltinCharToUtf8) = chars := by
  induction chars with
  | nil => rw [flatMap_nil, grayStringsToChars, utf8Pieces_nil, map_nil]
  | cons c chars ih =>
    obtain ⟨hc, hchars⟩ := forall_mem_cons.mp h
    obtain ⟨hchar, hval⟩ := utf8Char_toUtf8 hc.2
    rw [flatMap_cons, charToUtf8_eq hc, grayStringsToChars, utf8Pieces_char hchar,
      map_cons, hval, Int.toNat_of_nonneg hc.1]
    exact congrArg (c :: ·) (ih hchars)

theorem flatMap_grayStringsToChars (h : WellFormedUtf8 s) :
    (grayStringsToChars s).flatMap grayBuiltinCharToUtf8 = s := by
  induction h with
  | nil => rw [grayStringsToChars, utf8Pieces_nil, map_nil, flatMap_nil]
  | @append s t hs ht ih =>
    have hscal : IsScalarChar (utf8Value s : ℤ) := ⟨by omega, hs.isUtf8Scalar⟩
    rw [grayStringsToChars, utf8Pieces_char hs, map_cons, flatMap_cons,
      charToUtf8_eq hscal, Int.toNat_natCast, toUtf8_utf8Value hs]
    exact congrArg (s ++ ·) ih

/-- The decoder splits every text into characters and single invalid bytes, a round takes 1 to 4
bytes of the text, and the two conversions are inverse on the texts with an `int32_t` length. -/
theorem strings_chars : (∀ l : Text, l ≠ [] →
      (1 ≤ (grayUtf8Decode l).2 ∧ (grayUtf8Decode l).2 ≤ 4 ∧ (grayUtf8Decode l).2 ≤ l.length) ∧
      ((∃ s r, Utf8Char s ∧ l = s ++ r ∧ grayUtf8Decode l = (utf8Value s, s.length)) ∨
        ((∀ s r, l = s ++ r → ¬ Utf8Char s) ∧ grayUtf8Decode l = (replacementCodepoint, 1)))) ∧
    (∀ l : Text, (utf8Pieces l).flatMap Prod.fst = l ∧ ∀ piece ∈ utf8Pieces l,
      Utf8Char piece.1 ∧ piece.2 = utf8Value piece.1 ∨
        piece.1.length = 1 ∧ ¬ Utf8Char piece.1 ∧ piece.2 = replacementCodepoint) ∧
    (∀ chars : List ℤ, (∀ c ∈ chars, IsScalarChar c) →
      (chars.flatMap grayBuiltinCharToUtf8).length < 2 ^ 31 →
      ∃ s, grayStringsFromChars chars = some s ∧ grayStringsToChars s = chars) ∧
    (∀ s : Text, WellFormedUtf8 s → s.length < 2 ^ 31 →
      grayStringsFromChars (grayStringsToChars s) = some s) := by
  refine ⟨fun l hl => ⟨⟨utf8Decode_pos l, ?_, utf8Decode_le hl⟩, utf8Decode_cases hl⟩,
    fun l => ⟨flatMap_utf8Pieces l, utf8Pieces_spec l⟩, fun chars hchars hlen => ?_,
    fun s hs hlen => ?_⟩
  · rcases utf8Decode_cases hl with ⟨s, r, hs, -, h⟩ | ⟨-, h⟩
    · rw [h]
      cases hs <;> simp
    · rw [h]
      decide
  · exact ⟨_, (grayStringsFromChars_eq chars).trans (if_pos hlen),
      grayStringsToChars_flatMap hchars⟩
  · rw [grayStringsFromChars_eq, flatMap_grayStringsToChars hs, if_pos hlen]

/-- An array of 536870912 characters of four bytes has no encoding with an `int32_t` length. -/
theorem strings_chars_too_long : ¬ ∀ chars : List ℤ, (∀ c ∈ chars, IsScalarChar c) →
      ∃ s, grayStringsFromChars chars = some s ∧ grayStringsToChars s = chars := by
  intro h
  obtain ⟨s, hs, -⟩ := h (replicate 536870912 0x10000) fun c hc => by
    rw [eq_of_mem_replicate hc]
    exact ⟨by decide, by decide⟩
  have hlen : (grayBuiltinCharToUtf8 0x10000).length = 4 := by decide
  rw [grayStringsFromChars_eq, if_neg] at hs
  · cases hs
  · rw [length_flatMap, map_replicate, hlen, sum_replicate_nat]
    decide

end Grayscale
