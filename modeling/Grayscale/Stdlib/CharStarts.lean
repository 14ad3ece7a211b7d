import Mathlib.Data.List.GetD
import Grayscale.Library.Spans
import Grayscale.Stdlib.StringChars

/-!
# Character starts

`gray_utf8_char_start` of `stdlib/utf8.h` and the functions of `stdlib/strings.c` that cut a string
at a character: `truncate`, `insert_char_at`, `remove_at` and `set_char_at`.
-/

namespace Grayscale

open List

/-! ### The functions -/

/-- The loop of `gray_utf8_char_start`, by the rounds that are left. -/
def charStartLoop (data : Text) (index : ℕ) : ℕ → ℕ → ℕ
  | 0, _ => index
  | rounds + 1, back =>
    if back ≤ index then
      if back < (grayUtf8Decode (data.drop (index - back))).2 then index - back
      else charStartLoop data index rounds (back + 1)
    else index

/-- `gray_utf8_char_start`, for an index that is not negative. -/
def grayUtf8CharStart (data : Text) (index : ℕ) : ℕ :=
  if index = 0 ∨ data.length ≤ index ∨ byteAt data index &&& 0xC0 ≠ 0x80 then index
  else charStartLoop data index 3 1

/-- The panics of the functions below. -/
inductive StringPanic
  /-- `P0082`: string index out of bounds. -/
  | indexOutOfBounds (index : ℤ) (length : ℕ)
  /-- `P0119`: the maximum is smaller than the ellipsis. -/
  | maximumTooSmall (maximum : ℤ) (ellipsisLength : ℕ)

def grayStringsTruncate (string : Text) (maximum : ℤ) (ellipsis : Text) : Except StringPanic Text :=
  if maximum < ellipsis.length then .error (.maximumTooSmall maximum ellipsis.length)
  else if string.length ≤ maximum then .ok string
  else
    let head := grayUtf8CharStart string (maximum - ellipsis.length).toNat
    .ok (string.take head ++ ellipsis)

def stringsCharLength (string : Text) (position : ℕ) : ℕ :=
  (grayUtf8Decode (string.drop position)).2

/-- `strings_splice`, `none` when the `int32_t` length of the new string overflows. -/
def stringsSplice (string : Text) (cutPosition drop : ℕ) (insertion : Text) : Option Text :=
  let tail := string.length - cutPosition - drop
  if cutPosition + insertion.length + tail < 2 ^ 31 then
    some (string.take cutPosition ++ insertion ++ (string.drop (cutPosition + drop)).take tail)
  else none

def grayStringsInsertCharAt (string : Text) (index codepoint : ℤ) :
    Option (Except StringPanic Text) :=
  if index < 0 ∨ string.length < index then some (.error (.indexOutOfBounds index string.length))
  else
    let cutPosition := grayUtf8CharStart string index.toNat
    (stringsSplice string cutPosition 0 (grayBuiltinCharToUtf8 codepoint)).map .ok

def grayStringsRemoveAt (string : Text) (index : ℤ) : Option (Except StringPanic Text) :=
  if index < 0 ∨ string.length ≤ index then some (.error (.indexOutOfBounds index string.length))
  else
    let cutPosition := grayUtf8CharStart string index.toNat
    (stringsSplice string cutPosition (stringsCharLength string cutPosition) []).map .ok

def grayStringsSetCharAt (string : Text) (index codepoint : ℤ) : Option (Except StringPanic Text) :=
  if index < 0 ∨ string.length ≤ index then some (.error (.indexOutOfBounds index string.length))
  else
    let cutPosition := grayUtf8CharStart string index.toNat
    (stringsSplice string cutPosition (stringsCharLength string cutPosition)
      (grayBuiltinCharToUtf8 codepoint)).map .ok

/-! ### The bytes of characters -/

theorem Utf8Char.exists_cons {s : Text} (h : Utf8Char s) :
    ∃ a t, s = a :: t ∧ ¬ IsUtf8Tail a ∧ (∀ c ∈ t, IsUtf8Tail c) ∧ t.length ≤ 3 := by
  have hlow : ∀ {a : UInt8}, a < 0x80 → ¬ IsUtf8Tail a := fun ha htail =>
    UInt8.not_lt.mpr htail.1 ha
  have hhigh : ∀ {a : UInt8}, 0xC2 ≤ a → ¬ IsUtf8Tail a := fun ha htail =>
    absurd (UInt8.le_trans ha htail.2) (by decide)
  cases h with
  | one ha => exact ⟨_, _, rfl, hlow ha, by simp, by simp⟩
  | two ha hb => exact ⟨_, _, rfl, hhigh ha.1, by simpa using hb, by simp⟩
  | three ha hb _ _ hc =>
    exact ⟨_, _, rfl, hhigh (UInt8.le_trans (by decide) ha.1), by simpa using ⟨hb, hc⟩, by simp⟩
  | four ha hb _ _ hc hd =>
    exact ⟨_, _, rfl, hhigh (UInt8.le_trans (by decide) ha.1), by simpa using ⟨hb, hc, hd⟩, by simp⟩

theorem byteAt_of_drop (l : Text) (p k : ℕ) : byteAt (l.drop p) k = byteAt l (p + k) := by
  simp [byteAt, getD_eq_getElem?_getD, getElem?_drop]

variable {data : Text}

theorem utf8Decode_span {p : ℕ} (hp : p < data.length)
    (h : 2 ≤ (grayUtf8Decode (data.drop p)).2) :
    ¬ IsUtf8Tail (byteAt data p) ∧ (grayUtf8Decode (data.drop p)).2 ≤ 4 ∧
      ∀ q, p < q → q < p + (grayUtf8Decode (data.drop p)).2 → IsUtf8Tail (byteAt data q) := by
  have hne : data.drop p ≠ [] := ne_nil_of_length_pos (by rw [length_drop]; omega)
  rcases utf8Decode_cases hne with ⟨s, r, hs, hdrop, hdec⟩ | ⟨-, hdec⟩
  · obtain ⟨a, t, rfl, ha, ht, hlen⟩ := hs.exists_cons
    rw [hdec, length_cons]
    refine ⟨?_, by omega, fun q hpq hq => ?_⟩
    · have hbyte := byteAt_of_drop data p 0
      rw [hdrop, cons_append, byteAt_zero, Nat.add_zero] at hbyte
      rwa [← hbyte]
    · obtain ⟨k, rfl⟩ : ∃ k, q = p + (k + 1) := ⟨q - p - 1, by omega⟩
      have hbyte := byteAt_of_drop data p (k + 1)
      rw [hdrop, cons_append, byteAt_succ] at hbyte
      rw [← hbyte, byteAt, getD_append _ _ _ _ (by omega), getD_eq_getElem _ _ (by omega)]
      exact ht _ (getElem_mem _)
  · rw [hdec] at h
    exact absurd h (by decide)

/-! ### The two searches -/

/-- The bytes that the decoder takes at a position. -/
def utf8Width (data : Text) (p : ℕ) : ℕ := (grayUtf8Decode (data.drop p)).2

/-- The segment from `start` that contains `index`, when the string is decoded from its first
byte. -/
def IsCharSegment (data : Text) (index start : ℕ) : Prop :=
  IsSegment data.length (utf8Width data) index start

theorem utf8Width_pos (data : Text) : ∀ p < data.length, 0 < utf8Width data p :=
  fun _ _ => utf8Decode_pos _

theorem utf8Width_of_isUtf8Tail {p : ℕ} (hp : p < data.length) (h : IsUtf8Tail (byteAt data p)) :
    utf8Width data p = 1 := by
  have hpos := utf8Width_pos data p hp
  by_contra hne
  exact (utf8Decode_span hp (by unfold utf8Width at *; omega)).1 h

theorem scanReaches_of_not_isUtf8Tail {q : ℕ} (hq : q < data.length)
    (h : ¬ IsUtf8Tail (byteAt data q)) : ScanReaches data.length (utf8Width data) q := by
  obtain ⟨p, hp, hst, hend⟩ := exists_isSegment (utf8Width_pos data) hq
  rcases Nat.eq_or_lt_of_le hst with rfl | hlt
  · exact hp
  · have hspan := @utf8Decode_span data p (by omega)
      (by unfold utf8Width at hend; omega)
    exact absurd (hspan.2.2 q hlt hend) h

variable {index : ℕ}

theorem utf8Width_le_of_scanReaches {back : ℕ}
    (hidx : ScanReaches data.length (utf8Width data) index) (hlimit : index < data.length)
    (hback : 1 ≤ back) (hle : back ≤ index) : utf8Width data (index - back) ≤ back := by
  have hwid := utf8Width_pos data (index - back) (by omega)
  by_contra hlong
  have hspan := @utf8Decode_span data (index - back) (by omega)
    (by unfold utf8Width at *; omega)
  have hrch := scanReaches_of_not_isUtf8Tail (q := index - back) (by omega) hspan.1
  have hend := hrch.le_of_lt (utf8Width_pos data) hidx (by omega)
  omega

theorem charStartLoop_of_scanReaches (hidx : ScanReaches data.length (utf8Width data) index)
    (hlimit : index < data.length) (rounds : ℕ) {back : ℕ} (hback : 1 ≤ back) :
    charStartLoop data index rounds back = index := by
  induction rounds generalizing back with
  | zero => rfl
  | succ rounds ih =>
    rw [charStartLoop]
    split_ifs with hle hlong
    · have hsho := utf8Width_le_of_scanReaches hidx hlimit hback hle
      unfold utf8Width at hsho
      omega
    · exact ih (by omega)
    · rfl

theorem charStartLoop_of_isCharSegment {start : ℕ} (h : IsCharSegment data index start)
    (hlimit : index < data.length) (rounds : ℕ) {back : ℕ} (hback : 1 ≤ back)
    (hst : back ≤ index - start) (hrounds : index - start < back + rounds) :
    charStartLoop data index rounds back = start := by
  have hwid := h.lt_end
  unfold utf8Width at hwid
  induction rounds generalizing back with
  | zero => omega
  | succ rounds ih =>
    rw [charStartLoop, if_pos (by omega)]
    rcases Nat.eq_or_lt_of_le hst with heq | hlt
    · rw [heq, show index - (index - start) = start by omega, if_pos (by omega)]
    · -- the bytes behind the start continue the character
      have hspan := @utf8Decode_span data start (by omega) (by omega)
      have htail := hspan.2.2 (index - back) (by omega) (by omega)
      have hone := utf8Width_of_isUtf8Tail (p := index - back) (by omega) htail
      unfold utf8Width at hone
      rw [hone, if_neg (by omega)]
      exact ih (by omega) (by omega) (by omega)

theorem isCharSegment_charStart (hidx : index < data.length) :
    IsCharSegment data index (grayUtf8CharStart data index) := by
  obtain ⟨start, h⟩ := exists_isSegment (utf8Width_pos data) hidx
  have hst := h.start_le
  have hend := h.lt_end
  suffices heq : grayUtf8CharStart data index = start by rwa [heq]
  rw [grayUtf8CharStart]
  rcases Nat.eq_or_lt_of_le hst with heq | hlt
  · rw [heq] at h
    split_ifs with hdirect
    · exact heq.symm
    · rw [charStartLoop_of_scanReaches h.reached hidx 3 (Nat.le_refl 1), heq]
  · have hspan := @utf8Decode_span data start (by omega)
      (by unfold utf8Width at hend; omega)
    have htail := hspan.2.2 index hlt hend
    have hfour := hspan.2.1
    rw [if_neg]
    · refine charStartLoop_of_isCharSegment h hidx 3 (Nat.le_refl 1) (by omega) ?_
      unfold utf8Width at hend
      omega
    · rw [not_or, not_or, not_not]
      exact ⟨by omega, by omega, (isUtf8Tail_iff _).mpr htail⟩

theorem charStart_length (data : Text) : grayUtf8CharStart data data.length = data.length :=
  if_pos (.inr (.inl le_rfl))

/-! ### Well-formed strings -/

theorem wellFormed_of_scanReaches (hdata : WellFormedUtf8 data) {p : ℕ}
    (hp : ScanReaches data.length (utf8Width data) p) :
    WellFormedUtf8 (data.take p) ∧ WellFormedUtf8 (data.drop p) := by
  induction hp with
  | zero => exact ⟨.nil, hdata⟩
  | @step p _ hlimit ih =>
    obtain ⟨htake, hdrop⟩ := ih
    generalize hrest : data.drop p = rest at hdrop
    cases hdrop with
    | nil =>
      have hlen := congrArg List.length hrest
      rw [length_drop, length_nil] at hlen
      omega
    | @append s r hs hr =>
      have hwid : utf8Width data p = s.length := by
        rw [utf8Width, hrest, utf8Decode_char hs]
      rw [hwid, List.take_add, ← drop_drop, hrest, take_left, drop_left]
      exact ⟨htake.concat (append_nil s ▸ WellFormedUtf8.append hs .nil), hr⟩

theorem wellFormed_charStart (hdata : WellFormedUtf8 data) (hidx : index < data.length) :
    WellFormedUtf8 (data.take (grayUtf8CharStart data index)) ∧
      WellFormedUtf8 (data.drop (grayUtf8CharStart data index)) ∧
      WellFormedUtf8 (data.drop (grayUtf8CharStart data index +
        stringsCharLength data (grayUtf8CharStart data index))) := by
  have hseg := isCharSegment_charStart hidx
  have hst := hseg.start_le
  obtain ⟨htake, hdrop⟩ := wellFormed_of_scanReaches hdata hseg.reached
  exact ⟨htake, hdrop, (wellFormed_of_scanReaches hdata
    (hseg.reached.step (by omega))).2⟩

theorem charStart_le (hidx : index ≤ data.length) : grayUtf8CharStart data index ≤ index := by
  rcases Nat.eq_or_lt_of_le hidx with rfl | hlt
  · rw [charStart_length]
  · exact (isCharSegment_charStart hlt).start_le

theorem utf8Char_charToUtf8 (codepoint : ℤ) : Utf8Char (grayBuiltinCharToUtf8 codepoint) := by
  unfold grayBuiltinCharToUtf8
  split_ifs with h
  · exact (utf8Char_toUtf8 (by decide)).1
  · exact (utf8Char_toUtf8 (by unfold IsUtf8Scalar; omega)).1

theorem wellFormed_charToUtf8 (codepoint : ℤ) : WellFormedUtf8 (grayBuiltinCharToUtf8 codepoint) :=
  append_nil (grayBuiltinCharToUtf8 codepoint) ▸ .append (utf8Char_charToUtf8 codepoint) .nil

variable {string : Text}

theorem stringsSplice_eq {cutPosition drop : ℕ} (insertion : Text)
    (h : cutPosition + drop ≤ string.length) : stringsSplice string cutPosition drop insertion =
      if (string.take cutPosition ++ insertion ++ string.drop (cutPosition + drop)).length < 2 ^ 31
        then some (string.take cutPosition ++ insertion ++ string.drop (cutPosition + drop))
        else none := by
  have htail : (string.drop (cutPosition + drop)).take (string.length - cutPosition - drop) =
      string.drop (cutPosition + drop) := take_of_length_le (by rw [length_drop]; omega)
  have hlen : (string.take cutPosition ++ insertion ++ string.drop (cutPosition + drop)).length =
      cutPosition + insertion.length + (string.length - cutPosition - drop) := by
    simp only [length_append, length_take, length_drop]
    omega
  rw [stringsSplice, hlen]
  simp only [htail]

/-- A function that returns a well-formed string, unless its length is no `int32_t`. -/
def ReturnsWellFormed (returned : Option (Except StringPanic Text)) : Prop :=
  ∃ result, WellFormedUtf8 result ∧
    returned = if result.length < 2 ^ 31 then some (.ok result) else none

theorem wellFormed_splice {cutPosition drop : ℕ} {insertion : Text}
    (h : cutPosition + drop ≤ string.length) (htake : WellFormedUtf8 (string.take cutPosition))
    (hinsertion : WellFormedUtf8 insertion)
    (hdrop : WellFormedUtf8 (string.drop (cutPosition + drop))) :
    ReturnsWellFormed ((stringsSplice string cutPosition drop insertion).map .ok) := by
  refine ⟨_, (htake.concat hinsertion).concat hdrop, ?_⟩
  rw [stringsSplice_eq insertion h]
  split_ifs <;> rfl

theorem charStart_add_charLength_le (hidx : index < data.length) :
    grayUtf8CharStart data index + stringsCharLength data (grayUtf8CharStart data index) ≤
      data.length := by
  have hst := (isCharSegment_charStart hidx).start_le
  have hne : data.drop (grayUtf8CharStart data index) ≠ [] :=
    ne_nil_of_length_pos (by rw [length_drop]; omega)
  have hle := utf8Decode_le hne
  rw [length_drop] at hle
  rw [stringsCharLength]
  omega

theorem wellFormed_insertCharAt (hstr : WellFormedUtf8 string) {index : ℤ}
    (hlow : 0 ≤ index) (hhigh : index ≤ string.length) (codepoint : ℤ) :
    ReturnsWellFormed (grayStringsInsertCharAt string index codepoint) := by
  obtain ⟨n, rfl⟩ := Int.eq_ofNat_of_zero_le hlow
  rw [grayStringsInsertCharAt, if_neg (by omega)]
  simp only [Int.toNat_natCast]
  have hn : n ≤ string.length := by omega
  have hle := charStart_le hn
  refine wellFormed_splice (by omega) ?_ (wellFormed_charToUtf8 codepoint) ?_
  · rcases Nat.eq_or_lt_of_le hn with rfl | hlt
    · rwa [charStart_length, take_length]
    · exact (wellFormed_charStart hstr hlt).1
  · rcases Nat.eq_or_lt_of_le hn with rfl | hlt
    · rw [charStart_length, Nat.add_zero, drop_length]
      exact .nil
    · exact (wellFormed_charStart hstr hlt).2.1

theorem wellFormed_setCharAt (hstr : WellFormedUtf8 string) {index : ℤ} (hlow : 0 ≤ index)
    (hhigh : index < string.length) (codepoint : ℤ) :
    ReturnsWellFormed (grayStringsSetCharAt string index codepoint) := by
  obtain ⟨n, rfl⟩ := Int.eq_ofNat_of_zero_le hlow
  have hn : n < string.length := by omega
  rw [grayStringsSetCharAt, if_neg (by omega)]
  simp only [Int.toNat_natCast]
  obtain ⟨htake, -, hdrop⟩ := wellFormed_charStart hstr hn
  exact wellFormed_splice (charStart_add_charLength_le hn) htake
    (wellFormed_charToUtf8 codepoint) hdrop

theorem grayStringsRemoveAt_wellFormed (hstr : WellFormedUtf8 string)
    (hlen : string.length < 2 ^ 31) {index : ℤ} (hlow : 0 ≤ index)
    (hhigh : index < string.length) :
    ∃ result, WellFormedUtf8 result ∧ grayStringsRemoveAt string index = some (.ok result) := by
  obtain ⟨n, rfl⟩ := Int.eq_ofNat_of_zero_le hlow
  have hn : n < string.length := by omega
  have hcut := charStart_add_charLength_le hn
  obtain ⟨htake, -, hdrop⟩ := wellFormed_charStart hstr hn
  rw [grayStringsRemoveAt, if_neg (by omega)]
  simp only [Int.toNat_natCast]
  refine ⟨_, (htake.concat .nil).concat hdrop, ?_⟩
  rw [stringsSplice_eq [] hcut, if_pos]
  · rfl
  · simp only [length_append, length_take, length_drop, length_nil]
    omega

theorem length_grayStringsTruncate_le {ellipsis result : Text} {maximum : ℤ}
    (h : grayStringsTruncate string maximum ellipsis = .ok result) : result.length ≤ maximum := by
  unfold grayStringsTruncate at h
  split_ifs at h with hpanic hsho
  · obtain rfl := Except.ok.inj h
    exact hsho
  · obtain rfl := Except.ok.inj h
    have hhead := @charStart_le string (maximum - ellipsis.length).toNat (by omega)
    simp only [length_append, length_take]
    omega

theorem grayStringsTruncate_wellFormed {ellipsis : Text} (hstr : WellFormedUtf8 string)
    (hellipsis : WellFormedUtf8 ellipsis) {maximum : ℤ} (hmax : ellipsis.length ≤ maximum) :
    ∃ result, WellFormedUtf8 result ∧ grayStringsTruncate string maximum ellipsis = .ok result := by
  unfold grayStringsTruncate
  rw [if_neg (by omega)]
  by_cases hsho : string.length ≤ maximum
  · exact ⟨string, hstr, if_pos hsho⟩
  · rw [if_neg hsho]
    refine ⟨_, WellFormedUtf8.concat ?_ hellipsis, rfl⟩
    rcases Nat.lt_or_ge (maximum - ellipsis.length).toNat string.length with hlt | hge
    · exact (wellFormed_charStart hstr hlt).1
    · omega

end Grayscale
