import Grayscale.Stdlib.CharStarts

/-!
# Padding

The functions of `stdlib/fmt.c` that pad a string to a width in characters.
-/

namespace Grayscale.Padding

open List

/-! ### The functions -/

/-- The rounds of the loop. -/
def grayBuiltinCharCount (string : Text) : ℕ := (utf8Pieces string).length

/-- The bytes that `fmt_fill_pad_character` writes. -/
def fmtFillPadCharacter (count : ℕ) (fillCharacter : ℤ) : Text :=
  (replicate count (grayBuiltinCharToUtf8 fillCharacter)).flatten

/-- The string in a buffer, `none` when its `int32_t` length overflows. -/
def bufferString (buffer : Text) : Option Text :=
  if buffer.length < 2 ^ 31 then some buffer else none

def grayFmtPadLeft (string : Text) (width fillCharacter : ℤ) : Option Text :=
  let characterCount := grayBuiltinCharCount string
  if width ≤ characterCount then some string
  else bufferString (fmtFillPadCharacter (width - characterCount).toNat fillCharacter ++ string)

def grayFmtPadRight (string : Text) (width fillCharacter : ℤ) : Option Text :=
  let characterCount := grayBuiltinCharCount string
  if width ≤ characterCount then some string
  else bufferString (string ++ fmtFillPadCharacter (width - characterCount).toNat fillCharacter)

def grayFmtCenter (string : Text) (width fillCharacter : ℤ) : Option Text :=
  let characterCount := grayBuiltinCharCount string
  if width ≤ characterCount then some string
  else
    let totalPad := (width - characterCount).toNat
    let leftPad := totalPad / 2
    bufferString (fmtFillPadCharacter leftPad fillCharacter ++ string ++
      fmtFillPadCharacter (totalPad - leftPad) fillCharacter)

/-- The loop of `gray_fmt_string_field`: the bytes up to `length`, and `character_count`. -/
def fieldLoop (precision : ℤ) : List (Text × ℕ) → ℕ → Text × ℕ
  | [], characterCount => ([], characterCount)
  | piece :: pieces, characterCount =>
    if 0 ≤ precision ∧ characterCount = precision then ([], characterCount)
    else
      let (text, total) := fieldLoop precision pieces (characterCount + 1)
      (piece.1 ++ text, total)

def grayFmtStringField (string : Text) (width : ℤ) (leftAlign : Bool) (precision : ℤ) :
    Option Text :=
  let (text, characterCount) := fieldLoop precision (utf8Pieces string) 0
  let padding := replicate (width - characterCount).toNat (byte ' ')
  bufferString (if leftAlign then text ++ padding else padding ++ text)

/-! ### The statement -/

/-- The string is returned between two texts, if the length allows it, with as many characters as
the width and the string ask for; `sides` relates the characters in front and behind. -/
def PadsTo (returned : Option Text) (string : Text) (width : ℤ) (sides : ℕ → ℕ → Prop) : Prop :=
  ∃ front back, returned = bufferString (front ++ string ++ back) ∧
    (grayBuiltinCharCount (front ++ string ++ back) : ℤ) = max width (grayBuiltinCharCount string) ∧
    sides (grayBuiltinCharCount front) (grayBuiltinCharCount back)

/-- The functions pad to the width; a field pads what the precision leaves of the string. -/
def PadsByCharacters (string : Text) (width fillCharacter precision : ℤ) : Prop :=
  PadsTo (grayFmtPadLeft string width fillCharacter) string width (fun _ back => back = 0) ∧
  PadsTo (grayFmtPadRight string width fillCharacter) string width (fun front _ => front = 0) ∧
  PadsTo (grayFmtCenter string width fillCharacter) string width
    (fun front back => front ≤ back ∧ back ≤ front + 1) ∧
  ∃ text, text <+: string ∧ (precision < 0 → text = string) ∧
    (0 ≤ precision → (grayBuiltinCharCount text : ℤ) =
      min precision (grayBuiltinCharCount string)) ∧
    ∀ leftAlign, PadsTo (grayFmtStringField string width leftAlign precision) text width
      (fun front back => if leftAlign then front = 0 else back = 0)

/-! ### Counting characters -/

variable {s l pad : Text} {sides : ℕ → ℕ → Prop} {width : ℤ}

theorem charCount_nil : grayBuiltinCharCount [] = 0 := congrArg length utf8Pieces_nil

theorem charCount_char (hs : Utf8Char s) (l : Text) :
    grayBuiltinCharCount (s ++ l) = grayBuiltinCharCount l + 1 :=
  congrArg length (utf8Pieces_char hs l)

theorem charCount_invalid {a : UInt8} (h : ∀ s r, a :: l = s ++ r → ¬ Utf8Char s) :
    grayBuiltinCharCount (a :: l) = grayBuiltinCharCount l + 1 := by
  rcases utf8Decode_cases (cons_ne_nil a l) with ⟨s, r, hs, hl, -⟩ | ⟨-, hdec⟩
  · exact absurd hs (h s r hl)
  · rw [grayBuiltinCharCount, utf8Pieces_of_ne_nil (cons_ne_nil a l), hdec]
    rfl

/-- No character goes over the seam in front of a byte that starts one. -/
theorem charCount_append (hpad : ∀ c ∈ pad.head?, ¬ IsUtf8Tail c) (l : Text) :
    grayBuiltinCharCount (l ++ pad) = grayBuiltinCharCount l + grayBuiltinCharCount pad := by
  induction hn : l.length using Nat.strong_induction_on generalizing l with
  | _ n ih =>
    subst hn
    rcases eq_or_ne l [] with rfl | hl
    · rw [nil_append, charCount_nil, Nat.zero_add]
    · rcases utf8Decode_cases hl with ⟨s, r, hs, rfl, -⟩ | ⟨hnone, -⟩
      · have hpos := length_pos_of_ne_nil hs.ne_nil
        rw [append_assoc, charCount_char hs, charCount_char hs,
          ih _ (by rw [length_append]; omega) r rfl, Nat.add_right_comm]
      · obtain ⟨a, t, rfl⟩ := exists_cons_of_ne_nil hl
        have hseam : ∀ s r, a :: t ++ pad = s ++ r → ¬ Utf8Char s := by
          intro s r h hs
          rcases append_eq_append_iff.mp h with ⟨u, rfl, rfl⟩ | ⟨u, hlu, -⟩
          · cases u with
            | nil => exact hnone (a :: t) [] (append_nil _).symm (append_nil (a :: t) ▸ hs)
            | cons c u =>
              obtain ⟨_, _, hcons, -, htail, -⟩ := hs.exists_cons
              exact hpad c rfl (htail c ((List.cons.inj hcons).2 ▸ by simp))
          · exact hnone s u hlu hs
        have hcons := charCount_invalid (l := t ++ pad) hseam
        rw [cons_append, hcons, charCount_invalid hnone, ih _ (Nat.lt_succ_self _) t rfl,
          Nat.add_right_comm]

variable (fillCharacter : ℤ)

theorem charCount_fill (n : ℕ) (l : Text) :
    grayBuiltinCharCount (fmtFillPadCharacter n fillCharacter ++ l) =
      grayBuiltinCharCount l + n := by
  induction n with
  | zero => rfl
  | succ n ih =>
    rw [fmtFillPadCharacter, replicate_succ, flatten_cons, append_assoc,
      charCount_char (utf8Char_charToUtf8 fillCharacter)]
    exact congrArg Nat.succ ih

theorem charCount_only_fill (n : ℕ) :
    grayBuiltinCharCount (fmtFillPadCharacter n fillCharacter) = n := by
  have h := charCount_fill fillCharacter n []
  rwa [append_nil, charCount_nil, Nat.zero_add] at h

theorem head_fill (n : ℕ) : ∀ c ∈ (fmtFillPadCharacter n fillCharacter).head?, ¬ IsUtf8Tail c := by
  cases n with
  | zero => exact nofun
  | succ n =>
    obtain ⟨a, t, hcons, ha, -⟩ := (utf8Char_charToUtf8 fillCharacter).exists_cons
    rw [fmtFillPadCharacter, replicate_succ, flatten_cons, hcons]
    rintro c ⟨⟩
    exact ha

/-- A string between fills that make up for what the width asks for. -/
theorem padsTo_fills {m n : ℕ} (hwid : ((m + n : ℕ) : ℤ) + grayBuiltinCharCount l =
      max width (grayBuiltinCharCount l)) (hsides : sides m n) :
    PadsTo (bufferString (fmtFillPadCharacter m fillCharacter ++ l ++
      fmtFillPadCharacter n fillCharacter)) l width sides := by
  refine ⟨_, _, rfl, ?_, ?_⟩
  · rw [charCount_append (head_fill fillCharacter n), charCount_fill, charCount_only_fill, ← hwid]
    omega
  · rwa [charCount_only_fill, charCount_only_fill]

theorem padsTo_self (hlen : l.length < 2 ^ 31) (hwid : width ≤ grayBuiltinCharCount l)
    (hsides : sides 0 0) : PadsTo (some l) l width sides := by
  have h := padsTo_fills 0 (m := 0) (n := 0)
    ((Int.zero_add _).trans (max_eq_right hwid).symm) hsides
  rwa [show fmtFillPadCharacter 0 0 ++ l ++ fmtFillPadCharacter 0 0 = l from append_nil l,
    bufferString, if_pos hlen] at h

/-! ### Fields -/

theorem replicate_space (n : ℕ) : replicate n (byte ' ') = fmtFillPadCharacter n 0x20 :=
  flatten_replicate_singleton.symm

/-- The first round of a loop, and a text that stops in the rest. -/
theorem exists_piece (hl : l ≠ []) : ∃ p v q, utf8Pieces l = (p, v) :: utf8Pieces q ∧ l = p ++ q ∧
    p ≠ [] ∧ ∀ text, text <+: q → grayBuiltinCharCount (p ++ text) =
      grayBuiltinCharCount text + 1 := by
  rcases utf8Decode_cases hl with ⟨s, r, hs, rfl, -⟩ | ⟨hnone, hdec⟩
  · exact ⟨s, _, r, utf8Pieces_char hs r, rfl, hs.ne_nil, fun text _ => charCount_char hs text⟩
  · obtain ⟨a, t, rfl⟩ := exists_cons_of_ne_nil hl
    refine ⟨[a], replacementCodepoint, t, ?_, rfl, cons_ne_nil _ _, ?_⟩
    · rw [utf8Pieces_of_ne_nil hl, hdec]
      rfl
    · rintro text ⟨u, rfl⟩
      exact charCount_invalid fun s r hsr =>
        hnone s (r ++ u) ((congrArg (· ++ u) hsr).trans (append_assoc s r u))

/-- The loop takes characters from the front of the text, all of them without a precision. -/
theorem fieldLoop_spec (precision : ℤ) (l : Text) (k : ℕ) (hk : precision < 0 ∨ k ≤ precision) :
    ∃ text, fieldLoop precision (utf8Pieces l) k = (text, k + grayBuiltinCharCount text) ∧
      text <+: l ∧ (precision < 0 → text = l) ∧ (0 ≤ precision →
        (grayBuiltinCharCount text : ℤ) = min (precision - k) (grayBuiltinCharCount l)) := by
  induction hn : l.length using Nat.strong_induction_on generalizing l k with
  | _ n ih =>
    subst hn
    rcases eq_or_ne l [] with rfl | hl
    · rw [utf8Pieces_nil, fieldLoop]
      exact ⟨[], by rw [charCount_nil]; rfl, nil_prefix, fun _ => rfl,
        fun _ => by rw [charCount_nil]; omega⟩
    · obtain ⟨p, v, q, hpcs, rfl, hp, hcount⟩ := exists_piece hl
      rw [hpcs, fieldLoop]
      split_ifs with hstop
      · exact ⟨[], by rw [charCount_nil]; rfl, nil_prefix, fun h => by omega,
          fun _ => by rw [charCount_nil]; omega⟩
      · have hpos := length_pos_of_ne_nil hp
        obtain ⟨text, hloop, hpre, hall, htext⟩ :=
          ih _ (by rw [length_append]; omega) q (k + 1) (by omega) rfl
        have hq := hcount q (prefix_refl q)
        rw [hloop]
        refine ⟨p ++ text, ?_, (prefix_append_right_inj p).mpr hpre,
          fun h => congrArg (p ++ ·) (hall h), fun h => ?_⟩
        · rw [hcount text hpre, Nat.add_right_comm, Nat.add_assoc]
        · have := htext h
          rw [hcount text hpre, hq]
          omega

end Grayscale.Padding
