import Mathlib.Algebra.Ring.Nat
import Mathlib.Data.List.Basic
import Mathlib.Data.List.TakeWhile

/-!
# Byte strings, character classes and UTF-8 decoding

Source text, token literals and type spellings are C strings: sequences of bytes. They are
modelled as lists of `UInt8`; a pointer into a text together with the number of bytes left is the
list of the bytes from there on, and the byte read past the end is the terminating NUL.
-/

namespace Grayscale

open List

/-- A byte string. -/
abbrev Text := List UInt8

instance lawfulBEq_text : LawfulBEq Text := inferInstance

@[grind =, simp] def byte (c : Char) : UInt8 := c.toNat.toUInt8

def bytes (s : String) : Text := s.toByteArray.data.toList

/-- The byte `offset` places ahead, NUL at the end of the text and beyond it. -/
def byteAt (l : Text) (offset : ℕ) : UInt8 := l.getD offset 0

@[simp] theorem byteAt_nil (k : ℕ) : byteAt [] k = 0 := by simp [byteAt]

@[simp] theorem byteAt_zero (c : UInt8) (l : Text) : byteAt (c :: l) 0 = c := rfl

@[simp] theorem byteAt_succ (c : UInt8) (l : Text) (k : ℕ) :
    byteAt (c :: l) (k + 1) = byteAt l k := by simp [byteAt]

theorem forall_byte {P : UInt8 → Prop} (h : ∀ n < 256, P (UInt8.ofNat n)) (c : UInt8) : P c := by
  have hc := h c.toNat c.toNat_lt
  rwa [UInt8.ofNat_toNat] at hc

theorem shiftLeft_or {a b : ℕ} (k : ℕ) (hb : b < 2 ^ k) : a <<< k ||| b = a * 2 ^ k + b := by
  rw [← Nat.shiftLeft_add_eq_or_of_lt hb, Nat.shiftLeft_eq]

variable {l : Text}

theorem cons_of_byteAt {c : UInt8} (h : byteAt l 0 = c) (hc : c ≠ 0) : ∃ t, l = c :: t := by
  cases l with
  | nil => exact absurd h.symm hc
  | cons d t => exact ⟨t, by rw [← h, byteAt_zero]⟩

theorem dropWhile_append_of_head {p : UInt8 → Bool} {l m : Text} (hl : ∀ c ∈ l, p c = true)
    (hm : m.head?.all (!p ·) = true) : (l ++ m).dropWhile p = m ∧ (l ++ m).takeWhile p = l := by
  rw [dropWhile_append_of_pos hl, takeWhile_append_of_pos hl]
  cases m with
  | nil => exact ⟨rfl, append_nil l⟩
  | cons c m =>
    have hc : p c = false := by simpa using hm
    rw [dropWhile_cons_of_neg (by simp [hc]), takeWhile_cons_of_neg (by simp [hc])]
    exact ⟨rfl, append_nil l⟩

theorem eq_false_of_mem_splitOnP {p : UInt8 → Bool} {text piece : Text}
    (h : piece ∈ text.splitOnP p) : ∀ c ∈ piece, p c = false := by
  induction text generalizing piece with
  | nil =>
    obtain rfl := mem_singleton.mp h
    exact forall_mem_nil _
  | cons c text ih =>
    obtain ⟨first, pieces, hpcs⟩ := exists_cons_of_ne_nil (splitOnP_ne_nil p text)
    rw [hpcs] at ih
    rw [splitOnP_cons_eq_if_modifyHead, hpcs] at h
    split_ifs at h with hc
    · rcases mem_cons.mp h with rfl | h
      · exact forall_mem_nil _
      · exact ih h
    · rcases mem_cons.mp h with rfl | h
      · exact forall_mem_cons.mpr ⟨Bool.eq_false_iff.mpr hc, ih mem_cons_self⟩
      · exact ih (mem_cons_of_mem _ h)

/-! ### Character classes -/

/-- `isdigit` of the C locale. -/
def isdigit (c : UInt8) : Bool := byte '0' ≤ c && c ≤ byte '9'

/-- `isalpha` of the C locale. -/
def isalpha (c : UInt8) : Bool := (byte 'A' ≤ c && c ≤ byte 'Z') || (byte 'a' ≤ c && c ≤ byte 'z')

/-- `isalnum` of the C locale. -/
def isalnum (c : UInt8) : Bool := isalpha c || isdigit c

/-- `isxdigit` of the C locale. -/
def isxdigit (c : UInt8) : Bool :=
  isdigit c || (byte 'A' ≤ c && c ≤ byte 'F') || (byte 'a' ≤ c && c ≤ byte 'f')

/-- `isspace` of the C locale. -/
def isspace (c : UInt8) : Bool := c == byte ' ' || (byte '\t' ≤ c && c ≤ byte '\r')

variable {c : UInt8}

theorem le_of_isspace (h : isspace c = true) : c ≤ 0x20 := by
  simp only [isspace, Bool.or_eq_true, beq_iff_eq, Bool.and_eq_true, decide_eq_true_eq] at h
  rcases h with rfl | h
  · decide
  · exact UInt8.le_trans h.2 (by decide)

theorem isspace_eq_false (h : 0x20 < c) : isspace c = false :=
  Bool.eq_false_iff.mpr fun hc => UInt8.not_lt.mpr (le_of_isspace hc) h

theorem isspace_of_isdigit (h : isdigit c = true) : isspace c = false := by
  simp only [isdigit, Bool.and_eq_true, decide_eq_true_eq] at h
  exact isspace_eq_false (UInt8.lt_of_lt_of_le (by decide) h.1)

def hexDigitValue (c : UInt8) : ℕ :=
  if isdigit c then c.toNat - 48
  else if byte 'a' ≤ c then c.toNat - 97 + 10
  else c.toNat - 65 + 10

/-- The lower-case hexadecimal digit of a value below sixteen. -/
def hexDigit (n : ℕ) : UInt8 := if n < 10 then (48 + n).toUInt8 else (87 + n).toUInt8

/-! ### UTF-8 -/

/-- `U+FFFD`, the value an invalid byte decodes to. -/
def replacementCodepoint : ℕ := 0xFFFD

/-- The number of bytes a lead byte announces, the codepoint bits it carries, and the range its
second byte must lie in; `none` for a byte that starts no multi-byte sequence. -/
def utf8Lead (lead : UInt8) : Option (ℕ × ℕ × UInt8 × UInt8) :=
  if 0xC2 ≤ lead ∧ lead ≤ 0xDF then some (2, (lead &&& 0x1F).toNat, 0x80, 0xBF)
  else if 0xE0 ≤ lead ∧ lead ≤ 0xEF then
    some (3, (lead &&& 0x0F).toNat, if lead = 0xE0 then 0xA0 else 0x80,
      if lead = 0xED then 0x9F else 0xBF)
  else if 0xF0 ≤ lead ∧ lead ≤ 0xF4 then
    some (4, (lead &&& 0x07).toNat, if lead = 0xF0 then 0x90 else 0x80,
      if lead = 0xF4 then 0x8F else 0xBF)
  else none

/-- The codepoint bits of the continuation bytes after the second, or `none` at a byte that is
not a continuation byte. -/
def utf8Continue : Text → ℕ → Option ℕ
  | [], codepoint => some codepoint
  | c :: l, codepoint =>
    if c &&& 0xC0 = 0x80 then utf8Continue l (codepoint * 64 + (c &&& 0x3F).toNat) else none

/-- Decode the character at the start of `l`: the codepoint and the bytes it takes. An invalid
byte decodes as one `U+FFFD` and takes one byte. -/
def grayUtf8Decode (l : Text) : ℕ × ℕ :=
  if byteAt l 0 < 0x80 then ((byteAt l 0).toNat, 1)
  else match utf8Lead (byteAt l 0) with
    | none => (replacementCodepoint, 1)
    | some (bytes, codepoint, secondMin, secondMax) =>
      if l.length < bytes then (replacementCodepoint, 1)
      else if byteAt l 1 < secondMin ∨ byteAt l 1 > secondMax then (replacementCodepoint, 1)
      else
        match utf8Continue ((l.drop 2).take (bytes - 2))
            (codepoint * 64 + (byteAt l 1 &&& 0x3F).toNat) with
        | none => (replacementCodepoint, 1)
        | some codepoint => (codepoint, bytes)

theorem utf8Lead_spec {lead : UInt8} {n codepoint : ℕ} {lo hi : UInt8}
    (h : utf8Lead lead = some (n, codepoint, lo, hi)) : 2 ≤ n ∧ n ≤ 4 ∧ 0x80 ≤ lo := by
  unfold utf8Lead at h
  split_ifs at h <;> simp only [Option.some.injEq, Prod.mk.injEq] at h <;>
    obtain ⟨rfl, -, rfl, -⟩ := h <;> decide

theorem utf8Continue_spec {codepoint result : ℕ}
    (h : utf8Continue l codepoint = some result) : ∀ c ∈ l, 0x80 ≤ c := by
  induction l generalizing codepoint with
  | nil => simp
  | cons c l ih =>
    simp only [utf8Continue] at h
    split_ifs at h with hc
    intro d hd
    rcases mem_cons.mp hd with rfl | hd
    · exact UInt8.le_iff_toNat_le.mpr (by
        have hle : (d &&& 0xC0).toNat ≤ d.toNat := by
          rw [UInt8.toNat_and]
          exact Nat.and_le_left
        rwa [hc] at hle)
    · exact ih h d hd

theorem utf8Decode_spec (l : Text) : (grayUtf8Decode l).2 = 1 ∨
      (2 ≤ (grayUtf8Decode l).2 ∧ (grayUtf8Decode l).2 ≤ l.length ∧
        ∀ c ∈ l.take (grayUtf8Decode l).2, 0x80 ≤ c) := by
  unfold grayUtf8Decode
  split
  · exact .inl rfl
  · next hlead =>
    split
    · exact .inl rfl
    · next n codepoint lo hi h =>
      obtain ⟨hn, -, hlo⟩ := utf8Lead_spec h
      split_ifs with hlen hsnd
      · exact .inl rfl
      · exact .inl rfl
      · split
        · exact .inl rfl
        · next result hres =>
          refine .inr ⟨hn, Nat.le_of_not_lt hlen, fun c hc => ?_⟩
          rcases l with _ | ⟨a, _ | ⟨b, l⟩⟩
          · simp at hlen
            omega
          · simp at hlen
            omega
          · simp only [byteAt_zero, byteAt_succ, not_or, UInt8.not_lt] at hlead hsnd
            obtain ⟨m, rfl⟩ : ∃ m, n = m + 2 := ⟨n - 2, by omega⟩
            simp only [take_succ_cons, mem_cons] at hc
            rcases hc with rfl | rfl | hc
            · exact hlead
            · exact UInt8.le_trans hlo hsnd.1
            · exact utf8Continue_spec hres c (by simpa using hc)

theorem utf8Decode_pos (l : Text) : 1 ≤ (grayUtf8Decode l).2 := by
  rcases utf8Decode_spec l with h | h <;> omega

theorem utf8Decode_le (hl : l ≠ []) : (grayUtf8Decode l).2 ≤ l.length := by
  have hpos : 1 ≤ l.length := length_pos_iff.mpr hl
  rcases utf8Decode_spec l with h | h <;> omega

example : grayUtf8Decode [0xC3, 0xA9, 0x41] = (0xE9, 2) := by decide

end Grayscale
