import Grayscale.Stdlib.Base64

/-!
# Buffers of the encoders

The loops of `stdlib/encoding.c` that write some bytes for each byte of a string, into a buffer that
is allocated for the worst case and at a position of type `int32_t`.
-/

namespace Grayscale

open List

/-- The bytes that have room in a buffer of `size` bytes, in front of the NUL, and whose number is
an `int32_t`. -/
def outputRoom (size : ℕ) : ℕ := min (size - 1) (2 ^ 31 - 1)

/-- The loop that writes the bytes `piece c` for each byte `c` of the string. -/
def encodeLoop (room : ℕ) (piece : UInt8 → Text) : Text → Text → Option Text
  | [], output => some output
  | c :: rest, output => (writeBytes room output (piece c)).bind (encodeLoop room piece rest)

/-- The same between two quotes. -/
def enclosedLoop (room : ℕ) (piece : UInt8 → Text) (quote : UInt8) (string : Text) : Option Text :=
  (writeBytes room [] [quote]).bind fun output =>
    (encodeLoop room piece string output).bind fun output => writeBytes room output [quote]

variable {room : ℕ}

theorem writeBytes_of_le {written added : Text}
    (h : (written ++ added).length ≤ room) : writeBytes room written added = some (written ++ added) :=
  if_pos (by rwa [length_append] at h)

theorem writeBytes_of_lt {written added : Text}
    (h : room < (written ++ added).length) : writeBytes room written added = none :=
  if_neg (by rw [length_append] at h; omega)

theorem encodeLoop_eq {piece : UInt8 → Text} (s : Text) {output : Text}
    (houtput : output.length ≤ room) : encodeLoop room piece s output =
      if (output ++ s.flatMap piece).length ≤ room then some (output ++ s.flatMap piece)
      else none := by
  induction s generalizing output with
  | nil => simp [encodeLoop, houtput]
  | cons c s ih =>
    rw [encodeLoop, flatMap_cons, ← append_assoc]
    by_cases h : (output ++ piece c).length ≤ room
    · rw [writeBytes_of_le h, Option.bind_some, ih h]
    · rw [writeBytes_of_lt (Nat.lt_of_not_le h), Option.bind_none, if_neg]
      rw [length_append]
      omega

variable {piece : UInt8 → Text}

theorem length_flatMap_le {n : ℕ} (h : ∀ c, (piece c).length ≤ n)
    (s : Text) : (s.flatMap piece).length ≤ s.length * n := by
  induction s with
  | nil => simp
  | cons c s ih =>
    rw [flatMap_cons, length_append, length_cons, Nat.succ_mul]
    have hc := h c
    omega

theorem encodeLoop_outputRoom {n : ℕ} (h : ∀ c, (piece c).length ≤ n)
    (s : Text) : encodeLoop (outputRoom (s.length * n + 1)) piece s [] =
      if (s.flatMap piece).length < 2 ^ 31 then some (s.flatMap piece) else none := by
  have hlen := length_flatMap_le h s
  have hroom : outputRoom (s.length * n + 1) = min (s.length * n) (2 ^ 31 - 1) := rfl
  rw [encodeLoop_eq s (Nat.zero_le _), nil_append, hroom]
  by_cases hfits : (s.flatMap piece).length < 2 ^ 31
  · rw [if_pos hfits, if_pos (by omega)]
  · rw [if_neg hfits, if_neg (by omega)]

theorem enclosedLoop_eq (h : ∀ c, (piece c).length ≤ 4) (quote : UInt8) (string : Text) :
    enclosedLoop (outputRoom (string.length * 4 + 3)) piece quote string =
      if (quote :: (string.flatMap piece ++ [quote])).length < 2 ^ 31 then
        some (quote :: (string.flatMap piece ++ [quote]))
      else none := by
  have hlen := length_flatMap_le h string
  have hroom : outputRoom (string.length * 4 + 3) = min (string.length * 4 + 2) (2 ^ 31 - 1) := rfl
  rw [enclosedLoop, writeBytes_of_le (by rw [hroom]; simp), Option.bind_some, nil_append,
    encodeLoop_eq _ (by rw [hroom]; simp), singleton_append]
  by_cases h : (quote :: (string.flatMap piece ++ [quote])).length < 2 ^ 31
  · simp only [length_cons, length_append, length_nil] at h
    rw [if_pos (by rw [hroom, length_cons]; omega), Option.bind_some, writeBytes_of_le (by
        rw [hroom]
        simp only [length_append, length_cons, length_nil]
        omega), if_pos (by simp only [length_cons, length_append, length_nil]; omega)]
    rfl
  · rw [if_neg h]
    simp only [length_cons, length_append, length_nil] at h
    split_ifs with hfits
    · rw [Option.bind_some, writeBytes_of_lt]
      rw [hroom]
      simp only [length_append, length_cons, length_nil]
      omega
    · rfl

theorem length_flatMap_eq {growth : UInt8 → ℕ}
    (h : ∀ c, (piece c).length = 1 + growth c) (s : Text) :
    (s.flatMap piece).length = s.length + (s.map growth).sum := by
  induction s with
  | nil => rfl
  | cons c s ih =>
    rw [flatMap_cons, length_append, ih, h, length_cons, map_cons, sum_cons]
    omega

theorem exists_ite_eq_some_iff {p : Prop} [Decidable p] {text : Text} {q : Text → Prop}
    (hq : q text) : (∃ t, (if p then some text else none) = some t ∧ q t) ↔ p := by
  constructor
  · rintro ⟨t, ht, -⟩
    exact (Option.ite_none_right_eq_some.mp ht).1
  · intro h
    exact ⟨text, if_pos h, hq⟩

end Grayscale
