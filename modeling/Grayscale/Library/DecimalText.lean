import Mathlib.Data.Nat.Digits.Lemmas

/-!
# Decimal texts

The decimal text of a number and the number that a text of digits stands for.
-/

namespace Grayscale.DecimalText

open List

def digitByte (d : ℕ) : UInt8 := 48 + d.toUInt8

/-- The byte is a decimal digit. -/
def IsDigit (c : UInt8) : Prop := 48 ≤ c ∧ c ≤ 57

/-- The number of a digit's byte. -/
def digitValue (c : UInt8) : ℕ := (c - 48).toNat

/-- The digits of a number, from the highest on; zero has none. -/
def digits (n : ℕ) : List UInt8 := (Nat.digits 10 n).reverse.map digitByte

def render (n : ℕ) : List UInt8 := if n = 0 then [digitByte 0] else digits n

/-- The number that a text of digits stands for after a number. -/
def read (n : ℕ) (l : List UInt8) : ℕ := l.foldl (fun n c => n * 10 + digitValue c) n

theorem digitByte_spec : ∀ d < 10, IsDigit (digitByte d) ∧ digitValue (digitByte d) = d := by
  unfold IsDigit
  decide

theorem isDigit_digitByte {d : ℕ} (h : d < 10) : IsDigit (digitByte d) := (digitByte_spec d h).1

theorem digitValue_digitByte {d : ℕ} (h : d < 10) : digitValue (digitByte d) = d :=
  (digitByte_spec d h).2

theorem digitValue_lt {c : UInt8} (h : IsDigit c) : digitValue c < 10 := by
  obtain ⟨hlow, hhigh⟩ := h
  rw [UInt8.le_iff_toNat_le] at hlow hhigh
  have hsub := UInt8.toNat_sub_of_le c 48 (UInt8.le_iff_toNat_le.mpr hlow)
  rw [digitValue, hsub]
  change 48 ≤ c.toNat at hlow
  change c.toNat ≤ 57 at hhigh
  change c.toNat - 48 < 10
  omega

theorem digits_of_ne_zero {n : ℕ} (h : n ≠ 0) :
    digits n = digits (n / 10) ++ [digitByte (n % 10)] := by
  rw [digits, Nat.digits_def' (by decide) (Nat.pos_of_ne_zero h), reverse_cons, map_append]
  rfl

variable (n : ℕ)

theorem read_append (l m : List UInt8) : read n (l ++ m) = read (read n l) m := foldl_append

theorem le_read (l : List UInt8) : n ≤ read n l := by
  induction l generalizing n with
  | nil => exact le_rfl
  | cons c l ih => exact (by omega : n ≤ n * 10 + digitValue c).trans (ih _)

theorem isDigit_of_mem_digits {n : ℕ} {c : UInt8} (h : c ∈ digits n) : IsDigit c := by
  obtain ⟨d, hd, rfl⟩ := mem_map.mp h
  exact isDigit_digitByte (Nat.digits_lt_base (by decide) (mem_reverse.mp hd))

theorem read_digits : read 0 (digits n) = n := by
  induction n using Nat.strongRecOn with
  | ind n ih =>
    by_cases h : n = 0
    · subst h
      rfl
    · rw [digits_of_ne_zero h, read_append, ih _ (Nat.div_lt_self (Nat.pos_of_ne_zero h) (by decide))]
      change n / 10 * 10 + digitValue (digitByte (n % 10)) = n
      rw [digitValue_digitByte (Nat.mod_lt n (by decide))]
      omega

theorem length_digits_le {n k : ℕ} (h : n < 10 ^ k) : (digits n).length ≤ k := by
  rw [digits, length_map, length_reverse]
  exact (Nat.digits_length_le_iff (by decide) n).mpr h

theorem digits_ne_nil {n : ℕ} (h : n ≠ 0) : digits n ≠ [] := by
  rw [digits_of_ne_zero h]
  exact append_ne_nil_of_right_ne_nil _ (cons_ne_nil _ _)

theorem isDigit_of_mem_render {n : ℕ} {c : UInt8} (h : c ∈ render n) : IsDigit c := by
  rw [render] at h
  split_ifs at h
  · rw [mem_singleton.mp h]
    exact isDigit_digitByte (by decide)
  · exact isDigit_of_mem_digits h

theorem read_render : read 0 (render n) = n := by
  rw [render]
  split_ifs with h
  · rw [h]
    rfl
  · exact read_digits n

theorem render_injective {m n : ℕ} (h : render m = render n) : m = n := by
  rw [← read_render m, h, read_render]

theorem render_ne_nil : render n ≠ [] := by
  rw [render]
  split_ifs with h
  · exact cons_ne_nil _ _
  · exact digits_ne_nil h

theorem length_render_le {n k : ℕ} (hk : 0 < k) (h : n < 10 ^ k) : (render n).length ≤ k := by
  rw [render]
  split_ifs
  · exact hk
  · exact length_digits_le h

theorem read_modEq {m n size : ℕ} (h : m ≡ n [MOD size]) (l : List UInt8) :
    read m l ≡ read n l [MOD size] := by
  induction l generalizing m n with
  | nil => exact h
  | cons c l ih => exact ih ((h.mul_right 10).add_right _)

end Grayscale.DecimalText
