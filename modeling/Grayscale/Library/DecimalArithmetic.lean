import Grayscale.Library.DecimalText

/-!
# Arithmetic on decimal digits

Order and multiplication on the digits of numbers: texts are compared byte by byte, and a number is
multiplied digit by digit, with a carry.
-/

namespace Grayscale.DecimalText

open List

/-! ### Texts without leading zeros -/

theorem read_eq (n : ℕ) (l : List UInt8) : read n l = n * 10 ^ l.length + read 0 l := by
  induction l generalizing n with
  | nil => rw [length_nil, pow_zero, mul_one]; rfl
  | cons c l ih =>
    change read (n * 10 + digitValue c) l = _ + read (0 * 10 + digitValue c) l
    rw [ih (n * 10 + digitValue c), ih (0 * 10 + digitValue c), length_cons]
    ring

theorem read_cons (c : UInt8) (l : List UInt8) :
    read 0 (c :: l) = digitValue c * 10 ^ l.length + read 0 l := by
  change read (0 * 10 + digitValue c) l = _
  rw [read_eq, Nat.zero_mul, Nat.zero_add]

theorem read_lt {l : List UInt8} (hl : ∀ c ∈ l, IsDigit c) : read 0 l < 10 ^ l.length := by
  induction l with
  | nil => exact Nat.one_pos
  | cons c l ih =>
    have hc := digitValue_lt (hl c (mem_cons_self ..))
    have hrest := ih fun d hd => hl d (mem_cons_of_mem c hd)
    rw [read_cons, length_cons, pow_succ]
    calc digitValue c * 10 ^ l.length + read 0 l
        < digitValue c * 10 ^ l.length + 10 ^ l.length := Nat.add_lt_add_left hrest _
      _ = (digitValue c + 1) * 10 ^ l.length := by ring
      _ ≤ 10 * 10 ^ l.length := Nat.mul_le_mul_right _ hc
      _ = 10 ^ l.length * 10 := Nat.mul_comm ..

theorem digitByte_digitValue (c : UInt8) : digitByte (digitValue c) = c := by
  rw [digitByte, digitValue, Nat.toUInt8, UInt8.ofNat_toNat, UInt8.add_comm, UInt8.sub_add_cancel]

theorem render_read {l : List UInt8} (hne : l ≠ []) (hdig : ∀ c ∈ l, IsDigit c)
    (hzero : l.head? = some (digitByte 0) → l = [digitByte 0]) : render (read 0 l) = l := by
  induction l using List.reverseRecOn with
  | nil => exact absurd rfl hne
  | append_singleton l c ih =>
    have hc : IsDigit c := hdig c (by simp)
    have hread : read 0 (l ++ [c]) = read 0 l * 10 + digitValue c := by
      rw [read_append]
      rfl
    have hdigit := digitValue_lt hc
    rcases eq_or_ne l [] with rfl | hl
    · rw [hread]
      change render (0 * 10 + digitValue c) = [c]
      rw [Nat.zero_mul, Nat.zero_add, render]
      split_ifs with h
      · rw [← digitByte_digitValue c, h]
      · rw [digits_of_ne_zero h, Nat.div_eq_of_lt hdigit, Nat.mod_eq_of_lt hdigit,
          digitByte_digitValue c]
        rfl
    · have hhead : (l ++ [c]).head? ≠ some (digitByte 0) := by
        intro h
        have hlen := congrArg List.length (hzero h)
        rw [length_append, length_singleton, length_singleton] at hlen
        exact hl (eq_nil_of_length_eq_zero (by omega))
      rw [head?_append_of_ne_nil l hl] at hhead
      have hrest := ih hl (fun d hd => hdig d (mem_append_left _ hd))
        fun h => absurd h hhead
      have hpos : read 0 l ≠ 0 := by
        intro h
        rw [h] at hrest
        exact hhead (by rw [← hrest]; rfl)
      have hdigitsOf : digits (read 0 l) = l := by rwa [render, if_neg hpos] at hrest
      rw [hread, render, if_neg (by omega), digits_of_ne_zero (by omega),
        show (read 0 l * 10 + digitValue c) / 10 = read 0 l by omega,
        show (read 0 l * 10 + digitValue c) % 10 = digitValue c by omega, hdigitsOf,
        digitByte_digitValue c]

theorem digitByte_injective {a b : ℕ} (ha : a < 10) (hb : b < 10) (h : digitByte a = digitByte b) :
    a = b := by
  rw [← digitValue_digitByte ha, h, digitValue_digitByte hb]

theorem head?_digits {n : ℕ} : (digits n).head? ≠ some (digitByte 0) := by
  rw [digits, head?_map, head?_reverse]
  intro h
  obtain ⟨d, hd, hzero⟩ := Option.map_eq_some_iff.mp h
  obtain ⟨front, hfro⟩ := getLast?_eq_some_iff.mp hd
  have hmem : d ∈ Nat.digits 10 n := by simp [hfro]
  have hd0 := digitByte_injective (Nat.digits_lt_base (by decide) hmem) (by decide) hzero
  subst hd0
  have hn : n ≠ 0 := by
    rintro rfl
    simp at hfro
  refine Nat.getLast_digit_ne_zero 10 hn ?_
  simp [hfro]

theorem render_eq_zero_of_head? {n : ℕ} (h : (render n).head? = some (digitByte 0)) :
    render n = [digitByte 0] := by
  rw [render] at h ⊢
  split_ifs at h ⊢
  · rfl
  · exact absurd h head?_digits

/-! ### Comparison -/

def strcmp : List UInt8 → List UInt8 → Ordering
  | [], [] => .eq
  | [], _ :: _ => .lt
  | _ :: _, [] => .gt
  | c :: l, d :: m => (compare c.toNat d.toNat).then (strcmp l m)

theorem compare_congr {a b c d : ℕ} (hlt : a < b ↔ c < d) (hgt : b < a ↔ d < c) :
    compare a b = compare c d := by
  simp only [Nat.compare_eq_ite_lt, hlt, hgt]

theorem compare_digitValue {c d : UInt8} (hc : IsDigit c) (hd : IsDigit d) :
    compare c.toNat d.toNat = compare (digitValue c) (digitValue d) := by
  obtain ⟨hc, -⟩ := hc
  obtain ⟨hd, -⟩ := hd
  rw [digitValue, digitValue, UInt8.toNat_sub_of_le _ _ hc, UInt8.toNat_sub_of_le _ _ hd]
  rw [UInt8.le_iff_toNat_le] at hc hd
  change 48 ≤ _ at hc hd
  change _ = compare (c.toNat - 48) (d.toNat - 48)
  exact compare_congr (by omega) (by omega)

theorem compare_then {a b x y size : ℕ} (hx : x < size) (hy : y < size) :
    (compare a b).then (compare x y) = compare (a * size + x) (b * size + y) := by
  rcases Nat.lt_trichotomy a b with h | rfl | h
  · have hlt : a * size + x < b * size + y := by
      calc a * size + x < (a + 1) * size := by rw [Nat.succ_mul]; omega
        _ ≤ b * size := Nat.mul_le_mul_right _ h
        _ ≤ b * size + y := Nat.le_add_right ..
    rw [Nat.compare_eq_lt.mpr h, Nat.compare_eq_lt.mpr hlt]
    rfl
  · rw [Nat.compare_eq_eq.mpr rfl]
    exact compare_congr (by omega) (by omega)
  · have hlt : b * size + y < a * size + x := by
      calc b * size + y < (b + 1) * size := by rw [Nat.succ_mul]; omega
        _ ≤ a * size := Nat.mul_le_mul_right _ h
        _ ≤ a * size + x := Nat.le_add_right ..
    rw [Nat.compare_eq_gt.mpr h, Nat.compare_eq_gt.mpr hlt]
    rfl

theorem strcmp_eq {l m : List UInt8} (hl : ∀ c ∈ l, IsDigit c) (hm : ∀ c ∈ m, IsDigit c)
    (hlen : l.length = m.length) : strcmp l m = compare (read 0 l) (read 0 m) := by
  induction l generalizing m with
  | nil =>
    obtain rfl := eq_nil_of_length_eq_zero hlen.symm
    rfl
  | cons c l ih =>
    cases m with
    | nil => cases hlen
    | cons d m =>
      obtain ⟨hc, hl⟩ := forall_mem_cons.mp hl
      obtain ⟨hd, hm⟩ := forall_mem_cons.mp hm
      have hlen : l.length = m.length := Nat.succ.inj hlen
      rw [strcmp, compare_digitValue hc hd, ih hl hm hlen, read_cons, read_cons, hlen]
      exact compare_then (hlen ▸ read_lt hl) (read_lt hm)

theorem length_render_mono {m n : ℕ} (h : m ≤ n) : (render m).length ≤ (render n).length := by
  have hpos : 1 ≤ (render n).length := length_pos_iff.mpr (render_ne_nil n)
  rw [render]
  split_ifs with hm
  · exact hpos
  · rw [render, if_neg (by omega), digits, digits, length_map, length_reverse,
      length_map, length_reverse]
    exact Nat.le_length_digits_le 10 m n h

/-! ### Multiplication -/

/-- Digits, the lowest first, times a factor, plus a carry: the digits, and what is carried out. -/
def scaleDigits (factor : ℕ) : ℕ → List ℕ → List ℕ × ℕ
  | carry, [] => ([], carry)
  | carry, d :: l =>
    let product := d * factor + carry
    let (l, carry) := scaleDigits factor (product / 10) l
    (product % 10 :: l, carry)

variable (factor carry : ℕ) (l : List ℕ)

theorem scaleDigits_length : (scaleDigits factor carry l).1.length = l.length := by
  induction l generalizing carry with
  | nil => rfl
  | cons d l ih => exact congrArg (· + 1) (ih ((d * factor + carry) / 10))

theorem scaleDigits_lt : ∀ d ∈ (scaleDigits factor carry l).1, d < 10 := by
  induction l generalizing carry with
  | nil => exact forall_mem_nil _
  | cons d l ih =>
    exact forall_mem_cons.mpr ⟨Nat.mod_lt _ (by decide), ih ((d * factor + carry) / 10)⟩

theorem ofDigits_scaleDigits : Nat.ofDigits 10 (scaleDigits factor carry l).1 +
      10 ^ l.length * (scaleDigits factor carry l).2 = Nat.ofDigits 10 l * factor + carry := by
  induction l generalizing carry with
  | nil => simp [scaleDigits]
  | cons d l ih =>
    have hrest := ih ((d * factor + carry) / 10)
    have hspl := Nat.mod_add_div (d * factor + carry) 10
    simp only [scaleDigits, Nat.ofDigits_cons, length_cons, pow_succ]
    calc (d * factor + carry) % 10 +
          10 * Nat.ofDigits 10 (scaleDigits factor ((d * factor + carry) / 10) l).1 +
          10 ^ l.length * 10 * (scaleDigits factor ((d * factor + carry) / 10) l).2
        = (d * factor + carry) % 10 + 10 * (Nat.ofDigits 10 (scaleDigits factor
            ((d * factor + carry) / 10) l).1 +
            10 ^ l.length * (scaleDigits factor ((d * factor + carry) / 10) l).2) := by ring
      _ = (d * factor + carry) % 10 + 10 * ((d * factor + carry) / 10) +
            10 * Nat.ofDigits 10 l * factor := by rw [hrest]; ring
      _ = (d + 10 * Nat.ofDigits 10 l) * factor + carry := by rw [hspl]; ring

theorem scaleDigits_carry_lt {factor carry : ℕ} {l : List ℕ} (hl : ∀ d ∈ l, d < 10)
    (hcarry : carry < factor) : (scaleDigits factor carry l).2 < factor := by
  induction l generalizing carry with
  | nil => exact hcarry
  | cons d l ih =>
    refine ih (fun x hx => hl x (mem_cons_of_mem d hx)) ?_
    have hd := hl d (mem_cons_self ..)
    have hprod : d * factor ≤ 9 * factor := Nat.mul_le_mul_right _ (by omega)
    omega

theorem scaleDigits_digits {factor carry n : ℕ} (hfactor : 0 < factor)
    (hn : n ≠ 0) : (scaleDigits factor carry (Nat.digits 10 n)).1 ++
      Nat.digits 10 (scaleDigits factor carry (Nat.digits 10 n)).2 =
        Nat.digits 10 (n * factor + carry) := by
  have hnum := ofDigits_scaleDigits factor carry (Nat.digits 10 n)
  have hlen := scaleDigits_length factor carry (Nat.digits 10 n)
  have hsml := scaleDigits_lt factor carry (Nat.digits 10 n)
  rw [Nat.ofDigits_digits] at hnum
  generalize (scaleDigits factor carry (Nat.digits 10 n)).2 = out at *
  generalize (scaleDigits factor carry (Nat.digits 10 n)).1 = l at *
  have hval : Nat.ofDigits 10 (l ++ Nat.digits 10 out) = n * factor + carry := by
    rw [Nat.ofDigits_append, Nat.ofDigits_digits, hlen, hnum]
  rw [← hval, eq_comm]
  refine Nat.digits_ofDigits 10 (by decide) _ ?_ ?_
  · exact forall_mem_append.mpr ⟨hsml, fun d hd => Nat.digits_lt_base (by decide) hd⟩
  · intro hne
    by_cases hout : out = 0
    · subst hout
      -- a leading zero would leave a number with fewer digits than the factor's multiple
      simp only [Nat.digits_zero, append_nil] at hne ⊢
      intro hlast
      have hspl := dropLast_append_getLast hne
      rw [hlast] at hspl
      have hlow : Nat.ofDigits 10 l < 10 ^ l.dropLast.length := by
        rw [← hspl, Nat.ofDigits_append, dropLast_concat]
        simp only [Nat.ofDigits_singleton, mul_zero, add_zero]
        exact Nat.ofDigits_lt_base_pow_length (by decide)
          fun d hd => hsml d (mem_of_mem_dropLast hd)
      have hhigh : 10 ^ l.dropLast.length ≤ n := by
        have hpow := Nat.base_pow_length_digits_le 10 n (by decide) hn
        obtain ⟨k, hk⟩ := Nat.exists_eq_succ_of_ne_zero (length_pos_iff.mpr hne).ne'
        rw [← hlen, hk, pow_succ] at hpow
        rw [length_dropLast, hk, Nat.succ_sub_one]
        omega
      rw [mul_zero, add_zero] at hnum
      have hfactor' : n * 1 ≤ n * factor := Nat.mul_le_mul_left n hfactor
      omega
    · rw [getLast_append_of_ne_nil _ (Nat.digits_ne_nil_iff_ne_zero.mpr hout)]
      exact Nat.getLast_digit_ne_zero 10 hout

end Grayscale.DecimalText
