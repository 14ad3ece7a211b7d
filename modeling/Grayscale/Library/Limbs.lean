import Mathlib.Data.Nat.Digits.Lemmas

/-!
# Numbers as lists of limbs

A number is a list of limbs, the lowest first; a limb holds `w` bits. This file has the schoolbook
loops over such lists, each with the equation that says what it does to the numbers.
-/

namespace Grayscale.Limbs

open List

variable {w : ℕ}

/-- Every limb fits its `w` bits. -/
def Fits (w : ℕ) (l : List ℕ) : Prop := ∀ d ∈ l, d < 2 ^ w

theorem Fits.head {d : ℕ} {l : List ℕ} (h : Fits w (d :: l)) : d < 2 ^ w := h d (mem_cons_self ..)

theorem Fits.tail {d : ℕ} {l : List ℕ} (h : Fits w (d :: l)) : Fits w l :=
  fun e he => h e (mem_cons_of_mem d he)

theorem fits_cons {d : ℕ} {l : List ℕ} (hd : d < 2 ^ w) (hl : Fits w l) : Fits w (d :: l) := by
  intro e he
  rcases mem_cons.mp he with rfl | he
  · exact hd
  · exact hl e he

abbrev number (w : ℕ) (l : List ℕ) : ℕ := Nat.ofDigits (2 ^ w) l

theorem number_cons (d : ℕ) (l : List ℕ) : number w (d :: l) = d + 2 ^ w * number w l :=
  Nat.ofDigits_cons

theorem number_append (l m : List ℕ) :
    number w (l ++ m) = number w l + 2 ^ (w * l.length) * number w m := by
  rw [number, Nat.ofDigits_append, ← Nat.pow_mul]

theorem number_singleton (d : ℕ) : number w [d] = d := Nat.ofDigits_singleton

theorem number_eq_zero_iff (l : List ℕ) : l.all (· == 0) = true ↔ number w l = 0 := by
  induction l with
  | nil => exact iff_of_true rfl rfl
  | cons d l ih =>
    rw [all_cons, Bool.and_eq_true, beq_iff_eq, ih, number_cons, Nat.add_eq_zero_iff,
      Nat.mul_eq_zero, or_iff_right (Nat.two_pow_pos w).ne']

theorem two_pow_mul_succ (w n : ℕ) : 2 ^ (w * (n + 1)) = 2 ^ w * 2 ^ (w * n) := by
  rw [Nat.mul_succ, Nat.pow_add, Nat.mul_comm]

theorem number_lt {l : List ℕ} (h : Fits w l) : number w l < 2 ^ (w * l.length) := by
  induction l with
  | nil => exact Nat.one_pos
  | cons d l ih =>
    have hd := h.head
    have hl := ih h.tail
    rw [number_cons, length_cons, two_pow_mul_succ]
    have hmul := Nat.mul_le_mul_left (2 ^ w) (Nat.succ_le_of_lt hl)
    rw [Nat.mul_succ] at hmul
    omega

variable {l m : List ℕ}

theorem number_injective (hlen : l.length = m.length) (hl : Fits w l)
    (hm : Fits w m) (h : number w l = number w m) : l = m := by
  induction l generalizing m with
  | nil => exact (eq_nil_of_length_eq_zero hlen.symm).symm
  | cons d l ih =>
    cases m with
    | nil => cases hlen
    | cons e m =>
      rw [number_cons, number_cons] at h
      have hd : d = e := by
        have := congrArg (· % 2 ^ w) h
        simpa only [Nat.add_mul_mod_self_left, Nat.mod_eq_of_lt hl.head,
          Nat.mod_eq_of_lt hm.head] using this
      subst hd
      have htail := Nat.eq_of_mul_eq_mul_left (Nat.two_pow_pos w) (Nat.add_left_cancel h)
      rw [ih (Nat.succ.inj hlen) hl.tail hm.tail htail]

/-! ### Bits -/

theorem testBit_number (hw : 0 < w) {l : List ℕ} (h : Fits w l) (n : ℕ) :
    (number w l).testBit n = (l.getD (n / w) 0).testBit (n % w) := by
  induction l generalizing n with
  | nil => simp [number]
  | cons d l ih =>
    rw [number_cons, Nat.add_comm, Nat.testBit_two_pow_mul_add _ h.head]
    split_ifs with hn
    · rw [Nat.div_eq_of_lt hn, Nat.mod_eq_of_lt hn]
      rfl
    · obtain ⟨m, rfl⟩ : ∃ m, n = m + w := ⟨n - w, by omega⟩
      rw [Nat.add_sub_cancel, ih h.tail, Nat.add_div_right _ hw, Nat.add_mod_right]
      rfl

/-! ### Addition and subtraction -/

/-- The sum of two numbers of one length and a carry, with the carry it leaves. -/
def addCarry (w : ℕ) : List ℕ → List ℕ → ℕ → List ℕ × ℕ
  | a :: l, b :: m, carry =>
    let sum := a + b + carry
    let rest := addCarry w l m (sum / 2 ^ w)
    (sum % 2 ^ w :: rest.1, rest.2)
  | _, _, carry => ([], carry)

theorem addCarry_length (h : l.length = m.length) (carry : ℕ) :
    (addCarry w l m carry).1.length = l.length := by
  induction l generalizing m carry with
  | nil => rfl
  | cons a l ih =>
    cases m with
    | nil => cases h
    | cons b m => exact congrArg (· + 1) (ih (Nat.succ.inj h) _)

theorem fits_addCarry (l m : List ℕ) (carry : ℕ) : Fits w (addCarry w l m carry).1 := by
  induction l generalizing m carry with
  | nil => exact fun d hd => absurd hd not_mem_nil
  | cons a l ih =>
    cases m with
    | nil => exact fun d hd => absurd hd not_mem_nil
    | cons b m => exact fits_cons (Nat.mod_lt _ (Nat.two_pow_pos w)) (ih m _)

theorem number_addCarry (h : l.length = m.length) (carry : ℕ) :
    number w (addCarry w l m carry).1 + 2 ^ (w * l.length) * (addCarry w l m carry).2 =
      number w l + number w m + carry := by
  induction l generalizing m carry with
  | nil =>
    rw [eq_nil_of_length_eq_zero h.symm]
    simp [addCarry, number]
  | cons a l ih =>
    cases m with
    | nil => cases h
    | cons b m =>
      have hrest := ih (m := m) (Nat.succ.inj h) ((a + b + carry) / 2 ^ w)
      have hspl := Nat.mod_add_div (a + b + carry) (2 ^ w)
      simp only [addCarry, number_cons, length_cons, two_pow_mul_succ]
      calc (a + b + carry) % 2 ^ w + 2 ^ w * number w (addCarry w l m ((a + b + carry) / 2 ^ w)).1 +
            2 ^ w * 2 ^ (w * l.length) * (addCarry w l m ((a + b + carry) / 2 ^ w)).2
          = (a + b + carry) % 2 ^ w +
            2 ^ w * (number w (addCarry w l m ((a + b + carry) / 2 ^ w)).1 +
              2 ^ (w * l.length) * (addCarry w l m ((a + b + carry) / 2 ^ w)).2) := by ring
        _ = (a + b + carry) % 2 ^ w + 2 ^ w * ((a + b + carry) / 2 ^ w) +
            2 ^ w * (number w l + number w m) := by rw [hrest]; ring
        _ = _ := by rw [hspl]; ring

/-- The difference of two numbers of one length and a borrow, with the borrow it leaves. -/
def subBorrow (w : ℕ) : List ℕ → List ℕ → ℕ → List ℕ × ℕ
  | a :: l, b :: m, borrow =>
    let difference : ℤ := a - b - borrow
    let next := if difference < 0 then 1 else 0
    let rest := subBorrow w l m next
    ((difference + next * 2 ^ w).toNat :: rest.1, rest.2)
  | _, _, borrow => ([], borrow)

theorem subBorrow_length (h : l.length = m.length) (borrow : ℕ) :
    (subBorrow w l m borrow).1.length = l.length := by
  induction l generalizing m borrow with
  | nil => rfl
  | cons a l ih =>
    cases m with
    | nil => cases h
    | cons b m => exact congrArg (· + 1) (ih (Nat.succ.inj h) _)

theorem subBorrow_limb {a b borrow : ℕ} (ha : a < 2 ^ w) (hb : b < 2 ^ w) (hborrow : borrow ≤ 1) :
    ((a - b - borrow : ℤ) + (if (a - b - borrow : ℤ) < 0 then 1 else 0 : ℕ) * 2 ^ w).toNat < 2 ^ w ∧
      ((a - b - borrow : ℤ) + (if (a - b - borrow : ℤ) < 0 then 1 else 0 : ℕ) * 2 ^ w).toNat + b +
        borrow = a + 2 ^ w * (if (a - b - borrow : ℤ) < 0 then 1 else 0) := by
  have hcast : ((2 ^ w : ℕ) : ℤ) = 2 ^ w := by simp
  rw [← hcast]
  generalize 2 ^ w = base at *
  split_ifs with h
  · rw [Nat.cast_one, one_mul, mul_one]
    omega
  · rw [Nat.cast_zero, zero_mul, mul_zero]
    omega

theorem fits_subBorrow (hl : Fits w l) (hm : Fits w m) {borrow : ℕ}
    (hborrow : borrow ≤ 1) : Fits w (subBorrow w l m borrow).1 := by
  induction l generalizing m borrow with
  | nil => exact fun d hd => absurd hd not_mem_nil
  | cons a l ih =>
    cases m with
    | nil => exact fun d hd => absurd hd not_mem_nil
    | cons b m =>
      exact fits_cons (subBorrow_limb hl.head hm.head hborrow).1
        (ih hl.tail hm.tail (by split_ifs <;> omega))

theorem number_subBorrow (h : l.length = m.length) (hl : Fits w l) (hm : Fits w m)
    {borrow : ℕ} (hborrow : borrow ≤ 1) :
    number w (subBorrow w l m borrow).1 + number w m + borrow =
      number w l + 2 ^ (w * l.length) * (subBorrow w l m borrow).2 := by
  induction l generalizing m borrow with
  | nil =>
    rw [eq_nil_of_length_eq_zero h.symm]
    simp [subBorrow, number]
  | cons a l ih =>
    cases m with
    | nil => cases h
    | cons b m =>
      have hlimb := (subBorrow_limb hl.head hm.head hborrow).2
      simp only [subBorrow, number_cons, length_cons, two_pow_mul_succ]
      generalize hnext : (if (a - b - borrow : ℤ) < 0 then 1 else 0 : ℕ) = next at hlimb ⊢
      have hone : next ≤ 1 := by rw [← hnext]; split_ifs <;> omega
      have hrest := ih (Nat.succ.inj h) hl.tail hm.tail hone
      generalize ((a - b - borrow : ℤ) + next * 2 ^ w).toNat = limb at hlimb ⊢
      calc limb + 2 ^ w * number w (subBorrow w l m next).1 + (b + 2 ^ w * number w m) + borrow
          = limb + b + borrow + 2 ^ w * (number w (subBorrow w l m next).1 + number w m) := by ring
        _ = a + 2 ^ w * (number w (subBorrow w l m next).1 + number w m + next) := by
            rw [hlimb]; ring
        _ = _ := by rw [hrest]; ring

/-! ### Multiplication -/

/-- One row of a product: `factor` times a number, added to a number of the same length. -/
def mulAdd (w factor : ℕ) : List ℕ → List ℕ → ℕ → List ℕ × ℕ
  | b :: m, c :: acc, carry =>
    let partialProduct := c + factor * b + carry
    let rest := mulAdd w factor m acc (partialProduct / 2 ^ w)
    (partialProduct % 2 ^ w :: rest.1, rest.2)
  | _, _, carry => ([], carry)

variable {factor : ℕ}

theorem mulAdd_length {m acc : List ℕ} (h : m.length = acc.length) (carry : ℕ) :
    (mulAdd w factor m acc carry).1.length = m.length := by
  induction m generalizing acc carry with
  | nil => rfl
  | cons b m ih =>
    cases acc with
    | nil => cases h
    | cons c acc => exact congrArg (· + 1) (ih (Nat.succ.inj h) _)

theorem fits_mulAdd (factor : ℕ) (m acc : List ℕ) (carry : ℕ) :
    Fits w (mulAdd w factor m acc carry).1 := by
  induction m generalizing acc carry with
  | nil => exact fun d hd => absurd hd not_mem_nil
  | cons b m ih =>
    cases acc with
    | nil => exact fun d hd => absurd hd not_mem_nil
    | cons c acc => exact fits_cons (Nat.mod_lt _ (Nat.two_pow_pos w)) (ih acc _)

theorem mulAdd_carry_lt (hfactor : factor < 2 ^ w) {m acc : List ℕ} (hm : Fits w m)
    (hacc : Fits w acc) {carry : ℕ} (hcarry : carry < 2 ^ w) :
    (mulAdd w factor m acc carry).2 < 2 ^ w := by
  induction m generalizing acc carry with
  | nil => exact hcarry
  | cons b m ih =>
    cases acc with
    | nil => exact hcarry
    | cons c acc =>
      refine ih hm.tail hacc.tail ?_
      have hb := hm.head
      have hc := hacc.head
      rw [Nat.div_lt_iff_lt_mul (Nat.two_pow_pos w)]
      obtain ⟨base, hbase⟩ : ∃ base, 2 ^ w = base + 1 := ⟨2 ^ w - 1, by omega⟩
      rw [hbase] at hfactor hcarry hb hc ⊢
      have hprod : factor * b ≤ base * base := Nat.mul_le_mul (by omega) (by omega)
      have hsquare : (base + 1) * (base + 1) = base * base + base + base + 1 := by ring
      omega

theorem number_mulAdd {m acc : List ℕ} (h : m.length = acc.length) (carry : ℕ) :
    number w (mulAdd w factor m acc carry).1 + 2 ^ (w * m.length) *
        (mulAdd w factor m acc carry).2 = number w acc + factor * number w m + carry := by
  induction m generalizing acc carry with
  | nil =>
    rw [eq_nil_of_length_eq_zero h.symm]
    simp [mulAdd, number]
  | cons b m ih =>
    cases acc with
    | nil => cases h
    | cons c acc =>
      have hrest := @ih acc (Nat.succ.inj h) ((c + factor * b + carry) / 2 ^ w)
      have hspl := Nat.mod_add_div (c + factor * b + carry) (2 ^ w)
      simp only [mulAdd, number_cons, length_cons, two_pow_mul_succ]
      generalize (mulAdd w factor m acc ((c + factor * b + carry) / 2 ^ w)).1 = rest at hrest ⊢
      generalize (mulAdd w factor m acc ((c + factor * b + carry) / 2 ^ w)).2 = top at hrest ⊢
      calc (c + factor * b + carry) % 2 ^ w + 2 ^ w * number w rest +
            2 ^ w * 2 ^ (w * m.length) * top
          = (c + factor * b + carry) % 2 ^ w +
            2 ^ w * (number w rest + 2 ^ (w * m.length) * top) := by ring
        _ = (c + factor * b + carry) % 2 ^ w + 2 ^ w * ((c + factor * b + carry) / 2 ^ w) +
            2 ^ w * (number w acc + factor * number w m) := by rw [hrest]; ring
        _ = _ := by rw [hspl]; ring

/-- The rows of a product, each one limb higher than the one before it. -/
def mulRows (w : ℕ) : List ℕ → List ℕ → List ℕ → List ℕ
  | [], _, acc => acc
  | factor :: l, m, acc =>
    let row := mulAdd w factor m acc 0
    (row.1 ++ [row.2]).headD 0 :: mulRows w l m (row.1 ++ [row.2]).tail

theorem mulRows_length (l : List ℕ) {m acc : List ℕ} (h : m.length = acc.length) :
    (mulRows w l m acc).length = l.length + acc.length := by
  induction l generalizing acc with
  | nil => simp [mulRows]
  | cons factor l ih =>
    have hrow := @mulAdd_length w factor _ _ h 0
    rw [mulRows, length_cons, ih (by simp [hrow])]
    simp only [length_tail, length_append, length_cons, length_nil, hrow]
    omega

theorem fits_mulRows {l m acc : List ℕ} (hl : Fits w l) (hm : Fits w m) (hacc : Fits w acc) :
    Fits w (mulRows w l m acc) := by
  induction l generalizing acc with
  | nil => exact hacc
  | cons factor l ih =>
    have hrow : Fits w ((mulAdd w factor m acc 0).1 ++ [(mulAdd w factor m acc 0).2]) := by
      intro d hd
      rcases mem_append.mp hd with hd | hd
      · exact fits_mulAdd factor m acc 0 d hd
      · rw [mem_singleton.mp hd]
        exact mulAdd_carry_lt hl.head hm hacc (Nat.two_pow_pos w)
    rw [mulRows]
    refine fits_cons ?_ (ih hl.tail fun d hd => hrow d (mem_of_mem_tail hd))
    cases hlist : (mulAdd w factor m acc 0).1 ++ [(mulAdd w factor m acc 0).2] with
    | nil => exact Nat.two_pow_pos w
    | cons d rest =>
      rw [hlist] at hrow
      exact hrow.head

theorem number_mulRows (l : List ℕ) {m acc : List ℕ} (h : m.length = acc.length) :
    number w (mulRows w l m acc) = number w acc + number w l * number w m := by
  induction l generalizing acc with
  | nil => simp [mulRows, number]
  | cons factor l ih =>
    have hrow := @mulAdd_length w factor _ _ h 0
    have hnum := @number_mulAdd w factor _ _ h 0
    rw [mulRows]
    generalize (mulAdd w factor m acc 0).1 = row at *
    generalize (mulAdd w factor m acc 0).2 = top at *
    have happend : number w (row ++ [top]) = number w acc + factor * number w m := by
      rw [number_append, number_singleton, hrow]
      exact hnum
    cases hlist : row ++ [top] with
    | nil => exact absurd hlist (append_ne_nil_of_right_ne_nil _ (cons_ne_nil _ _))
    | cons d rest =>
      have hlen : m.length = rest.length := by
        have := congrArg List.length hlist
        simp only [length_append, length_cons, length_nil] at this
        omega
      rw [hlist, number_cons] at happend
      rw [headD_cons, tail_cons, number_cons, number_cons, ih hlen]
      calc d + 2 ^ w * (number w rest + number w l * number w m)
          = d + 2 ^ w * number w rest + 2 ^ w * number w l * number w m := by ring
        _ = _ := by rw [happend]; ring

/-! ### Products that are cut -/

theorem number_mulAdd_modEq (factor : ℕ) {m acc : List ℕ} (h : acc.length ≤ m.length) (carry : ℕ) :
    number w (mulAdd w factor m acc carry).1 ≡ number w acc + factor * number w m + carry
      [MOD 2 ^ (w * acc.length)] := by
  induction acc generalizing m carry with
  | nil => exact Nat.modEq_one
  | cons c acc ih =>
    cases m with
    | nil => cases h
    | cons b m =>
      have hrest := ih (Nat.le_of_succ_le_succ h) ((c + factor * b + carry) / 2 ^ w)
      have hspl := Nat.mod_add_div (c + factor * b + carry) (2 ^ w)
      simp only [mulAdd, number_cons, length_cons, two_pow_mul_succ]
      generalize (mulAdd w factor m acc ((c + factor * b + carry) / 2 ^ w)).1 = rest at hrest ⊢
      calc (c + factor * b + carry) % 2 ^ w + 2 ^ w * number w rest
          ≡ (c + factor * b + carry) % 2 ^ w + 2 ^ w * (number w acc + factor * number w m +
            (c + factor * b + carry) / 2 ^ w) [MOD 2 ^ w * 2 ^ (w * acc.length)] :=
            (hrest.mul_left' _).add_left _
        _ = (c + factor * b + carry) % 2 ^ w + 2 ^ w * ((c + factor * b + carry) / 2 ^ w) +
            2 ^ w * (number w acc + factor * number w m) := by ring
        _ = _ := by rw [hspl]; ring

/-- The rows of a product, each cut at the length of the number it is added to. -/
def mulLow (w : ℕ) (m : List ℕ) : List ℕ → List ℕ → List ℕ
  | factor :: l, acc =>
    match (mulAdd w factor m acc 0).1 with
    | limb :: rest => limb :: mulLow w m l rest
    | [] => []
  | [], acc => acc

theorem length_mulAdd_of_le (factor : ℕ) {m acc : List ℕ} (h : acc.length ≤ m.length) (carry : ℕ) :
    (mulAdd w factor m acc carry).1.length = acc.length := by
  induction acc generalizing m carry with
  | nil => cases m <;> rfl
  | cons c acc ih =>
    cases m with
    | nil => cases h
    | cons b m => exact congrArg (· + 1) (ih (Nat.le_of_succ_le_succ h) _)

theorem number_mulLow (l : List ℕ) {m acc : List ℕ} (h : acc.length ≤ m.length) :
    number w (mulLow w m l acc) ≡ number w acc + number w l * number w m
      [MOD 2 ^ (w * acc.length)] := by
  induction l generalizing acc with
  | nil => simp [mulLow, number, Nat.ModEq.refl]
  | cons factor l ih =>
    have hlen := length_mulAdd_of_le (w := w) factor h 0
    have hnum := number_mulAdd_modEq (w := w) factor h 0
    rw [mulLow]
    cases hrow : (mulAdd w factor m acc 0).1 with
    | nil =>
      rw [hrow] at hlen
      rw [← hlen]
      exact Nat.modEq_one
    | cons limb rest =>
      rw [hrow, number_cons] at hnum
      rw [hrow, length_cons] at hlen
      rw [← hlen, two_pow_mul_succ] at hnum ⊢
      have hrest := ih (show rest.length ≤ m.length by omega)
      calc number w (limb :: mulLow w m l rest)
          = limb + 2 ^ w * number w (mulLow w m l rest) := number_cons ..
        _ ≡ limb + 2 ^ w * (number w rest + number w l * number w m)
            [MOD 2 ^ w * 2 ^ (w * rest.length)] := (hrest.mul_left' _).add_left _
        _ = limb + 2 ^ w * number w rest + 2 ^ w * number w l * number w m := by ring
        _ ≡ number w acc + factor * number w m + 0 + 2 ^ w * number w l * number w m
            [MOD 2 ^ w * 2 ^ (w * rest.length)] := hnum.add_right _
        _ = _ := by rw [number_cons]; ring

/-! ### Order -/

/-- The order of two numbers of one length, given from the highest limb down. -/
def compareHigh : List ℕ → List ℕ → ℤ
  | a :: l, b :: m => if a ≠ b then (if a > b then 1 else -1) else compareHigh l m
  | _, _ => 0

/-- The number of limbs that are given from the highest down. -/
def numberHigh (w : ℕ) (l : List ℕ) : ℕ := number w l.reverse

theorem numberHigh_cons (d : ℕ) (l : List ℕ) :
    numberHigh w (d :: l) = numberHigh w l + 2 ^ (w * l.length) * d := by
  rw [numberHigh, numberHigh, reverse_cons, number_append, number_singleton, length_reverse]

theorem compareHigh_eq (h : l.length = m.length) (hl : Fits w l) (hm : Fits w m) :
    compareHigh l m = if numberHigh w l = numberHigh w m then 0
      else if numberHigh w l > numberHigh w m then 1 else -1 := by
  induction l generalizing m with
  | nil =>
    rw [eq_nil_of_length_eq_zero h.symm, if_pos rfl]
    rfl
  | cons a l ih =>
    cases m with
    | nil => cases h
    | cons b m =>
      have hlen : l.length = m.length := Nat.succ.inj h
      have hltLeft : numberHigh w l < 2 ^ (w * l.length) := by
        have := number_lt (w := w) (l := l.reverse) fun d hd => hl.tail d (mem_reverse.mp hd)
        rwa [length_reverse] at this
      have hltRight : numberHigh w m < 2 ^ (w * l.length) := by
        have := number_lt (w := w) (l := m.reverse) fun d hd => hm.tail d (mem_reverse.mp hd)
        rwa [length_reverse, ← hlen] at this
      rw [compareHigh, numberHigh_cons, numberHigh_cons, ← hlen]
      rcases Nat.lt_trichotomy a b with hab | rfl | hab
      · have hstep : 2 ^ (w * l.length) * (a + 1) ≤ 2 ^ (w * l.length) * b :=
          Nat.mul_le_mul_left _ hab
        rw [Nat.mul_succ] at hstep
        rw [if_pos (by omega), if_neg (by omega), if_neg (by omega), if_neg (by omega)]
      · rw [if_neg (by omega), ih hlen hl.tail hm.tail]
        simp only [Nat.add_right_cancel_iff, gt_iff_lt, Nat.add_lt_add_iff_right]
      · have hstep : 2 ^ (w * l.length) * (b + 1) ≤ 2 ^ (w * l.length) * a :=
          Nat.mul_le_mul_left _ hab
        rw [Nat.mul_succ] at hstep
        rw [if_pos (by omega), if_pos (by omega), if_neg (by omega), if_pos (by omega)]

end Grayscale.Limbs
