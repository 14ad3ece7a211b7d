import Grayscale.Library.Utf8

/-!
# The UTF-8 decoder

`gray_utf8_decode` against the table of UTF-8: it decodes the characters, and takes every other byte
for an invalid one.
-/

namespace Grayscale

open List

theorem isUtf8Tail_iff (c : UInt8) : c &&& 0xC0 = 0x80 ↔ IsUtf8Tail c := by
  have hall : ∀ c : UInt8, c &&& 0xC0 = 0x80 ↔ (0x80 ≤ c ∧ c ≤ 0xBF) :=
    forall_byte (by decide +kernel)
  exact hall c

theorem utf8Continue_tail {c : UInt8} (hc : IsUtf8Tail c) (l : Text) (codepoint : ℕ) :
    utf8Continue (c :: l) codepoint = utf8Continue l (codepoint * 64 + (c &&& 0x3F).toNat) := by
  rw [utf8Continue, if_pos ((isUtf8Tail_iff c).mpr hc)]

variable {a : UInt8}

theorem utf8Lead_two (h : 0xC2 ≤ a ∧ a ≤ 0xDF) :
    utf8Lead a = some (2, (a &&& 0x1F).toNat, 0x80, 0xBF) := if_pos h

theorem utf8Lead_three (h : 0xE0 ≤ a ∧ a ≤ 0xEF) :
    utf8Lead a = some (3, (a &&& 0x0F).toNat, if a = 0xE0 then 0xA0 else 0x80,
      if a = 0xED then 0x9F else 0xBF) := by
  have htwo : ¬ (0xC2 ≤ a ∧ a ≤ 0xDF) := fun h' => absurd (UInt8.le_trans h.1 h'.2) (by decide)
  rw [utf8Lead, if_neg htwo, if_pos h]

theorem utf8Lead_four (h : 0xF0 ≤ a ∧ a ≤ 0xF4) :
    utf8Lead a = some (4, (a &&& 0x07).toNat, if a = 0xF0 then 0x90 else 0x80,
      if a = 0xF4 then 0x8F else 0xBF) := by
  have htwo : ¬ (0xC2 ≤ a ∧ a ≤ 0xDF) := fun h' => absurd (UInt8.le_trans h.1 h'.2) (by decide)
  have hthree : ¬ (0xE0 ≤ a ∧ a ≤ 0xEF) := fun h' => absurd (UInt8.le_trans h.1 h'.2) (by decide)
  rw [utf8Lead, if_neg htwo, if_neg hthree, if_pos h]

theorem utf8Lead_eq_some {n codepoint : ℕ} {lo hi : UInt8} :
    utf8Lead a = some (n, codepoint, lo, hi) ↔
      (0xC2 ≤ a ∧ a ≤ 0xDF ∧ n = 2 ∧ codepoint = (a &&& 0x1F).toNat ∧ lo = 0x80 ∧ hi = 0xBF) ∨
      (0xE0 ≤ a ∧ a ≤ 0xEF ∧ n = 3 ∧ codepoint = (a &&& 0x0F).toNat ∧
        lo = (if a = 0xE0 then 0xA0 else 0x80) ∧ hi = (if a = 0xED then 0x9F else 0xBF)) ∨
      (0xF0 ≤ a ∧ a ≤ 0xF4 ∧ n = 4 ∧ codepoint = (a &&& 0x07).toNat ∧
        lo = (if a = 0xF0 then 0x90 else 0x80) ∧ hi = (if a = 0xF4 then 0x8F else 0xBF)) := by
  constructor
  · intro h
    by_cases htwo : 0xC2 ≤ a ∧ a ≤ 0xDF
    · rw [utf8Lead_two htwo] at h
      cases h
      exact .inl ⟨htwo.1, htwo.2, rfl, rfl, rfl, rfl⟩
    by_cases hthree : 0xE0 ≤ a ∧ a ≤ 0xEF
    · rw [utf8Lead_three hthree] at h
      cases h
      exact .inr (.inl ⟨hthree.1, hthree.2, rfl, rfl, rfl, rfl⟩)
    by_cases hfour : 0xF0 ≤ a ∧ a ≤ 0xF4
    · rw [utf8Lead_four hfour] at h
      cases h
      exact .inr (.inr ⟨hfour.1, hfour.2, rfl, rfl, rfl, rfl⟩)
    · rw [utf8Lead, if_neg htwo, if_neg hthree, if_neg hfour] at h
      cases h
  · rintro (⟨hlow, hhigh, rfl, rfl, rfl, rfl⟩ | ⟨hlow, hhigh, rfl, rfl, rfl, rfl⟩ |
      ⟨hlow, hhigh, rfl, rfl, rfl, rfl⟩)
    · exact utf8Lead_two ⟨hlow, hhigh⟩
    · exact utf8Lead_three ⟨hlow, hhigh⟩
    · exact utf8Lead_four ⟨hlow, hhigh⟩

theorem exists_utf8Continue {u : Text} (hu : ∀ c ∈ u, IsUtf8Tail c) (codepoint : ℕ) :
    ∃ result, utf8Continue u codepoint = some result := by
  induction u generalizing codepoint with
  | nil => exact ⟨codepoint, rfl⟩
  | cons c u ih =>
    obtain ⟨hc, hu⟩ := forall_mem_cons.mp hu
    rw [utf8Continue_tail hc]
    exact ih hu _

theorem tails_of_utf8Continue {u : Text} {codepoint result : ℕ}
    (h : utf8Continue u codepoint = some result) : ∀ c ∈ u, IsUtf8Tail c := by
  induction u generalizing codepoint with
  | nil => simp
  | cons c u ih =>
    rw [utf8Continue] at h
    split_ifs at h with hc
    exact forall_mem_cons.mpr ⟨(isUtf8Tail_iff c).mp hc, ih h⟩

theorem utf8Decode_eq {a b lo hi : UInt8} {u r : Text} {n codepoint result : ℕ} (ha : 0x80 ≤ a)
    (hlead : utf8Lead a = some (n, codepoint, lo, hi)) (hn : n = u.length + 2)
    (hb : lo ≤ b ∧ b ≤ hi)
    (hres : utf8Continue u (codepoint * 64 + (b &&& 0x3F).toNat) = some result) :
    grayUtf8Decode (a :: b :: (u ++ r)) = (result, n) := by
  have htake : (u ++ r).take (n - 2) = u := by rw [hn, Nat.add_sub_cancel, take_left]
  have hlong : ¬ (a :: b :: (u ++ r)).length < n := by
    rw [hn]
    simp only [length_cons, length_append]
    omega
  have hsnd : ¬ (b < lo ∨ b > hi) := not_or.mpr ⟨UInt8.not_lt.mpr hb.1, UInt8.not_lt.mpr hb.2⟩
  simp only [grayUtf8Decode, byteAt_zero, byteAt_succ, if_neg (UInt8.not_lt.mpr ha),
    hlead, if_neg hlong, if_neg hsnd, drop_succ_cons, drop_zero, htake, hres]

theorem utf8Decode_length {a b lo hi : UInt8} {u r : Text} {n codepoint : ℕ} (ha : 0x80 ≤ a)
    (hlead : utf8Lead a = some (n, codepoint, lo, hi)) (hn : n = u.length + 2)
    (hb : lo ≤ b ∧ b ≤ hi) (hu : ∀ c ∈ u, IsUtf8Tail c) :
    (grayUtf8Decode (a :: b :: (u ++ r))).2 = n := by
  obtain ⟨result, hres⟩ := exists_utf8Continue hu (codepoint * 64 + (b &&& 0x3F).toNat)
  rw [utf8Decode_eq ha hlead hn hb hres]

theorem utf8Decode_of_char {s : Text} (hs : Utf8Char s) (hhigh : ∀ c ∈ s, 0x80 ≤ c)
    (r : Text) : (grayUtf8Decode (s ++ r)).2 = s.length := by
  have ha : ∀ {a : UInt8} {t : Text}, s = a :: t → 0x80 ≤ a := fun h => hhigh _ (h ▸ mem_cons_self)
  cases hs with
  | one ha' => exact absurd (ha rfl) (UInt8.not_le.mpr ha')
  | two hlead hb =>
    exact utf8Decode_length (u := []) (ha rfl)
      (utf8Lead_eq_some.mpr (.inl ⟨hlead.1, hlead.2, rfl, rfl, rfl, rfl⟩)) rfl hb (by simp)
  | @three a b c hlead hb hlow htop hc =>
    refine utf8Decode_length (u := [c]) (ha rfl)
      (utf8Lead_eq_some.mpr (.inr (.inl ⟨hlead.1, hlead.2, rfl, rfl, rfl, rfl⟩))) rfl ?_
      (by simpa using hc)
    constructor
    · split_ifs with h
      · exact hlow h
      · exact hb.1
    · split_ifs with h
      · exact htop h
      · exact hb.2
  | @four a b c d hlead hb hlow htop hc hd =>
    refine utf8Decode_length (u := [c, d]) (ha rfl)
      (utf8Lead_eq_some.mpr (.inr (.inr ⟨hlead.1, hlead.2, rfl, rfl, rfl, rfl⟩))) rfl ?_
      (by simpa using ⟨hc, hd⟩)
    constructor
    · split_ifs with h
      · exact hlow h
      · exact hb.1
    · split_ifs with h
      · exact htop h
      · exact hb.2

theorem exists_char_of_decode {l : Text} (ha : 0x80 ≤ a)
    (h : grayUtf8Decode (a :: l) ≠ (replacementCodepoint, 1)) :
    ∃ s r, Utf8Char s ∧ a :: l = s ++ r := by
  unfold grayUtf8Decode at h
  rw [byteAt_zero, if_neg (UInt8.not_lt.mpr ha)] at h
  cases hlead : utf8Lead a with
  | none => simp [hlead] at h
  | some lead =>
    obtain ⟨n, codepoint, lo, hi⟩ := lead
    simp only [hlead] at h
    split_ifs at h with hlong hsnd
    · exact absurd rfl h
    · exact absurd rfl h
    · cases hcontinue : utf8Continue (((a :: l).drop 2).take (n - 2))
          (codepoint * 64 + (byteAt (a :: l) 1 &&& 0x3F).toNat) with
      | none =>
        rw [hcontinue] at h
        exact absurd rfl h
      | some result =>
        have htails := tails_of_utf8Continue hcontinue
        simp only [not_or, UInt8.not_lt, gt_iff_lt, length_cons, not_lt] at hlong hsnd
        have hn := (utf8Lead_spec hlead).1
        obtain ⟨b, l, rfl⟩ := exists_cons_of_ne_nil (l := l) fun hl => by
          rw [hl, length_nil] at hlong
          omega
        rw [byteAt_succ, byteAt_zero] at hsnd
        rw [drop_succ_cons, drop_succ_cons, drop_zero] at htails
        have hlo := (utf8Lead_spec hlead).2.2
        rcases utf8Lead_eq_some.mp hlead with ⟨hlow, hhigh, rfl, -, rfl, rfl⟩ |
          ⟨hlow, hhigh, rfl, -, rfl, rfl⟩ | ⟨hlow, hhigh, rfl, -, rfl, rfl⟩
        · exact ⟨[a, b], l, .two ⟨hlow, hhigh⟩ hsnd, rfl⟩
        · obtain ⟨c, l, rfl⟩ := exists_cons_of_ne_nil (l := l) fun hl => by
            simp [hl] at hlong
          refine ⟨[a, b, c], l, .three ⟨hlow, hhigh⟩ ⟨UInt8.le_trans hlo hsnd.1, ?_⟩ ?_ ?_ ?_, rfl⟩
          · refine UInt8.le_trans hsnd.2 ?_
            split_ifs <;> decide
          · rintro rfl
            exact hsnd.1
          · rintro rfl
            exact hsnd.2
          · exact htails c (by simp)
        · obtain ⟨c, d, l, rfl⟩ : ∃ c d l', l = c :: d :: l' := by
            rcases l with _ | ⟨c, _ | ⟨d, l⟩⟩
            · simp at hlong
            · simp at hlong
            · exact ⟨c, d, l, rfl⟩
          refine ⟨[a, b, c, d], l,
            .four ⟨hlow, hhigh⟩ ⟨UInt8.le_trans hlo hsnd.1, ?_⟩ ?_ ?_ ?_ ?_, rfl⟩
          · refine UInt8.le_trans hsnd.2 ?_
            split_ifs <;> decide
          · rintro rfl
            exact hsnd.1
          · rintro rfl
            exact hsnd.2
          · exact htails c (by simp)
          · exact htails d (by simp)

theorem Utf8Char.high_of_cons {c : UInt8} {l s t : Text} (hs : Utf8Char s) (hc : ¬ c < 0x80)
    (hl : c :: l = s ++ t) : ∀ d ∈ s, 0x80 ≤ d := by
  obtain ⟨a, ha, rfl⟩ | hhigh := hs.cases_byte
  · exact absurd ((List.cons.inj hl).1 ▸ ha) hc
  · exact hhigh

end Grayscale
