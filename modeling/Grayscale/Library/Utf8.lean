import Grayscale.Util.Bytes

/-!
# Well-formed UTF-8

The byte sequences of characters (the table of RFC 3629), and the texts that are made of them.
-/

namespace Grayscale

open List

/-- A byte that continues a character. -/
def IsUtf8Tail (c : UInt8) : Prop := 0x80 ≤ c ∧ c ≤ 0xBF

/-- The bytes of one character. -/
inductive Utf8Char : Text → Prop
  | one {a : UInt8} (ha : a < 0x80) : Utf8Char [a]
  | two {a b : UInt8} (ha : 0xC2 ≤ a ∧ a ≤ 0xDF) (hb : IsUtf8Tail b) : Utf8Char [a, b]
  | three {a b c : UInt8} (ha : 0xE0 ≤ a ∧ a ≤ 0xEF) (hb : IsUtf8Tail b)
      -- No overlong form, and no surrogate.
      (hlow : a = 0xE0 → 0xA0 ≤ b) (hhigh : a = 0xED → b ≤ 0x9F) (hc : IsUtf8Tail c) :
      Utf8Char [a, b, c]
  | four {a b c d : UInt8} (ha : 0xF0 ≤ a ∧ a ≤ 0xF4) (hb : IsUtf8Tail b)
      -- No overlong form, and nothing above `U+10FFFF`.
      (hlow : a = 0xF0 → 0x90 ≤ b) (hhigh : a = 0xF4 → b ≤ 0x8F) (hc : IsUtf8Tail c)
      (hd : IsUtf8Tail d) : Utf8Char [a, b, c, d]

/-- The codepoint of a character: the payload bits of its bytes. -/
def utf8Value : Text → ℕ
  | [a] => a.toNat
  | [a, b] => a.toNat % 32 * 64 + b.toNat % 64
  | [a, b, c] => (a.toNat % 16 * 64 + b.toNat % 64) * 64 + c.toNat % 64
  | [a, b, c, d] => ((a.toNat % 8 * 64 + b.toNat % 64) * 64 + c.toNat % 64) * 64 + d.toNat % 64
  | _ => 0

/-- A codepoint that is no surrogate. -/
def IsUtf8Scalar (n : ℕ) : Prop := n < 0xD800 ∨ 0xDFFF < n ∧ n < 0x110000

instance (n : ℕ) : Decidable (IsUtf8Scalar n) := inferInstanceAs (Decidable (_ ∨ _))

/-- The text is a sequence of characters. -/
inductive WellFormedUtf8 : Text → Prop
  | nil : WellFormedUtf8 []
  | append {s t : Text} (hs : Utf8Char s) (ht : WellFormedUtf8 t) : WellFormedUtf8 (s ++ t)

theorem Utf8Char.ne_nil {s : Text} (h : Utf8Char s) : s ≠ [] := by
  cases h <;> exact cons_ne_nil _ _

theorem Utf8Char.cases_byte {s : Text} (h : Utf8Char s) :
    (∃ a < 0x80, s = [a]) ∨ ∀ c ∈ s, 0x80 ≤ c := by
  cases h with
  | one ha => exact .inl ⟨_, ha, rfl⟩
  | two ha hb =>
    simp only [mem_cons, not_mem_nil, or_false, forall_eq_or_imp, forall_eq]
    exact .inr ⟨UInt8.le_trans (by decide) ha.1, hb.1⟩
  | three ha hb hlow hhigh hc =>
    simp only [mem_cons, not_mem_nil, or_false, forall_eq_or_imp, forall_eq]
    exact .inr ⟨UInt8.le_trans (by decide) ha.1, hb.1, hc.1⟩
  | four ha hb hlow hhigh hc hd =>
    simp only [mem_cons, not_mem_nil, or_false, forall_eq_or_imp, forall_eq]
    exact .inr ⟨UInt8.le_trans (by decide) ha.1, hb.1, hc.1, hd.1⟩

theorem Utf8Char.isUtf8Scalar {s : Text} (h : Utf8Char s) : IsUtf8Scalar (utf8Value s) := by
  cases h with
  | one ha =>
    rw [UInt8.lt_iff_toNat_lt] at ha
    exact .inl (Nat.lt_trans ha (by decide))
  | two ha hb =>
    simp only [IsUtf8Tail, UInt8.le_iff_toNat_le] at ha hb
    simp only [utf8Value, IsUtf8Scalar]
    omega
  | @three a b c ha hb hlow hhigh hc =>
    simp only [IsUtf8Tail, UInt8.le_iff_toNat_le, ← UInt8.toNat_inj] at ha hb hlow hhigh hc
    simp only [UInt8.reduceToNat] at *
    simp only [utf8Value, IsUtf8Scalar]
    omega
  | @four a b c d ha hb hlow hhigh hc hd =>
    simp only [IsUtf8Tail, UInt8.le_iff_toNat_le, ← UInt8.toNat_inj] at ha hb hlow hhigh hc hd
    simp only [UInt8.reduceToNat] at *
    simp only [utf8Value, IsUtf8Scalar]
    omega

theorem Utf8Char.append_inj {s s' t t' : Text} (h : Utf8Char s) (h' : Utf8Char s')
    (he : s ++ t = s' ++ t') : s = s' ∧ t = t' := by
  have hlen : s.length = s'.length := by
    cases h <;> cases h' <;>
      simp_all only [cons_append, List.cons.injEq, length_cons, UInt8.le_iff_toNat_le,
        UInt8.lt_iff_toNat_lt] <;> simp at * <;> omega
  exact List.append_inj he hlen

variable {s t : Text}

theorem wellFormed_append_iff (hs : Utf8Char s) : WellFormedUtf8 (s ++ t) ↔ WellFormedUtf8 t := by
  refine ⟨fun h => ?_, WellFormedUtf8.append hs⟩
  generalize hl : s ++ t = l at h
  cases h with
  | nil => exact absurd (append_eq_nil_iff.mp hl).1 hs.ne_nil
  | append hs' ht => exact (hs.append_inj hs' hl).2 ▸ ht

theorem wellFormed_cons_iff {c : UInt8} {t : Text} (hc : c < 0x80) :
    WellFormedUtf8 (c :: t) ↔ WellFormedUtf8 t := wellFormed_append_iff (s := [c]) (.one hc)

theorem wellFormed_ascii_append (hs : ∀ c ∈ s, c < 0x80) :
    WellFormedUtf8 (s ++ t) ↔ WellFormedUtf8 t := by
  induction s with
  | nil => rfl
  | cons c s ih =>
    obtain ⟨hc, hs⟩ := forall_mem_cons.mp hs
    rw [cons_append, wellFormed_cons_iff hc, ih hs]

theorem WellFormedUtf8.concat (hs : WellFormedUtf8 s) (ht : WellFormedUtf8 t) :
    WellFormedUtf8 (s ++ t) := by
  induction hs with
  | nil => exact ht
  | append hc _ ih =>
    rw [append_assoc]
    exact .append hc ih

theorem not_wellFormed {c : UInt8} {l : Text}
    (h : ∀ s t, Utf8Char s → c :: l ≠ s ++ t) : ¬ WellFormedUtf8 (c :: l) := by
  intro hw
  generalize hl : c :: l = u at hw
  cases hw with
  | nil => exact cons_ne_nil _ _ hl
  | append hs ht => exact h _ _ hs hl

section Map

variable {f : UInt8 → UInt8} (hlow : ∀ c < 0x80, f c < 0x80) (hhigh : ∀ c, 0x80 ≤ c → f c = c)

include hlow hhigh

theorem Utf8Char.map {s : Text} (h : Utf8Char s) : Utf8Char (s.map f) := by
  obtain ⟨a, ha, rfl⟩ | hs := h.cases_byte
  · exact .one (hlow a ha)
  · rwa [map_congr_left (g := id) fun c hc => hhigh c (hs c hc), map_id]

theorem Utf8Char.of_map {s : Text} (h : Utf8Char (s.map f)) : Utf8Char s := by
  have hback : ∀ c, 0x80 ≤ f c → 0x80 ≤ c := fun c hc =>
    UInt8.not_lt.mp fun hlt => UInt8.not_lt.mpr hc (hlow c hlt)
  obtain ⟨a, ha, hs⟩ | hs := h.cases_byte
  · obtain ⟨b, rfl, rfl⟩ := map_eq_singleton_iff.mp hs
    refine .one (UInt8.not_le.mp fun hb => ?_)
    rw [hhigh b hb] at ha
    exact UInt8.not_lt.mpr hb ha
  · have hbyt : ∀ c ∈ s, f c = c := fun c hc =>
      hhigh c (hback c (hs _ (mem_map_of_mem hc)))
    rwa [map_congr_left (g := id) hbyt, map_id] at h

theorem wellFormed_map_iff {t : Text} : WellFormedUtf8 (t.map f) ↔ WellFormedUtf8 t := by
  constructor
  · intro h
    generalize hu : t.map f = u at h
    induction h generalizing t with
    | nil => exact map_eq_nil_iff.mp hu ▸ .nil
    | append hs ht ih =>
      obtain ⟨s', t', rfl, rfl, rfl⟩ := map_eq_append_iff.mp hu
      exact .append (Utf8Char.of_map hlow hhigh hs) (ih rfl)
  · intro h
    induction h with
    | nil => exact .nil
    | append hs ht ih =>
      rw [map_append]
      exact .append (hs.map hlow hhigh) ih

end Map

end Grayscale
