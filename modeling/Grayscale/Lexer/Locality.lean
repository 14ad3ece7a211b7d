import Grayscale.Lexer.Accounting

/-!
# Tokens do not look past the end of their line

Two texts are on the same line when they agree up to an end of line: a line feed, a carriage
return, or the end of the text. Every token other than a string, raw string or character literal
is the same at the start of two such texts, with one exception: a number takes a decimal point in
front of a line feed and of the end of the text, but not in front of a carriage return.
-/

namespace Grayscale

open List

/-- The text is empty, or starts with a line feed or a carriage return. -/
def EndsLine (l : Text) : Prop := l = [] ∨ byteAt l 0 = byte '\n' ∨ byteAt l 0 = byte '\r'

/-- Two texts that agree up to an end of line. -/
inductive SameLine : Text → Text → Prop
  | ends {l l' : Text} (h : EndsLine l) (h' : EndsLine l') : SameLine l l'
  | cons (c : UInt8) {l l' : Text} (h : SameLine l l') : SameLine (c :: l) (c :: l')

def isLineEnd (c : UInt8) : Bool := c == byte '\n' || c == byte '\r'

theorem EndsLine.byteAt {l : Text} (h : EndsLine l) :
    byteAt l 0 = 0 ∨ byteAt l 0 = byte '\n' ∨ byteAt l 0 = byte '\r' := by
  rcases h with rfl | h
  · exact .inl rfl
  · exact .inr h

variable {l l' : Text}

theorem SameLine.symm (h : SameLine l l') : SameLine l' l := by
  induction h with
  | ends h h' => exact ends h' h
  | cons c _ ih => exact cons c ih

theorem SameLine.test {β : Type*} (h : SameLine l l') (p : UInt8 → β) (hnul : p 0 = p (byte '\n'))
    (hcr : p (byte '\r') = p (byte '\n')) : p (byteAt l' 0) = p (byteAt l 0) := by
  cases h with
  | ends h h' =>
    have hends : ∀ {l}, EndsLine l → p (byteAt l 0) = p (byte '\n') := by
      intro l h
      rcases h.byteAt with h | h | h <;> rw [h]
      · exact hnul
      · exact hcr
    rw [hends h, hends h']
  | cons c h => rfl

variable {c : UInt8}

theorem SameLine.uncons (h : SameLine (c :: l) l') (hc : isLineEnd c = false) :
    ∃ t, l' = c :: t ∧ SameLine l t := by
  cases h with
  | ends h h' =>
    rcases h with h | h | h
    · cases h
    · rw [byteAt_zero] at h
      simp [isLineEnd, h] at hc
    · rw [byteAt_zero] at h
      simp [isLineEnd, h] at hc
  | cons c h => exact ⟨_, rfl, h⟩

theorem SameLine.of_byteAt (h : SameLine l l') (hl : byteAt l 0 = c)
    (hc : c ≠ 0 ∧ isLineEnd c = false) : ∃ t t', l = c :: t ∧ l' = c :: t' ∧ SameLine t t' := by
  cases l with
  | nil => exact absurd hl.symm hc.1
  | cons d l =>
    rw [byteAt_zero] at hl
    subst hl
    obtain ⟨t, rfl, ht⟩ := h.uncons hc.2
    exact ⟨l, t, rfl, rfl, ht⟩

theorem SameLine.byteAt_iff (h : SameLine l l') (hc : c ≠ 0 ∧ isLineEnd c = false) :
    byteAt l' 0 = c ↔ byteAt l 0 = c := by
  constructor
  · intro hl
    obtain ⟨t', t, rfl, rfl, -⟩ := h.symm.of_byteAt hl hc
    rfl
  · intro hl
    obtain ⟨t, t', rfl, rfl, -⟩ := h.of_byteAt hl hc
    rfl

theorem SameLine.exists_cons (h : SameLine l l')
    (hl : byteAt l 0 ≠ 0 ∧ isLineEnd (byteAt l 0) = false) :
    ∃ c t t', l = c :: t ∧ l' = c :: t' ∧ SameLine t t' := by
  obtain ⟨t, t', ht⟩ := h.of_byteAt rfl hl
  exact ⟨_, t, t', ht⟩

theorem SameLine.takeWhile (h : SameLine l l') (p : UInt8 → Bool) (hlf : p (byte '\n') = false)
    (hcr : p (byte '\r') = false) :
    l'.takeWhile p = l.takeWhile p ∧ SameLine (l.dropWhile p) (l'.dropWhile p) := by
  induction h with
  | ends h h' =>
    have hends : ∀ {l : Text}, EndsLine l → l.takeWhile p = [] ∧ l.dropWhile p = l := by
      intro l h
      cases l with
      | nil => exact ⟨rfl, rfl⟩
      | cons c l =>
        have hc : p c = false := by
          rcases h with h | h | h
          · cases h
          · rw [byteAt_zero] at h
            rw [h, hlf]
          · rw [byteAt_zero] at h
            rw [h, hcr]
        simp [hc]
    rw [(hends h).1, (hends h').1, (hends h).2, (hends h').2]
    exact ⟨rfl, ends h h'⟩
  | cons c h ih =>
    cases hc : p c with
    | false => simpa [hc] using cons c h
    | true => simpa [hc] using ih

theorem SameLine.isPrefixOf (h : SameLine l l') {pattern : Text}
    (hpat : pattern.any isLineEnd = false) : pattern.isPrefixOf l' = pattern.isPrefixOf l := by
  induction pattern generalizing l l' with
  | nil => simp
  | cons c pattern ih =>
    rw [any_cons, Bool.or_eq_false_iff] at hpat
    obtain ⟨hc, hrest⟩ := hpat
    cases h with
    | ends h h' =>
      have hends : ∀ {l : Text}, EndsLine l → (c :: pattern).isPrefixOf l = false := by
        intro l h
        cases l with
        | nil => rfl
        | cons d l =>
          rw [isPrefixOf_cons_cons, Bool.and_eq_false_iff]
          refine .inl (beq_eq_false_iff_ne.mpr fun heq => ?_)
          subst heq
          rcases h with h | h | h
          · cases h
          · rw [byteAt_zero] at h
            simp [isLineEnd, h] at hc
          · rw [byteAt_zero] at h
            simp [isLineEnd, h] at hc
      rw [hends h, hends h']
    | cons d h => rw [isPrefixOf_cons_cons, isPrefixOf_cons_cons, ih h hrest]

/-! ### Numbers -/

theorem SameLine.digitRun (h : SameLine l l') : Grayscale.digitRun l' = Grayscale.digitRun l ∧
      l'.take (Grayscale.digitRun l) = l.take (Grayscale.digitRun l) ∧
      SameLine (l.drop (Grayscale.digitRun l)) (l'.drop (Grayscale.digitRun l)) := by
  obtain ⟨htake, hdrop⟩ := h.takeWhile isDigitOrSeparator (by decide) (by decide)
  have hrun : Grayscale.digitRun l' = Grayscale.digitRun l := congrArg List.length htake
  refine ⟨hrun, ?_, ?_⟩
  · have hl' := prefix_iff_eq_take.mp (List.takeWhile_prefix (l := l') isDigitOrSeparator)
    have hl := prefix_iff_eq_take.mp (List.takeWhile_prefix (l := l) isDigitOrSeparator)
    rw [htake] at hl'
    exact hl'.symm.trans hl
  · rw [← hrun]
    conv_rhs => rw [Grayscale.digitRun, Scan.drop_length_takeWhile]
    rw [hrun, Grayscale.digitRun, Scan.drop_length_takeWhile]
    exact hdrop

theorem SameLine.take_add {m n : ℕ} (htake : l'.take m = l.take m)
    (hdrop : (l'.drop m).take n = (l.drop m).take n) : l'.take (m + n) = l.take (m + n) := by
  rw [List.take_add, List.take_add, htake, hdrop]

theorem byteAt_drop (l : Text) (m k : ℕ) : byteAt (l.drop m) k = byteAt l (m + k) := by
  simp [byteAt]

theorem readExponent_sameLine (h : SameLine l l') :
    readExponent l' = readExponent l ∧ l'.take (readExponent l) = l.take (readExponent l) := by
  have hmark : (byteAt l' 0 = byte 'e' ∨ byteAt l' 0 = byte 'E') ↔
      (byteAt l 0 = byte 'e' ∨ byteAt l 0 = byte 'E') :=
    or_congr (h.byteAt_iff (by decide)) (h.byteAt_iff (by decide))
  by_cases he : byteAt l 0 = byte 'e' ∨ byteAt l 0 = byte 'E'
  · obtain ⟨c, t, t', rfl, rfl, ht⟩ := h.exists_cons
      (by rcases he with he | he <;> rw [he] <;> decide)
    have hsign : (byteAt t' 0 = byte '+' ∨ byteAt t' 0 = byte '-') ↔
        (byteAt t 0 = byte '+' ∨ byteAt t 0 = byte '-') :=
      or_congr (ht.byteAt_iff (by decide)) (ht.byteAt_iff (by decide))
    have hdig := ht.test isdigit (by decide) (by decide)
    by_cases hs : byteAt t 0 = byte '+' ∨ byteAt t 0 = byte '-'
    · obtain ⟨d, u, u', rfl, rfl, hu⟩ := ht.exists_cons
        (by rcases hs with hs | hs <;> rw [hs] <;> decide)
      have hdig := hu.test isdigit (by decide) (by decide)
      obtain ⟨hrun, htake, -⟩ := hu.digitRun
      simp only [readExponent, byteAt_zero, byteAt_succ, drop_succ_cons,
        drop_zero, hdig, hrun] at he hs ⊢
      rw [if_pos he, if_pos hs]
      split_ifs
      · refine ⟨rfl, ?_⟩
        simp only [Nat.add_comm 2, take_succ_cons, htake]
      · exact ⟨rfl, rfl⟩
    · obtain ⟨hrun, htake, -⟩ := ht.digitRun
      simp only [readExponent, byteAt_zero, byteAt_succ, drop_succ_cons,
        drop_zero, hdig, hrun] at he hs hsign ⊢
      rw [if_pos he, if_neg hs, if_neg (mt hsign.mp hs)]
      split_ifs
      · refine ⟨rfl, ?_⟩
        simp only [Nat.add_comm 1, take_succ_cons, htake]
      · exact ⟨rfl, rfl⟩
  · rw [readExponent, readExponent, if_neg he, if_neg (mt hmark.mp he)]
    exact ⟨rfl, rfl⟩

/-- The mantissa is the same, unless its decimal point stands at an end of line that is taken for
a reason to have one in one of the texts only. -/
theorem readMantissa_sameLine (h : SameLine l l')
    (hpt : byteAt l (digitRun l) = byte '.' → takesDecimalPoint (byteAt l' (digitRun l + 1)) =
      takesDecimalPoint (byteAt l (digitRun l + 1))) :
    readMantissa l' = readMantissa l ∧ l'.take (readMantissa l).1 = l.take (readMantissa l).1 ∧
      SameLine (l.drop (readMantissa l).1) (l'.drop (readMantissa l).1) := by
  obtain ⟨hrun, htake, hdrop⟩ := h.digitRun
  have hdot : byteAt l' (digitRun l) = byte '.' ↔ byteAt l (digitRun l) = byte '.' := by
    have h := hdrop.byteAt_iff (c := byte '.') (by decide)
    rwa [byteAt_drop, byteAt_drop] at h
  by_cases hd : byteAt l (digitRun l) = byte '.'
  · obtain ⟨t, t', ht, ht', hsame⟩ := hdrop.of_byteAt (c := byte '.')
      (by rw [byteAt_drop, Nat.add_zero, hd]) (by decide)
    have hnext : l.drop (digitRun l + 1) = t ∧ l'.drop (digitRun l + 1) = t' := by
      rw [← drop_drop, ← drop_drop, ht, ht']
      exact ⟨rfl, rfl⟩
    obtain ⟨hrunt, htaket, hdropt⟩ := hsame.digitRun
    have hunfold : ∀ b, takesDecimalPoint (byteAt l (digitRun l + 1)) = b →
        readMantissa l = (if b then digitRun l + 1 + digitRun t else digitRun l, b) ∧
        readMantissa l' = (if b then digitRun l + 1 + digitRun t else digitRun l, b) := by
      intro b hb
      rw [readMantissa, readMantissa, hrun]
      simp only [hnext.1, hnext.2, hrunt, hd, hdot.mpr hd, hpt hd, hb, true_and]
      cases b <;> simp
    cases hb : takesDecimalPoint (byteAt l (digitRun l + 1)) with
    | false =>
      obtain ⟨hl, hl'⟩ := hunfold _ hb
      rw [hl, hl']
      exact ⟨rfl, htake, hdrop⟩
    | true =>
      obtain ⟨hl, hl'⟩ := hunfold _ hb
      rw [hl, hl']
      simp only [if_true, ← drop_drop (i := digitRun t)]
      rw [hnext.1, hnext.2]
      refine ⟨trivial, SameLine.take_add (SameLine.take_add htake ?_) ?_, hdropt⟩
      · rw [ht, ht']
        rfl
      · rw [hnext.1, hnext.2, htaket]
  · have hl : ∀ l₀ : Text, digitRun l₀ = digitRun l → ¬ byteAt l₀ (digitRun l) = byte '.' →
        readMantissa l₀ = (digitRun l, false) := by
      intro l₀ hrun₀ hd₀
      rw [readMantissa, hrun₀, if_neg fun h => hd₀ h.1]
    rw [hl l rfl hd, hl l' hrun (mt hdot.mp hd)]
    exact ⟨rfl, htake, hdrop⟩

variable {a b : UInt8}

theorem readPrefixedDigits_sameLine (h : SameLine l l') (base : ℕ) (message : String)
    (hbase : base = 16 ∨ base = 8 ∨ base = 2) :
    readPrefixedDigits (a :: b :: l') base message = readPrefixedDigits (a :: b :: l) base message := by
  obtain ⟨htake, -⟩ := h.takeWhile (isPrefixedDigit base)
    (by rcases hbase with rfl | rfl | rfl <;> decide)
    (by rcases hbase with rfl | rfl | rfl <;> decide)
  have hdig : ∀ l₀ : Text,
      l₀.take (l₀.takeWhile (isPrefixedDigit base)).length = l₀.takeWhile (isPrefixedDigit base) :=
    fun l₀ => (prefix_iff_eq_take.mp (List.takeWhile_prefix _)).symm
  have htake' := hdig l'
  rw [htake] at htake'
  simp only [readPrefixedDigits, drop_succ_cons, drop_zero, htake, Nat.add_comm 2,
    take_succ_cons, htake', hdig l]

theorem number_sameLine (h : SameLine l l')
    (hpt : byteAt (c :: l) (digitRun (c :: l)) = byte '.' →
      takesDecimalPoint (byteAt (c :: l') (digitRun (c :: l) + 1)) =
        takesDecimalPoint (byteAt (c :: l) (digitRun (c :: l) + 1))) :
    readNumber (c :: l') = readNumber (c :: l) := by
  -- a base marker is no end of line, so both texts have it
  have hmark : ∀ x X : UInt8, (x ≠ 0 ∧ isLineEnd x = false) → (X ≠ 0 ∧ isLineEnd X = false) →
      ((byteAt l 0 = x ∨ byteAt l 0 = X) ↔ (byteAt l' 0 = x ∨ byteAt l' 0 = X)) :=
    fun x X hx hX => or_congr (h.byteAt_iff hx).symm (h.byteAt_iff hX).symm
  have hpre : ∀ (x X : UInt8) (base : ℕ) (message : String), (x ≠ 0 ∧ isLineEnd x = false) →
      (X ≠ 0 ∧ isLineEnd X = false) → (base = 16 ∨ base = 8 ∨ base = 2) →
      (byteAt l 0 = x ∨ byteAt l 0 = X) →
        readPrefixedDigits (c :: l') base message = readPrefixedDigits (c :: l) base message := by
    intro x X base message hx hX hbase hl
    rcases hl with hl | hl
    · obtain ⟨t, t', rfl, rfl, ht⟩ := h.of_byteAt hl hx
      exact readPrefixedDigits_sameLine ht base message hbase
    · obtain ⟨t, t', rfl, rfl, ht⟩ := h.of_byteAt hl hX
      exact readPrefixedDigits_sameLine ht base message hbase
  obtain ⟨hmant, htake, hdrop⟩ := readMantissa_sameLine (h.cons c) hpt
  obtain ⟨hexpo, htakee⟩ := readExponent_sameLine hdrop
  have hx := hmark (byte 'x') (byte 'X') (by decide) (by decide)
  have ho := hmark (byte 'o') (byte 'O') (by decide) (by decide)
  have hb := hmark (byte 'b') (byte 'B') (by decide) (by decide)
  have htext := SameLine.take_add htake htakee
  unfold readNumber
  simp only [byteAt_zero, byteAt_succ, ← hx, ← ho, ← hb, hmant, hexpo, htext]
  split_ifs with h16 h8 h2
  · exact hpre _ _ 16 _ (by decide) (by decide) (by decide) h16.2
  · exact hpre _ _ 8 _ (by decide) (by decide) (by decide) h8.2
  · exact hpre _ _ 2 _ (by decide) (by decide) (by decide) h2.2
  all_goals rfl

/-! ### Characters, words and operators -/

theorem byteAt_take {n k : ℕ} (h : k < n) : byteAt (l.take n) k = byteAt l k := by
  simp [byteAt, h]

theorem utf8Decode_of_take (hlong : 2 ≤ (grayUtf8Decode l).2)
    (htake : l'.take (grayUtf8Decode l).2 = l.take (grayUtf8Decode l).2) :
    grayUtf8Decode l' = grayUtf8Decode l := by
  have hspec := utf8Decode_spec l
  generalize hn : (grayUtf8Decode l).2 = n at hlong htake hspec
  have hzero : byteAt l' 0 = byteAt l 0 := by
    rw [← byteAt_take (l := l') (n := n) (by omega), htake, byteAt_take (by omega)]
  have hone : byteAt l' 1 = byteAt l 1 := by
    rw [← byteAt_take (l := l') (n := n) (by omega), htake, byteAt_take (by omega)]
  have hlen : n ≤ l.length ∧ n ≤ l'.length := by
    have := congrArg List.length htake
    rw [length_take, length_take] at this
    omega
  have hdrop : (l'.drop 2).take (n - 2) = (l.drop 2).take (n - 2) := by
    rw [← drop_take, ← drop_take, htake]
  unfold grayUtf8Decode at hn ⊢
  rw [hzero, hone]
  split_ifs at hn ⊢ with hascii
  · rfl
  · split
    · rfl
    · next bytes codepoint secondMin secondMax hlead =>
      simp only [hlead] at hn
      split_ifs at hn with hsho hsnd
      · omega
      · omega
      · have hbyt : bytes = n := by
          split at hn
          · omega
          · exact hn
        subst hbyt
        rw [if_neg (by omega), if_neg hsho, if_neg hsnd, if_neg hsnd, hdrop]

theorem utf8Decode_of_one (h : (grayUtf8Decode l).2 = 1) : grayUtf8Decode l =
      (if byteAt l 0 < 0x80 then (byteAt l 0).toNat else replacementCodepoint, 1) := by
  unfold grayUtf8Decode at h ⊢
  split_ifs at h ⊢ with hascii
  · rfl
  · split
    · rfl
    · next bytes codepoint secondMin secondMax hlead =>
      have hbyt := (utf8Lead_spec hlead).1
      simp only [hlead] at h
      split_ifs at h ⊢
      · rfl
      · rfl
      · split at h
        · rfl
        · dsimp only at h
          omega

theorem SameLine.take (h : SameLine l l') {n : ℕ} (hn : n ≤ l.length)
    (hline : ∀ c ∈ l.take n, isLineEnd c = false) :
    l'.take n = l.take n ∧ SameLine (l.drop n) (l'.drop n) := by
  induction n generalizing l l' with
  | zero => exact ⟨rfl, h⟩
  | succ n ih =>
    cases l with
    | nil => simp at hn
    | cons c l =>
      simp only [take_succ_cons, mem_cons, forall_eq_or_imp] at hline
      obtain ⟨t, rfl, ht⟩ := h.uncons hline.1
      obtain ⟨htake, hdrop⟩ := ih ht (Nat.le_of_succ_le_succ hn) hline.2
      exact ⟨by rw [take_succ_cons, take_succ_cons, htake], hdrop⟩

theorem utf8Decode_sameLine (h : SameLine l l') :
    grayUtf8Decode (c :: l') = grayUtf8Decode (c :: l) ∧
      (c :: l').take (grayUtf8Decode (c :: l)).2 = (c :: l).take (grayUtf8Decode (c :: l)).2 := by
  have hlong : ∀ {l₁ l₂ : Text}, SameLine l₁ l₂ → 2 ≤ (grayUtf8Decode l₁).2 →
      grayUtf8Decode l₂ = grayUtf8Decode l₁ ∧
        l₂.take (grayUtf8Decode l₁).2 = l₁.take (grayUtf8Decode l₁).2 := by
    intro l₁ l₂ h hlong
    rcases utf8Decode_spec l₁ with hone | ⟨-, hlen, hhigh⟩
    · omega
    · have htake := (h.take hlen fun d hd => by
        have hd := hhigh d hd
        simp only [isLineEnd, Bool.or_eq_false_iff, beq_eq_false_iff_ne]
        constructor <;> rintro rfl <;> exact absurd hd (by decide)).1
      exact ⟨utf8Decode_of_take hlong htake, htake⟩
  have hpos := utf8Decode_pos (c :: l)
  have hpos' := utf8Decode_pos (c :: l')
  rcases Nat.lt_or_ge 1 (grayUtf8Decode (c :: l)).2 with hl | hl
  · exact hlong (h.cons c) hl
  · rcases Nat.lt_or_ge 1 (grayUtf8Decode (c :: l')).2 with hl' | hl'
    · have := (hlong (h.cons c).symm hl').1
      rw [this] at hl
      omega
    · have hone : (grayUtf8Decode (c :: l)).2 = 1 := by omega
      rw [utf8Decode_of_one hone, utf8Decode_of_one (l := c :: l') (by omega)]
      exact ⟨rfl, rfl⟩

/-- The bytes that open a string, a raw string or a character literal. -/
def isQuote (c : UInt8) : Bool := c == byte '"' || c == byte '\x60' || c == byte '\''

theorem find?_congr {α : Type*} {p q : α → Bool} {l : List α} (h : ∀ a ∈ l, p a = q a) :
    l.find? p = l.find? q := by
  induction l with
  | nil => rfl
  | cons a l ih =>
    rw [find?_cons, find?_cons, h a (mem_cons_self ..), ih fun b hb => h b (mem_cons_of_mem a hb)]

theorem scanHash_sameLine (h : SameLine l l') : scanHash l' = scanHash l := by
  have hall : ∀ entry ∈ attributeKeywords, entry.1.any isLineEnd = false := by decide
  have hkeywords : (attributeKeywords.find? fun entry => entry.1.isPrefixOf l') =
      attributeKeywords.find? fun entry => entry.1.isPrefixOf l :=
    find?_congr fun entry hent => h.isPrefixOf (hall entry hent)
  have hopen : (bytes "#[").any isLineEnd = false := by decide
  unfold scanHash
  rw [h.isPrefixOf hopen, hkeywords]

theorem scanWord_sameLine (h : SameLine l l') : scanWord l' = scanWord l := by
  have htake := (h.takeWhile isIdentifierByte (by decide) (by decide)).1
  unfold scanWord scanIdentifierSpan
  rw [htake]

theorem scanBang_sameLine (h : SameLine l l') : scanBang (c :: l') = scanBang (c :: l) := by
  have hnotIn : (byteAt l' 0 = byte 'i' ∧ byteAt l' 1 = byte 'n' ∧
        (!(isalnum (byteAt l' 2) || byteAt l' 2 == byte '_')) = true) ↔
      (byteAt l 0 = byte 'i' ∧ byteAt l 1 = byte 'n' ∧
        (!(isalnum (byteAt l 2) || byteAt l 2 == byte '_')) = true) := by
    have key : ∀ {l₁ l₂ : Text}, SameLine l₁ l₂ → (byteAt l₁ 0 = byte 'i' ∧ byteAt l₁ 1 = byte 'n' ∧
        (!(isalnum (byteAt l₁ 2) || byteAt l₁ 2 == byte '_')) = true) →
        (byteAt l₂ 0 = byte 'i' ∧ byteAt l₂ 1 = byte 'n' ∧
          (!(isalnum (byteAt l₂ 2) || byteAt l₂ 2 == byte '_')) = true) := by
      rintro l₁ l₂ h ⟨hi, hn, hnext⟩
      obtain ⟨t, t', rfl, rfl, ht⟩ := h.of_byteAt hi (by decide)
      rw [byteAt_succ] at hn
      obtain ⟨u, u', rfl, rfl, hu⟩ := ht.of_byteAt hn (by decide)
      have htest := hu.test (fun c => !(isalnum c || c == byte '_')) (by decide) (by decide)
      simp only [byteAt_succ, byteAt_zero] at hnext ⊢
      exact ⟨trivial, trivial, htest.trans hnext⟩
    exact ⟨key h.symm, key h⟩
  unfold scanBang
  simp only [byteAt_succ, h.byteAt_iff (c := byte '=') (by decide), hnotIn]

theorem scanUnexpected_sameLine (h : SameLine l l') :
    scanUnexpected (c :: l') = scanUnexpected (c :: l) := by
  obtain ⟨hdec, htake⟩ := utf8Decode_sameLine (c := c) h
  unfold scanUnexpected
  simp only [hdec, htake, byteAt_zero]

theorem paired_sameLine {second : UInt8} (h : SameLine l l')
    (hsnd : second ≠ 0 ∧ isLineEnd second = false) (pairedType singleType : TokenType)
    (pairedText singleText : String) :
    makePairedToken (c :: l') second pairedType pairedText singleType singleText =
      makePairedToken (c :: l) second pairedType pairedText singleType singleText := by
  unfold makePairedToken
  simp only [byteAt_succ, h.byteAt_iff hsnd]

theorem token_sameLine (h : SameLine l l') (hq : isQuote c = false)
    (hpt : isdigit c → byteAt (c :: l) (digitRun (c :: l)) = byte '.' →
      takesDecimalPoint (byteAt (c :: l') (digitRun (c :: l) + 1)) =
        takesDecimalPoint (byteAt (c :: l) (digitRun (c :: l) + 1))) :
    scanToken (c :: l') = scanToken (c :: l) := by
  have paired := fun (second : UInt8) (hsnd : second ≠ 0 ∧ isLineEnd second = false) =>
    paired_sameLine (c := c) h hsnd
  have heq := paired (byte '=') (by decide)
  have hif : ∀ d : UInt8, (d ≠ 0 ∧ isLineEnd d = false) → ∀ a b : TokenScan,
      (if byteAt l' 0 = d then a else b) = if byteAt l 0 = d then a else b :=
    fun d hd a b => if_congr (h.byteAt_iff hd) rfl rfl
  simp only [isQuote, Bool.or_eq_false_iff, beq_eq_false_iff_ne] at hq
  obtain ⟨⟨hstr, hraw⟩, hchar⟩ := hq
  unfold scanToken
  simp only [cons_ne_nil, if_false, byteAt_zero, byteAt_succ, heq,
    paired (byte '+') (by decide), paired (byte '-') (by decide), paired (byte '&') (by decide),
    hif (byte '=') (by decide), hif (byte '>') (by decide), hif (byte '|') (by decide),
    scanBang_sameLine h, scanHash_sameLine (h.cons c), scanWord_sameLine (h.cons c),
    scanUnexpected_sameLine h, hstr, hraw, hchar]
  by_cases hdig : isdigit c
  · rw [number_sameLine h (hpt hdig)]
    rfl
  · simp only [hdig]
    rfl

/-! ### The length of a token -/

theorem lt_length_of_byteAt {k : ℕ} (h : byteAt l k = c) (hc : c ≠ 0) : k < l.length := by
  by_contra hle
  rw [byteAt, getD_eq_getElem?_getD, getElem?_eq_none (by omega)] at h
  exact hc h.symm

theorem byteAt_append_left (r : Text) {k : ℕ} (h : k < l.length) :
    byteAt (l ++ r) k = byteAt l k := by
  simp [byteAt, getElem?_append_left h]

theorem byteAt_append_right (l r : Text) (k : ℕ) : byteAt (l ++ r) (l.length + k) = byteAt r k := by
  simp [byteAt, getElem?_append_right]

theorem digitRun_le (l : Text) : digitRun l ≤ l.length :=
  (List.takeWhile_prefix isDigitOrSeparator).length_le

theorem readExponent_le (l : Text) : readExponent l ≤ l.length := by
  unfold readExponent
  split_ifs with hmark hsign hdig hdig
  · have := digitRun_le (l.drop 2)
    have := lt_length_of_byteAt (k := 1) (l := l) rfl (by rcases hsign with h | h <;> rw [h] <;> decide)
    rw [length_drop] at *
    omega
  · exact Nat.zero_le _
  · have := digitRun_le (l.drop 1)
    have := lt_length_of_byteAt (k := 0) (l := l) rfl (by rcases hmark with h | h <;> rw [h] <;> decide)
    rw [length_drop] at *
    omega
  · exact Nat.zero_le _
  · exact Nat.zero_le _

theorem readMantissa_le (l : Text) : (readMantissa l).1 ≤ l.length := by
  unfold readMantissa
  dsimp only
  split_ifs with h
  · have := digitRun_le (l.drop (digitRun l + 1))
    have := lt_length_of_byteAt h.1 (by decide)
    rw [length_drop] at *
    omega
  · exact digitRun_le l

theorem TokenScan.ofError_length {type : TokenType} {literal : Text} {length : ℕ}
    (error : Option LexError) : (TokenScan.ofError type literal length error).length = length := by
  cases error <;> rfl

theorem number_length_le (l : Text) : (readNumber l).length ≤ l.length := by
  have hpre : ∀ (base : ℕ) (message : String), byteAt l 1 ≠ 0 →
      (readPrefixedDigits l base message).length ≤ l.length := by
    intro base message h
    have := lt_length_of_byteAt (k := 1) (l := l) rfl h
    have := (List.takeWhile_prefix (l := l.drop 2) (isPrefixedDigit base)).length_le
    rw [readPrefixedDigits, TokenScan.ofError_length]
    rw [length_drop] at this
    omega
  have hnz : ∀ {x X : UInt8}, x ≠ 0 → X ≠ 0 → (byteAt l 1 = x ∨ byteAt l 1 = X) →
      byteAt l 1 ≠ 0 := by
    rintro x X hx hX (h | h) <;> rw [h] <;> assumption
  unfold readNumber
  refine iteInduction (motive := fun scan : TokenScan => scan.length ≤ l.length)
    (fun h => hpre _ _ (hnz (by decide) (by decide) h.2)) fun _ => ?_
  refine iteInduction (motive := fun scan : TokenScan => scan.length ≤ l.length)
    (fun h => hpre _ _ (hnz (by decide) (by decide) h.2)) fun _ => ?_
  refine iteInduction (motive := fun scan : TokenScan => scan.length ≤ l.length)
    (fun h => hpre _ _ (hnz (by decide) (by decide) h.2)) fun _ => ?_
  have hmant := readMantissa_le l
  have hexpo := readExponent_le (l.drop (readMantissa l).1)
  rw [length_drop] at hexpo
  dsimp only
  rw [TokenScan.ofError_length]
  omega

theorem scanHash_length_le (hl : l ≠ []) : (scanHash l).length ≤ l.length := by
  have hpos := length_pos_iff.mpr hl
  unfold scanHash
  split_ifs with h
  · exact (List.isPrefixOf_iff_prefix.mp h).length_le
  · split
    · next hfind =>
      have hpre := find?_some hfind
      exact (List.isPrefixOf_iff_prefix.mp hpre).length_le
    · exact hpos

theorem scanBang_length_le (hl : l ≠ []) : (scanBang l).length ≤ l.length := by
  have hpos := length_pos_iff.mpr hl
  unfold scanBang
  split_ifs with heq hin
  · exact lt_length_of_byteAt heq (by decide)
  · exact lt_length_of_byteAt hin.2.1 (by decide)
  · exact hpos

theorem scanWord_length_le (l : Text) : (scanWord l).length ≤ l.length := by
  have hspan : (scanIdentifierSpan l).1.length ≤ l.length :=
    (List.takeWhile_prefix isIdentifierByte).length_le
  unfold scanWord
  split
  · next heq =>
    rw [heq] at hspan
    exact hspan
  · next heq =>
    rw [heq] at hspan
    split <;> exact hspan

theorem scanUnexpected_length_le (hl : l ≠ []) : (scanUnexpected l).length ≤ l.length := by
  unfold scanUnexpected
  dsimp only
  split_ifs
  · exact length_pos_iff.mpr hl
  · exact utf8Decode_le hl

theorem paired_length_le (hl : l ≠ []) {second : UInt8} (hsnd : second ≠ 0)
    (pairedType singleType : TokenType) (pairedText singleText : String) :
    (makePairedToken l second pairedType pairedText singleType singleText).length ≤ l.length := by
  unfold makePairedToken
  split_ifs with h
  · exact lt_length_of_byteAt h hsnd
  · exact length_pos_iff.mpr hl

theorem token_length_le (hl : l ≠ []) (hq : isQuote (byteAt l 0) = false) :
    (scanToken l).length ≤ l.length := by
  have one : 1 ≤ l.length := length_pos_iff.mpr hl
  have two : ∀ {c : UInt8}, byteAt l 1 = c → c ≠ 0 → 2 ≤ l.length :=
    fun h hc => lt_length_of_byteAt h hc
  have paired := fun {second : UInt8} (hsnd : second ≠ 0) => paired_length_le hl hsnd
  simp only [isQuote, Bool.or_eq_false_iff, beq_eq_false_iff_ne] at hq
  obtain ⟨⟨hstr, hraw⟩, hchar⟩ := hq
  unfold scanToken
  simp only [if_neg hl, if_neg hstr, if_neg hraw, if_neg hchar]
  have step {p : Prop} [Decidable p] {a b : TokenScan} (ha : p → a.length ≤ l.length)
      (hb : ¬ p → b.length ≤ l.length) : (if p then a else b).length ≤ l.length :=
    iteInduction (motive := fun scan : TokenScan => scan.length ≤ l.length) ha hb
  refine step (fun _ => one) fun _ => ?_
  refine step (fun _ => paired (by decide) _ _ _ _) fun _ => ?_
  refine step (fun _ => step (fun h => two h (by decide)) fun _ => paired (by decide) _ _ _ _)
    fun _ => ?_
  refine step (fun _ => step (fun h => two h (by decide)) fun _ => step
    (fun h => two h (by decide)) fun _ => paired (by decide) _ _ _ _) fun _ => ?_
  refine step (fun _ => scanBang_length_le hl) fun _ => ?_
  iterate 6 refine step (fun _ => paired (by decide) _ _ _ _) fun _ => ?_
  refine step (fun _ => one) fun _ => ?_
  refine step (fun _ => step (fun h => two h (by decide)) fun _ => one) fun _ => ?_
  refine step (fun _ => scanHash_length_le hl) fun _ => ?_
  split
  · exact one
  · exact step (fun _ => scanWord_length_le l) fun _ => step (fun _ => number_length_le l)
      fun _ => scanUnexpected_length_le hl

def EndsWithLineFeed (l : Text) : Prop := l = [] ∨ byteAt l 0 = byte '\n'

theorem sameLine_append (u : Text) {e e' : Text} (he : EndsWithLineFeed e)
    (he' : EndsWithLineFeed e') : SameLine (u ++ e) (u ++ e') := by
  induction u with
  | nil => exact .ends (he.imp_right .inl) (he'.imp_right .inl)
  | cons c u ih => exact .cons c ih

/-- A token other than a quoted literal lies within its line, and does not depend on the lines
after it. -/
theorem token_append (u : Text) {e e' : Text} (hq : isQuote c = false)
    (he : EndsWithLineFeed e) (he' : EndsWithLineFeed e') :
    scanToken (c :: u ++ e') = scanToken (c :: u ++ e) ∧
      (scanToken (c :: u ++ e)).length ≤ (c :: u).length := by
  have hequal : ∀ {e e' : Text}, EndsWithLineFeed e → EndsWithLineFeed e' →
      scanToken (c :: u ++ e') = scanToken (c :: u ++ e) := by
    intro e e' he he'
    refine token_sameLine (sameLine_append u he he') hq fun _ hpt => ?_
    have hend : ∀ {e : Text}, EndsWithLineFeed e → takesDecimalPoint (byteAt e 0) = true := by
      rintro e (rfl | h)
      · rfl
      · rw [h]
        decide
    -- the decimal point stands in the line, so the byte after it does too, or ends the line
    have hrun : digitRun (c :: u ++ e) = digitRun (c :: u) := by
      have h := (sameLine_append (c :: u) (.inl rfl) he).digitRun.1
      rwa [append_nil] at h
    have hle := digitRun_le (c :: u)
    change byteAt (c :: u ++ e) (digitRun (c :: u ++ e)) = byte '.' at hpt
    change takesDecimalPoint (byteAt (c :: u ++ e') (digitRun (c :: u ++ e) + 1)) =
      takesDecimalPoint (byteAt (c :: u ++ e) (digitRun (c :: u ++ e) + 1))
    rw [hrun] at hpt ⊢
    rcases Nat.lt_or_ge (digitRun (c :: u) + 1) (c :: u).length with hlt | hge
    · rw [byteAt_append_left _ hlt, byteAt_append_left _ hlt]
    · rcases Nat.eq_or_lt_of_le hle with heq | hlt
      · rw [heq, ← Nat.add_zero (c :: u).length, byteAt_append_right] at hpt
        have := hend he
        rcases he with rfl | he
        · exact absurd hpt (by decide)
        · rw [he] at hpt
          exact absurd hpt (by decide)
      · have hlast : digitRun (c :: u) + 1 = (c :: u).length + 0 := by omega
        rw [hlast, byteAt_append_right, byteAt_append_right, hend he, hend he']
  refine ⟨hequal he he', ?_⟩
  rw [← hequal he (.inl rfl), append_nil]
  exact token_length_le (cons_ne_nil _ _) hq

theorem exists_line (l : Text) : ∃ u e, l = u ++ e ∧ byte '\n' ∉ u ∧ EndsWithLineFeed e := by
  refine ⟨l.takeWhile (· != byte '\n'), l.dropWhile (· != byte '\n'),
    takeWhile_append_dropWhile.symm, fun h => ?_, ?_⟩
  · exact absurd (mem_takeWhile_imp h) (by decide)
  · cases hdrop : l.dropWhile (· != byte '\n') with
    | nil => exact .inl rfl
    | cons c r =>
      have hhead := head_dropWhile_not (· != byte '\n') (l := l)
        (by rw [hdrop]; exact cons_ne_nil _ _)
      simp only [hdrop, head_cons, bne_eq_false_iff_eq] at hhead
      exact .inr hhead

theorem lineFeed_notMem_token (hq : isQuote c = false) (hc : c ≠ byte '\n') :
    byte '\n' ∉ (c :: l).take (scanToken (c :: l)).length := by
  obtain ⟨u, e, rfl, hu, he⟩ := exists_line l
  have hlen := (token_append u hq he he).2
  intro h
  change byte '\n' ∈ (c :: u ++ e).take (scanToken (c :: u ++ e)).length at h
  rw [take_append_of_le_length hlen] at h
  rcases mem_cons.mp (mem_of_mem_take h) with h | h
  · exact hc h.symm
  · exact hu h

theorem token_nul (l : Text) :
    scanToken (0 :: l) = .illegal (lexError "E1026" "NUL byte in source file") 1 := rfl

theorem token_string (l : Text) : scanToken (byte '"' :: l) = readString (byte '"' :: l) := rfl

theorem token_rawString (l : Text) :
    scanToken (byte '\x60' :: l) = readRawString (byte '\x60' :: l) := rfl

theorem token_char (l : Text) : scanToken (byte '\'' :: l) = readCharLiteral (byte '\'' :: l) := rfl

theorem eq_of_isQuote (h : isQuote c) : c = byte '"' ∨ c = byte '\x60' ∨ c = byte '\'' := by
  simpa [isQuote, or_assoc] using h

/-! ### Escapes -/

theorem isLineEnd_of_isxdigit (h : isxdigit c) : c ≠ 0 ∧ isLineEnd c = false := by
  constructor
  · rintro rfl
    exact absurd h (by decide)
  · simp only [isLineEnd, Bool.or_eq_false_iff, beq_eq_false_iff_ne]
    constructor <;> rintro rfl <;> exact absurd h (by decide)

variable (s : StringState)

theorem unicodeRound_of_ne (h : byteAt l 0 ≠ byte '\x7b') :
    unicodeEscapeRound s (a :: b :: l) = s.bytesRound
      (s.escapeError "malformed '\\u' escape in string; expected '\\u\x7b...\x7d'") [a, b] := by
  unfold unicodeEscapeRound
  rw [byteAt_succ, byteAt_succ, if_pos h]
  rfl

theorem unicodeRound_brace {digits r : Text}
    (hdig : (digits ++ r).takeWhile isxdigit = digits) :
    unicodeEscapeRound s (a :: b :: byte '\x7b' :: (digits ++ r)) =
      if byteAt r 0 ≠ byte '\x7d' ∨ digits.length < 1 ∨ digits.length > 6 then
        s.bytesRound (s.escapeError
          "malformed '\\u\x7b\x7d' escape in string; expected 1 to 6 hex digits")
          (a :: b :: byte '\x7b' :: digits)
      else
        let source := a :: b :: byte '\x7b' :: (digits ++ [byte '\x7d'])
        if hexValue digits > 0x10FFFF then
          s.bytesRound (s.escapeError
            "'\\u\x7b\x7d' codepoint is outside the valid range U+0000 to U+10FFFF") source
        else if 0xD800 ≤ hexValue digits ∧ hexValue digits ≤ 0xDFFF then
          s.bytesRound (s.escapeError
            "'\\u\x7b\x7d' codepoint is a UTF-16 surrogate, which has no UTF-8 encoding") source
        else ⟨[.unicodeEscape source (hexValue digits)], s, source.length - 1⟩ := by
  have hbyte : byteAt (a :: b :: byte '\x7b' :: (digits ++ r)) (3 + digits.length) = byteAt r 0 := by
    rw [Nat.add_comm 3, byteAt_succ, byteAt_succ, byteAt_succ]
    exact byteAt_append_right digits r 0
  have htake3 : (a :: b :: byte '\x7b' :: (digits ++ r)).take (3 + digits.length) =
      a :: b :: byte '\x7b' :: digits := by
    rw [Nat.add_comm 3, take_succ_cons, take_succ_cons, take_succ_cons, take_left]
  have htake4 : byteAt r 0 = byte '\x7d' →
      (a :: b :: byte '\x7b' :: (digits ++ r)).take (4 + digits.length) =
        a :: b :: byte '\x7b' :: (digits ++ [byte '\x7d']) := by
    intro h
    obtain ⟨t, rfl⟩ := cons_of_byteAt h (by decide)
    rw [show 4 + digits.length = (digits.length + 1) + 1 + 1 + 1 by omega,
      take_succ_cons, take_succ_cons, take_succ_cons, take_length_add_append]
    rfl
  unfold unicodeEscapeRound
  simp only [drop_succ_cons, drop_zero, hdig, hbyte, htake3]
  rw [if_neg (show ¬ byteAt (a :: b :: byte '\x7b' :: (digits ++ r)) 2 ≠ byte '\x7b' from
    not_not_intro rfl)]
  by_cases h : byteAt r 0 ≠ byte '\x7d' ∨ digits.length < 1 ∨ digits.length > 6
  · rw [if_pos h, if_pos h]
  · rw [if_neg h, if_neg h, htake4 (by_contra fun hne => h (.inl hne))]

theorem unicodeRound_sameLine (h : SameLine l l') :
    unicodeEscapeRound s (a :: b :: l') = unicodeEscapeRound s (a :: b :: l) := by
  by_cases hbr : byteAt l 0 = byte '\x7b'
  · obtain ⟨t, t', rfl, rfl, ht⟩ := h.of_byteAt hbr (by decide)
    obtain ⟨htake, hdrop⟩ := ht.takeWhile isxdigit (by decide) (by decide)
    have hl := takeWhile_append_dropWhile (p := isxdigit) (l := t)
    have hl' := takeWhile_append_dropWhile (p := isxdigit) (l := t')
    rw [htake] at hl'
    have hcl := hdrop.byteAt_iff (c := byte '\x7d') (by decide)
    rw [← hl, ← hl', unicodeRound_brace s (by rw [hl', htake]), unicodeRound_brace s (by rw [hl])]
    exact if_congr (or_congr (not_congr hcl) Iff.rfl) rfl rfl
  · rw [unicodeRound_of_ne s hbr, unicodeRound_of_ne s (mt (h.byteAt_iff (by decide)).mp hbr)]

theorem escapeRound_sameLine (h : SameLine l l') :
    escapeRound s (a :: b :: l') = escapeRound s (a :: b :: l) := by
  have hhex := h.test isxdigit (by decide) (by decide)
  unfold escapeRound
  simp only [byteAt_succ, byteAt_zero, unicodeRound_sameLine s h, hhex]
  by_cases hx : b = byte 'x'
  · by_cases hfst : isxdigit (byteAt l 0)
    · obtain ⟨c, t, t', rfl, rfl, ht⟩ := h.exists_cons (isLineEnd_of_isxdigit hfst)
      have hsnd := ht.test isxdigit (by decide) (by decide)
      simp only [byteAt_succ, byteAt_zero, hsnd] at hfst ⊢
      by_cases hhex : isxdigit (byteAt t 0)
      · obtain ⟨d, u, u', rfl, rfl, -⟩ := ht.exists_cons (isLineEnd_of_isxdigit hhex)
        rfl
      · simp only [hhex, Bool.not_false, if_true]
        rfl
    · simp only [hfst, Bool.not_false, if_true]
      rfl
  · simp only [hx, if_false]
    rfl

theorem charEscape_cons (a b : UInt8) (l : Text) : readCharEscape (a :: b :: l) =
    if b = byte 'x' then
      (2 + ((l.take 2).takeWhile isxdigit).length,
        if ((l.take 2).takeWhile isxdigit).length < 2 then some (lexError "E1006"
          "malformed '\\x' escape in character literal; expected exactly two hex digits") else none)
    else if b = byte 'u' then
      if byteAt l 0 ≠ byte '\x7b' then
        (2, some (lexError "E1006"
          "malformed '\\u' escape in character literal; expected '\\u\x7b...\x7d'"))
      else if byteAt (a :: b :: l) (3 + ((l.drop 1).takeWhile isxdigit).length) ≠ byte '\x7d' ∨
          ((l.drop 1).takeWhile isxdigit).length < 1 ∨
            ((l.drop 1).takeWhile isxdigit).length > 6 then
        (3 + ((l.drop 1).takeWhile isxdigit).length, some (lexError "E1006"
          "malformed '\\u\x7b\x7d' escape in character literal; expected 1 to 6 hex digits"))
      else (4 + ((l.drop 1).takeWhile isxdigit).length, none)
    else if b ≠ 0 ∧ !isCharEscape b then
      (2, some (lexError "E1007" "invalid escape sequence in character literal"))
    else (2, none) := rfl

theorem charEscape_sameLine (h : SameLine l l') :
    readCharEscape (a :: b :: l') = readCharEscape (a :: b :: l) := by
  have htake : (l'.take 2).takeWhile isxdigit = (l.take 2).takeWhile isxdigit := by
    rw [← take_takeWhile, (h.takeWhile isxdigit (by decide) (by decide)).1, take_takeWhile]
  rw [charEscape_cons, charEscape_cons, htake]
  refine if_congr Iff.rfl rfl (if_congr Iff.rfl ?_ rfl)
  by_cases hbr : byteAt l 0 = byte '\x7b'
  · obtain ⟨t, t', rfl, rfl, ht⟩ := h.of_byteAt hbr (by decide)
    obtain ⟨hdig, hdrop⟩ := ht.takeWhile isxdigit (by decide) (by decide)
    have hbyte : ∀ t₀ : Text, t₀.takeWhile isxdigit = t.takeWhile isxdigit →
        byteAt (a :: b :: byte '\x7b' :: t₀) (3 + (t.takeWhile isxdigit).length) =
          byteAt (t₀.dropWhile isxdigit) 0 := by
      intro t₀ ht₀
      rw [Nat.add_comm 3, byteAt_succ, byteAt_succ, byteAt_succ,
        ← Scan.drop_length_takeWhile, ht₀, byteAt_drop, Nat.add_zero]
    have hcl := hdrop.byteAt_iff (c := byte '\x7d') (by decide)
    rw [if_neg (show ¬ byteAt (byte '\x7b' :: t') 0 ≠ byte '\x7b' from not_not_intro rfl),
      if_neg (show ¬ byteAt (byte '\x7b' :: t) 0 ≠ byte '\x7b' from not_not_intro rfl)]
    simp only [drop_succ_cons, drop_zero, hdig, hbyte t rfl, hbyte t' hdig]
    exact if_congr (or_congr (not_congr hcl) Iff.rfl) rfl rfl
  · rw [if_pos hbr, if_pos (mt (h.byteAt_iff (by decide)).mp hbr)]

end Grayscale
