import Grayscale.Format.Indent

/-!
# Quoted literals under indentation

The literals that can span lines, on a text and on an indentation of it. A raw string and a string
literal take the same lines in both, and the blanks of the indentation become part of the literal.
Blanks change neither the UTF-8 check nor the nesting of an interpolation.
-/

namespace Grayscale

open List
open Option (some_ne_none)

/-- A text without blanks after its line feeds. -/
def Trimmed : Text → Prop
  | [] => True
  | c :: l => (c = byte '\n' → isBlank (byteAt l 0) = false) ∧ Trimmed l

variable {u e : Text}

theorem Trimmed.right (h : Trimmed (u ++ e)) : Trimmed e := by
  induction u with
  | nil => exact h
  | cons c u ih => exact ih h.2

theorem Trimmed.left (h : Trimmed (u ++ e)) : Trimmed u := by
  induction u with
  | nil => trivial
  | cons c u ih =>
    refine ⟨fun hc => ?_, ih h.2⟩
    cases u with
    | nil => rfl
    | cons d u => exact h.1 hc

theorem Trimmed.append_of_notMem (hu : byte '\n' ∉ u) (he : Trimmed e) : Trimmed (u ++ e) := by
  induction u with
  | nil => exact he
  | cons c u ih =>
    rw [mem_cons, not_or] at hu
    exact ⟨fun h => absurd h.symm hu.1, ih hu.2⟩

theorem Trimmed.indent_injective {bs bs' : List Text} (hbs : Blanks bs) (hbs' : Blanks bs')
    {l : Text} (hl : Trimmed l) (h : indent [] bs l = indent [] bs' l) (k : ℕ)
    (hk : k < l.count (byte '\n')) : bs.getD k [] = bs'.getD k [] := by
  induction l generalizing bs bs' k with
  | nil => exact absurd hk (Nat.not_lt_zero k)
  | cons c l ih =>
    by_cases hc : c = byte '\n'
    · subst hc
      rw [indent_lineFeed, indent_lineFeed] at h
      have happend := (List.cons.inj h).2
      -- the blanks are all that stands in front of the first byte that is none
      have hstop : ∀ bs : List Text, (indent [] bs l).takeWhile isBlank = [] := by
        intro bs
        cases l with
        | nil => rw [indent_nil]; rfl
        | cons d l =>
          obtain ⟨l', hl'⟩ := @indent_cons_eq [] bs d l
          rw [hl', takeWhile_cons_of_neg]
          rw [show isBlank d = false from hl.1 rfl]
          decide
      have hhead := congrArg (List.takeWhile isBlank) happend
      rw [takeWhile_append_of_pos hbs.headD, takeWhile_append_of_pos hbs'.headD,
        hstop, hstop, append_nil, append_nil] at hhead
      rw [hhead] at happend
      have htail := ih hbs.tail hbs'.tail hl.2 (append_cancel_left happend)
      rw [count_cons_self] at hk
      cases k with
      | zero => cases bs <;> cases bs' <;> exact hhead
      | succ k =>
        have hgetD : ∀ bs : List Text, bs.getD (k + 1) [] = bs.tail.getD k [] := by
          intro bs
          cases bs <;> rfl
        rw [hgetD, hgetD]
        exact htail k (by omega)
    · rw [indent_cons hc, indent_cons hc] at h
      rw [count_cons_of_ne hc] at hk
      exact ih hbs hbs' hl.2 (List.cons.inj h).2 k hk

section

variable {final : Text} {bs : List Text}

theorem drop_indent {l : Text} {n : ℕ} (hn : n ≤ l.length) (hline : byte '\n' ∉ l.take n) :
    (indent final bs l).drop n = indent final bs (l.drop n) ∧
      (indent final bs l).take n = l.take n := by
  have hlen : (l.take n).length = n := length_take_of_le hn
  have hspl := @indent_append_of_notMem final bs _ hline (l.drop n)
  rw [take_append_drop] at hspl
  rw [hspl]
  exact ⟨drop_left' hlen, take_left' hlen⟩

/-! ### UTF-8 -/

theorem utf8Step_ascii {c : UInt8} (hc : c < 0x80) (l : Text) :
    utf8Step () (c :: l) = some ⟨(), (), 0⟩ := by
  have hdec : grayUtf8Decode (c :: l) = (c.toNat, 1) := by
    rw [grayUtf8Decode, byteAt_zero, if_pos hc]
  have hne : c.toNat ≠ replacementCodepoint := by
    have := UInt8.toNat_lt c
    rw [replacementCodepoint]
    omega
  rw [utf8Step, hdec]
  exact if_neg fun h => hne h.1

theorem run_utf8Step_blanks {b : Text} (hb : ∀ c ∈ b, isBlank c) (l : Text) :
    (Scan.run utf8Step () (b ++ l)).rest = (Scan.run utf8Step () l).rest := by
  induction b with
  | nil => rfl
  | cons c b ih =>
    have hc : c < 0x80 := by
      have := hb c (mem_cons_self ..)
      simp only [isBlank, Bool.or_eq_true, beq_iff_eq] at this
      rcases this with rfl | rfl <;> decide
    rw [cons_append, Scan.run_cons utf8Step (utf8Step_ascii hc _), Scan.Result.cons_rest, drop_zero]
    exact ih fun d hd => hb d (mem_cons_of_mem c hd)

theorem run_utf8Step_indent (hbs : Blanks bs) (l : Text) :
    (Scan.run utf8Step () (indent [] bs l)).rest = [] ↔ (Scan.run utf8Step () l).rest = [] := by
  induction hn : l.length using Nat.strongRecOn generalizing l bs with
  | ind n ih =>
    subst hn
    cases l with
    | nil => rw [indent_nil]
    | cons c l =>
      by_cases hc : c = byte '\n'
      · subst hc
        rw [indent_lineFeed, Scan.run_cons utf8Step (utf8Step_ascii (by decide) _),
          Scan.run_cons utf8Step (utf8Step_ascii (by decide) _)]
        simp only [Scan.Result.cons_rest, drop_zero]
        rw [run_utf8Step_blanks hbs.headD]
        exact ih _ (by simp) hbs.tail l rfl
      · have hdec := (utf8Decode_sameLine (c := c)
          (@sameLine_indent [] bs (.inl rfl) l)).1
        have hle := utf8Decode_le (cons_ne_nil c l)
        have hpos := utf8Decode_pos (c :: l)
        have hline : byte '\n' ∉ l.take ((grayUtf8Decode (c :: l)).2 - 1) := by
          rcases utf8Decode_spec (c :: l) with hone | ⟨-, -, hhigh⟩
          · rw [hone]
            simp
          · intro h
            refine absurd (hhigh (byte '\n') ?_) (by decide)
            obtain ⟨m, hm⟩ : ∃ m, (grayUtf8Decode (c :: l)).2 = m + 1 :=
              ⟨(grayUtf8Decode (c :: l)).2 - 1, by omega⟩
            rw [hm] at h ⊢
            exact mem_cons_of_mem c h
        rw [length_cons] at hle
        have hdrop := (@drop_indent [] bs _ _ (by omega) hline).1
        rw [indent_cons hc]
        by_cases hbad : (grayUtf8Decode (c :: l)).1 = replacementCodepoint ∧
            (grayUtf8Decode (c :: l)).2 = 1
        · have hstop : ∀ l', grayUtf8Decode (c :: l') = grayUtf8Decode (c :: l) →
              utf8Step () (c :: l') = none := by
            intro l' h
            rw [utf8Step, h]
            exact if_pos hbad
          rw [Scan.run_stop utf8Step (hstop _ hdec), Scan.run_stop utf8Step (hstop _ rfl)]
          simp
        · have hrnd : ∀ l', grayUtf8Decode (c :: l') = grayUtf8Decode (c :: l) →
              utf8Step () (c :: l') = some ⟨(), (), (grayUtf8Decode (c :: l)).2 - 1⟩ := by
            intro l' h
            rw [utf8Step, h]
            exact if_neg hbad
          rw [Scan.run_cons utf8Step (hrnd _ hdec), Scan.run_cons utf8Step (hrnd _ rfl)]
          simp only [Scan.Result.cons_rest]
          rw [hdrop]
          exact ih _ (by rw [length_drop, length_cons]; omega) hbs _ rfl

theorem checkUtf8_indent (hbs : Blanks bs) (l : Text) :
    checkLiteralUtf8 (indent [] bs l) = checkLiteralUtf8 l :=
  if_congr (run_utf8Step_indent hbs l) rfl rfl

end

/-! ### Raw strings -/

/-- A token, and the token of the same kind under indentation: what is left after it, and how its
literal changes. -/
structure IndentedToken (final : Text) (bs : List Text) (l : Text) (scan scan' : TokenScan) :
    Prop where
  length_le : scan.length ≤ l.length
  drop_eq : (indent final bs l).drop scan'.length =
    indent final (bs.drop ((l.take scan.length).count (byte '\n'))) (l.drop scan.length)
  literal_eq : (byte '\n' ∉ l.take scan.length ∧ scan'.literal = scan.literal) ∨
    (scan'.literal = indent [] bs scan.literal ∧
      scan.literal.count (byte '\n') = (l.take scan.length).count (byte '\n') ∧
      (Trimmed l → Trimmed scan.literal))

section

variable {final : Text} {bs : List Text}

theorem IndentedToken.of_eq {l : Text} {scan scan' : TokenScan} (hle : scan.length ≤ l.length)
    (hline : byte '\n' ∉ l.take scan.length) (hlen : scan'.length = scan.length)
    (hlit : scan'.literal = scan.literal) : IndentedToken final bs l scan scan' := by
  refine ⟨hle, ?_, .inl ⟨hline, hlit⟩⟩
  rw [hlen, (drop_indent hle hline).1, count_eq_zero_of_not_mem hline, drop_zero]

theorem IndentedToken.of_quoted {quote : UInt8} (hq : quote ≠ byte '\n') {l u r : Text}
    {scan scan' : TokenScan} (hl : l = u ++ quote :: r) (hlen : scan.length = u.length + 2)
    (hlen' : scan'.length = (indent [] bs u).length + 2)
    (hlit : scan'.literal = indent [] bs scan.literal)
    (hcnt : scan.literal.count (byte '\n') = u.count (byte '\n'))
    (htrim : Trimmed u → Trimmed scan.literal) :
    IndentedToken final bs (quote :: l) scan scan' := by
  subst hl
  have htake : (quote :: (u ++ quote :: r)).take (u.length + 2) = quote :: (u ++ [quote]) := by
    rw [take_succ_cons, take_length_add_append]
    rfl
  have hdrop : ∀ v w : Text, (quote :: (v ++ quote :: w)).drop (v.length + 2) = w := by
    intro v w
    rw [drop_succ_cons, drop_length_add_append]
    rfl
  have hlns : (quote :: (u ++ [quote])).count (byte '\n') = u.count (byte '\n') := by
    rw [count_cons_of_ne hq, count_append, count_cons_of_ne hq, count_nil, Nat.add_zero]
  rw [← htake, ← hlen] at hlns
  refine ⟨?_, ?_, .inr ⟨hlit, by rw [hcnt, hlns], fun h => htrim h.2.left⟩⟩
  · rw [hlen, length_cons, length_append, length_cons]
    omega
  · rw [hlns, hlen, hlen', hdrop, indent_cons hq, indent_append, indent_cons hq, hdrop]

variable {p : UInt8 → Bool}

theorem takeWhile_blanks (hp : ∀ c, isBlank c → p c) {b : Text}
    (hb : ∀ c ∈ b, isBlank c) (l : Text) :
    (b ++ l).takeWhile p = b ++ l.takeWhile p ∧ (b ++ l).dropWhile p = l.dropWhile p :=
  ⟨takeWhile_append_of_pos fun c hc => hp c (hb c hc),
    dropWhile_append_of_pos fun c hc => hp c (hb c hc)⟩

theorem takeWhile_indent (hp : ∀ c, isBlank c → p c) (hlf : p (byte '\n'))
    (hbs : Blanks bs) {l : Text} (hl : l.dropWhile p ≠ []) :
    (indent final bs l).takeWhile p = indent [] bs (l.takeWhile p) ∧
      (indent final bs l).dropWhile p =
        indent final (bs.drop ((l.takeWhile p).count (byte '\n'))) (l.dropWhile p) := by
  induction l generalizing bs with
  | nil => exact absurd rfl hl
  | cons c l ih =>
    by_cases hc : c = byte '\n'
    · subst hc
      rw [dropWhile_cons_of_pos hlf] at hl
      obtain ⟨htake, hdrop⟩ := ih hbs.tail hl
      obtain ⟨hblk, hblk'⟩ := takeWhile_blanks hp hbs.headD (indent final bs.tail l)
      rw [indent_lineFeed, takeWhile_cons_of_pos hlf, dropWhile_cons_of_pos hlf,
        hblk, hblk', takeWhile_cons_of_pos hlf, dropWhile_cons_of_pos hlf, htake,
        hdrop, indent_lineFeed, count_cons_self, drop_succ_tail]
      exact ⟨rfl, rfl⟩
    · rw [indent_cons hc]
      cases hpc : p c with
      | true =>
        rw [dropWhile_cons_of_pos hpc] at hl
        obtain ⟨htake, hdrop⟩ := ih hbs hl
        rw [takeWhile_cons_of_pos hpc, dropWhile_cons_of_pos hpc,
          takeWhile_cons_of_pos hpc, dropWhile_cons_of_pos hpc, htake, hdrop,
          indent_cons hc, count_cons_of_ne hc]
        exact ⟨rfl, rfl⟩
      | false =>
        have hneg : ¬ p c = true := by simp [hpc]
        rw [takeWhile_cons_of_neg hneg, dropWhile_cons_of_neg hneg,
          takeWhile_cons_of_neg hneg, dropWhile_cons_of_neg hneg, indent_nil,
          count_nil, drop_zero, indent_cons hc]
        exact ⟨rfl, rfl⟩

theorem dropWhile_indent_of_nil (hp : ∀ c, isBlank c → p c)
    (hlf : p (byte '\n')) (hfin : IsFinal final) (hbs : Blanks bs) {l : Text}
    (hl : l.dropWhile p = []) : (indent final bs l).dropWhile p = [] := by
  induction l generalizing bs with
  | nil =>
    rw [indent_nil]
    rcases hfin with rfl | rfl
    · rfl
    · rw [dropWhile_cons_of_pos hlf, dropWhile_nil]
  | cons c l ih =>
    cases hpc : p c with
    | false => simp [hpc] at hl
    | true =>
      rw [dropWhile_cons_of_pos hpc] at hl
      by_cases hc : c = byte '\n'
      · subst hc
        rw [indent_lineFeed, dropWhile_cons_of_pos hlf,
          (takeWhile_blanks hp hbs.headD _).2, ih hbs.tail hl]
      · rw [indent_cons hc, dropWhile_cons_of_pos hpc, ih hbs hl]

theorem isRawStringByte_of_isBlank (c : UInt8) (h : isBlank c) : isRawStringByte c := by
  simp only [isBlank, Bool.or_eq_true, beq_iff_eq] at h
  rcases h with rfl | rfl <;> decide

theorem rawString_indent (hfin : IsFinal final) (hbs : Blanks bs) (l : Text) :
    (readRawString (byte '\x60' :: indent final bs l)).type =
        (readRawString (byte '\x60' :: l)).type ∧
      ((readRawString (byte '\x60' :: l)).type ≠ .illegal →
        IndentedToken final bs (byte '\x60' :: l) (readRawString (byte '\x60' :: l))
          (readRawString (byte '\x60' :: indent final bs l))) := by
  rw [rawString_cons, rawString_cons]
  by_cases hnil : l.dropWhile isRawStringByte = []
  · rw [dropWhile_indent_of_nil isRawStringByte_of_isBlank (by decide) hfin hbs hnil, hnil,
      if_neg (by decide), if_neg (by decide)]
    exact ⟨rfl, fun h => absurd rfl h⟩
  · obtain ⟨htake, hdrop⟩ := @takeWhile_indent final _ _ isRawStringByte_of_isBlank
      (by decide) hbs _ hnil
    rw [htake, hdrop, byteAt_indent hnil, checkUtf8_indent hbs]
    by_cases hcls : byteAt (l.dropWhile isRawStringByte) 0 = byte '\x60'
    · rw [if_pos hcls, if_pos hcls]
      cases checkLiteralUtf8 (l.takeWhile isRawStringByte) with
      | some error => exact ⟨rfl, fun h => absurd rfl h⟩
      | none =>
        refine ⟨rfl, fun _ => ?_⟩
        obtain ⟨r, hr⟩ := cons_of_byteAt hcls (by decide)
        refine .of_quoted (by decide) (u := l.takeWhile isRawStringByte) (r := r) ?_
          (Nat.add_comm 2 _) (Nat.add_comm 2 _) rfl rfl id
        rw [← hr, takeWhile_append_dropWhile]
    · rw [if_neg hcls, if_neg hcls]
      exact ⟨rfl, fun h => absurd rfl h⟩

end

/-! ### Strings -/

section

variable {final : Text} {bs : List Text}

theorem nested_blanks {quote : UInt8} (hq : quote = byte '"' ∨ quote = byte '\'')
    {b : Text} (hb : ∀ c ∈ b, isBlank c) (l : Text) :
    nestedLiteral quote false (b ++ l) = b ++ nestedLiteral quote false l := by
  induction b with
  | nil => rfl
  | cons c b ih =>
    have hc := hb c (mem_cons_self ..)
    simp only [isBlank, Bool.or_eq_true, beq_iff_eq] at hc
    have hpl : c ≠ 0 ∧ c ≠ quote ∧ c ≠ byte '\\' := by
      rcases hq with rfl | rfl <;> rcases hc with rfl | rfl <;> decide
    have hesc : (c == byte '\\') = false := beq_eq_false_iff_ne.mpr hpl.2.2
    rw [cons_append, nestedLiteral, if_neg hpl.1, if_neg hpl.2.1, hesc,
      Bool.false_and, ih fun d hd => hb d (mem_cons_of_mem c hd)]
    rfl

/-- A literal nested in an interpolation, under indentation: it takes the same lines, or runs to
the end. -/
theorem nested_indent {quote : UInt8} (hq : quote = byte '"' ∨ quote = byte '\'')
    (hfin : IsFinal final) (hbs : Blanks bs) (escaped : Bool) {l : Text} (hnul : 0 ∉ l) :
    nestedLiteral quote escaped (indent final bs l) = indent [] bs (nestedLiteral quote escaped l) ∨
      (nestedLiteral quote escaped l = l ∧
        nestedLiteral quote escaped (indent final bs l) = indent final bs l) := by
  have hend : ∀ escaped, nestedLiteral quote escaped final = final := by
    intro escaped
    rcases hq with rfl | rfl <;> rcases hfin with rfl | rfl <;> cases escaped <;> rfl
  induction l generalizing escaped bs with
  | nil =>
    rw [indent_nil, hend]
    exact .inr ⟨by cases escaped <;> rfl, rfl⟩
  | cons c l ih =>
    rw [mem_cons, not_or] at hnul
    by_cases hlf : c = byte '\n'
    · subst hlf
      -- a line feed is taken whether it is escaped or not
      have hstep : ∀ l, nestedLiteral quote escaped (byte '\n' :: l) =
          byte '\n' :: nestedLiteral quote false l := by
        intro l
        rcases hq with rfl | rfl <;> cases escaped <;> rfl
      rw [indent_lineFeed, hstep, hstep, nested_blanks hq hbs.headD, indent_lineFeed]
      rcases ih hbs.tail false hnul.2 with h | ⟨h, h'⟩
      · exact .inl (by rw [h])
      · exact .inr ⟨by rw [h], by rw [h']⟩
    rw [indent_cons hlf]
    cases escaped with
    | true =>
      rw [nestedLiteral, nestedLiteral, indent_cons hlf]
      rcases ih hbs false hnul.2 with h | ⟨h, h'⟩
      · exact .inl (by rw [h])
      · exact .inr ⟨by rw [h], by rw [h']⟩
    | false =>
      rw [nestedLiteral, nestedLiteral, if_neg (Ne.symm hnul.1), if_neg (Ne.symm hnul.1)]
      by_cases hcl : c = quote
      · rw [if_pos hcl, if_pos hcl, indent_cons hlf, indent_nil]
        exact .inl rfl
      rw [if_neg hcl, if_neg hcl]
      cases hl : l with
      | nil =>
        rw [indent_nil, hend]
        refine .inr ⟨?_, rfl⟩
        cases c == byte '\\' && byteAt [] 0 != 0 <;> rfl
      | cons d t =>
        rw [← hl, byteAt_indent (by rw [hl]; exact cons_ne_nil d t), indent_cons hlf]
        rcases ih hbs (c == byte '\\' && byteAt l 0 != 0) hnul.2 with h | ⟨h, h'⟩
        · exact .inl (by rw [h])
        · exact .inr ⟨by rw [h], by rw [h']⟩

/-- The items of a part of a string literal, and those of the part under indentation. -/
structure IndentedItems (bs : List Text) (items items' : List StringItem) : Prop where
  source_eq : itemsSource items' = indent [] bs (itemsSource items)
  literal_eq : itemsLiteral items' = indent [] bs (itemsLiteral items)
  count_eq : (itemsLiteral items).count (byte '\n') = (itemsSource items).count (byte '\n')

theorem IndentedItems.append {a a' b b' : List StringItem} (ha : IndentedItems bs a a')
    (hb : IndentedItems (bs.drop ((itemsSource a).count (byte '\n'))) b b') :
    IndentedItems bs (a ++ b) (a' ++ b') := by
  refine ⟨?_, ?_, ?_⟩
  · rw [source_append, source_append, ha.source_eq, hb.source_eq, indent_append]
  · rw [literal_append, literal_append, ha.literal_eq, hb.literal_eq, indent_append, ha.count_eq]
  · rw [source_append, literal_append, count_append, count_append, ha.count_eq, hb.count_eq]

theorem IndentedItems.refl {items : List StringItem} (hsrc : byte '\n' ∉ itemsSource items)
    (hlit : byte '\n' ∉ itemsLiteral items) : IndentedItems bs items items := by
  refine ⟨?_, ?_, ?_⟩
  · rw [indent_of_notMem hsrc, append_nil]
  · rw [indent_of_notMem hlit, append_nil]
  · rw [count_eq_zero_of_not_mem hsrc, count_eq_zero_of_not_mem hlit]

theorem IndentedItems.body (bs : List Text) (l : Text) :
    IndentedItems bs (l.map .body) ((indent [] bs l).map .body) := by
  refine ⟨?_, ?_, ?_⟩ <;> simp only [source_map_body, literal_map_body]

/-- An escape item stands for bytes that start with a backslash and hold no line feed. -/
def StringItem.EscapeOnOneLine : StringItem → Prop
  | .unicodeEscape source _ => byteAt source 0 = byte '\\' ∧ byte '\n' ∉ source
  | _ => True

theorem lineFeed_notMem_hexEscape (c : UInt8) : byte '\n' ∉ hexEscape c := by
  have hdig : ∀ n : ℕ, n < 16 → hexDigit n ≠ byte '\n' := by decide
  have hlt : c.toNat < 256 := UInt8.toNat_lt c
  simp only [hexEscape, mem_cons, not_mem_nil, or_false, not_or]
  refine ⟨by decide, by decide, (hdig _ (by omega)).symm, (hdig _ (by omega)).symm⟩

theorem literal_unicodeEscape (source : Text) (codepoint : ℕ) :
    byteAt (StringItem.unicodeEscape source codepoint).literal 0 = byte '\\' ∧
      byte '\n' ∉ (StringItem.unicodeEscape source codepoint).literal := by
  refine ⟨?_, fun h => ?_⟩
  · have hne : ∃ c l, utf8Encode codepoint = c :: l := by
      unfold utf8Encode
      split_ifs <;> exact ⟨_, _, rfl⟩
    obtain ⟨c, l, h⟩ := hne
    rw [StringItem.literal, h]
    rfl
  · obtain ⟨c, -, hc⟩ := mem_flatMap.mp h
    exact lineFeed_notMem_hexEscape c hc

end

variable (s : StringState)

theorem escapeOnOneLine_byteItem (c : UInt8) : (s.byteItem c).EscapeOnOneLine := by
  unfold StringState.byteItem
  split_ifs <;> trivial

theorem isBlank_byteAt_literal {items : List StringItem}
    (hits : ∀ item ∈ items, item.EscapeOnOneLine) :
    isBlank (byteAt (itemsLiteral items) 0) = isBlank (byteAt (itemsSource items) 0) := by
  have hback : ∀ {u : Text} (e : Text), byteAt u 0 = byte '\\' →
      byteAt (u ++ e) 0 = byte '\\' := by
    intro u e h
    obtain ⟨t, rfl⟩ := cons_of_byteAt h (by decide)
    rfl
  cases items with
  | nil => rfl
  | cons item items =>
    cases item with
    | unicodeEscape source codepoint =>
      have hsrc : byteAt source 0 = byte '\\' := (hits _ (mem_cons_self ..)).1
      rw [itemsLiteral, itemsSource, flatMap_cons, flatMap_cons,
        hback _ (literal_unicodeEscape source codepoint).1,
        hback _ (show byteAt (StringItem.unicodeEscape source codepoint).source 0 = _ from
          hsrc)]
    | _ => rfl

theorem Trimmed.itemsLiteral {items : List StringItem}
    (hits : ∀ item ∈ items, item.EscapeOnOneLine) (h : Trimmed (itemsSource items)) :
    Trimmed (itemsLiteral items) := by
  induction items with
  | nil => trivial
  | cons item items ih =>
    have hrest := fun i hi => hits i (mem_cons_of_mem item hi)
    have hspl : itemsSource (item :: items) = item.source ++ itemsSource items := rfl
    have hspl' : Grayscale.itemsLiteral (item :: items) =
        item.literal ++ Grayscale.itemsLiteral items := rfl
    rw [hspl] at h
    rw [hspl']
    have hone : ∀ c, Trimmed (c :: itemsSource items) →
        Trimmed (c :: Grayscale.itemsLiteral items) := by
      intro c h
      exact ⟨fun hc => by rw [isBlank_byteAt_literal hrest]; exact h.1 hc, ih hrest h.2⟩
    cases item with
    | text c => exact hone c h
    | unicodeEscape source codepoint =>
      exact .append_of_notMem (literal_unicodeEscape source codepoint).2 (ih hrest h.right)
    | openBody => exact ⟨fun h => absurd h (by decide), hone _ h.2⟩
    | body c => exact hone c h
    | closeBody => exact hone _ h

theorem lineFeed_notMem_of_isxdigit {l : Text} (h : ∀ c ∈ l, isxdigit c) : byte '\n' ∉ l :=
  fun hmem => absurd (h _ hmem) (by decide)

/-- What an escape can be: an error, bytes of one line, or one item of one line. -/
inductive EscapeItems (s : StringState) : StringState → List StringItem → Prop
  | error (source : Text) {next : StringState} (h : next.error ≠ none) :
    EscapeItems s next (source.map s.byteItem)
  | bytes (source : Text) (h : byte '\n' ∉ source) : EscapeItems s s (source.map s.byteItem)
  | unicode (source : Text) (codepoint : ℕ)
    (h : (StringItem.unicodeEscape source codepoint).EscapeOnOneLine) :
    EscapeItems s s [.unicodeEscape source codepoint]

theorem unicodeRound_cases (l : Text) :
    EscapeItems s (unicodeEscapeRound s (byte '\\' :: byte 'u' :: l)).state
      (unicodeEscapeRound s (byte '\\' :: byte 'u' :: l)).output := by
  by_cases hbr : byteAt l 0 = byte '\x7b'
  swap
  · rw [unicodeRound_of_ne s hbr]
    exact .error _ (some_ne_none _)
  obtain ⟨t, rfl⟩ := cons_of_byteAt hbr (by decide)
  have ht := takeWhile_append_dropWhile (p := isxdigit) (l := t)
  have hdig : byte '\n' ∉ t.takeWhile isxdigit :=
    lineFeed_notMem_of_isxdigit fun c hc => mem_takeWhile_imp hc
  rw [← ht, unicodeRound_brace s (by rw [ht])]
  dsimp only
  split_ifs
  · exact .error _ (some_ne_none _)
  · exact .error _ (some_ne_none _)
  · exact .error _ (some_ne_none _)
  · refine .unicode _ _ ⟨rfl, ?_⟩
    simp only [mem_cons, mem_append, not_mem_nil, or_false, not_or]
    exact ⟨by decide, by decide, by decide, hdig, by decide⟩

theorem escapeRound_cases (b : UInt8) (l : Text) :
    EscapeItems s (escapeRound s (byte '\\' :: b :: l)).state
      (escapeRound s (byte '\\' :: b :: l)).output := by
  unfold escapeRound
  simp only [byteAt_succ, byteAt_zero]
  split_ifs with hu hx hfst hsnd hnul hbad
  · rw [hu.1]
    exact unicodeRound_cases s l
  · exact .error _ (some_ne_none _)
  · exact .error _ (some_ne_none _)
  · simp only [Bool.not_eq_true', Bool.not_eq_false] at hfst hsnd
    refine .bytes _ fun h => ?_
    cases l with
    | nil => exact absurd hfst (by decide)
    | cons c l =>
      cases l with
      | nil => exact absurd (show isxdigit 0 = true from hsnd) (by decide)
      | cons d l =>
        rw [byteAt_zero] at hfst
        rw [byteAt_succ, byteAt_zero] at hsnd
        simp only [take_succ_cons, take_zero, mem_cons, not_mem_nil, or_false] at h
        rw [hx] at h
        rcases h with h | h | rfl | rfl
        · exact absurd h (by decide)
        · exact absurd h (by decide)
        · exact absurd hfst (by decide)
        · exact absurd hsnd (by decide)
  · exact .bytes [byte '\\', 0] (by decide)
  · exact .error _ (some_ne_none _)
  · refine .bytes _ fun h => ?_
    simp only [take_succ_cons, take_zero, mem_cons, not_mem_nil, or_false] at h
    rcases h with h | rfl
    · exact absurd h (by decide)
    · exact hbad (by decide)

theorem EscapeItems.escapeOnOneLine {s next : StringState} {items : List StringItem}
    (h : EscapeItems s next items) : ∀ item ∈ items, item.EscapeOnOneLine := by
  have hbyt : ∀ source : Text, ∀ item ∈ source.map s.byteItem, item.EscapeOnOneLine := by
    intro source item hitem
    obtain ⟨c, -, rfl⟩ := mem_map.mp hitem
    exact escapeOnOneLine_byteItem s c
  cases h with
  | error source _ => exact hbyt source
  | bytes source _ => exact hbyt source
  | unicode source codepoint h =>
    intro item hitem
    rw [mem_singleton.mp hitem]
    exact h

theorem EscapeItems.indented {s next : StringState} {items : List StringItem}
    (h : EscapeItems s next items) (hnext : next.error = none) (bs : List Text) :
    byte '\n' ∉ itemsSource items ∧ IndentedItems bs items items := by
  cases h with
  | error source h => exact absurd hnext h
  | bytes source h =>
    have hsrc : byte '\n' ∉ itemsSource (source.map s.byteItem) := by
      rwa [source_map_byteItem]
    exact ⟨hsrc, .refl hsrc (by rwa [literal_map_byteItem])⟩
  | unicode source codepoint h =>
    have hsrc : byte '\n' ∉ itemsSource [.unicodeEscape source codepoint] := by
      rw [itemsSource, flatMap_singleton]
      exact h.2
    refine ⟨hsrc, .refl hsrc ?_⟩
    rw [itemsLiteral, flatMap_singleton]
    exact (literal_unicodeEscape source codepoint).2

theorem EscapeItems.error_ne {s next : StringState} {items : List StringItem}
    (h : EscapeItems s next items) (hs : s.error ≠ none) : next.error ≠ none := by
  cases h with
  | error _ h => exact h
  | bytes => exact hs
  | unicode => exact hs

theorem stringStep_error {s : StringState} {c : UInt8} {l : Text}
    {round : Scan.Round StringState (List StringItem)} (h : stringStep s (c :: l) = some round)
    (hs : s.error ≠ none) : round.state.error ≠ none := by
  cases stringStep_cases h with
  | escape =>
    cases l with
    | nil => exact hs
    | cons b l =>
      exact (escapeRound_cases s b l).error_ne hs
  | openBody => exact hs
  | nested => exact hs
  | openBrace => exact hs
  | closeBrace => exact hs
  | plain => exact hs

theorem run_stringStep_error {s : StringState} (hs : s.error ≠ none) (l : Text) :
    (Scan.run stringStep s l).state.error ≠ none :=
  Scan.run_state stringStep (P := fun s => s.error ≠ none)
    (fun _ _ _ _ h hs => stringStep_error h hs) hs l

theorem run_stringStep_blanks {s : StringState} (hdepth : 0 < s.braceDepth) {b : Text}
    (hb : ∀ c ∈ b, isBlank c) (l : Text) : Scan.run stringStep s (b ++ l) =
      ⟨b.map (fun c => [.body c]) ++ (Scan.run stringStep s l).outputs,
        (Scan.run stringStep s l).state, (Scan.run stringStep s l).rest⟩ := by
  induction b with
  | nil => rfl
  | cons c b ih =>
    have hc := hb c (mem_cons_self ..)
    simp only [isBlank, Bool.or_eq_true, beq_iff_eq] at hc
    have hpl : PlainByte s c (b ++ l) := by
      have hne : ∀ d, d ≠ byte ' ' → d ≠ byte '\t' → c ≠ d := by
        rintro d hsp htab rfl
        exact hc.elim hsp htab
      exact ⟨hne _ (by decide) (by decide), hne _ (by decide) (by decide),
        fun h => hne _ (by decide) (by decide) h.1, fun h => by omega,
        fun _ => ⟨hne _ (by decide) (by decide), hne _ (by decide) (by decide),
          hne _ (by decide) (by decide), hne _ (by decide) (by decide)⟩⟩
    have hitem : s.byteItem c = .body c := if_neg (by omega)
    rw [cons_append, Scan.run_cons stringStep (StringRound.plain c _ hpl).step,
      drop_zero, ih fun d hd => hb d (mem_cons_of_mem c hd), hitem]
    rfl

/-- A round under indentation: its loop ends in an error, or at the end of the text, or goes on
behind the same line of the skeleton. -/
inductive IndentedRound (final : Text) (bs : List Text) (s : StringState) (l : Text)
    (round : Scan.Round StringState (List StringItem)) (result : Scan.Result UInt8 StringState
      (List StringItem)) : Prop
  | error (h : round.state.error ≠ none) (h' : result.state.error ≠ none)
  | atEnd (h : l.drop round.extra = []) (h' : result.rest = [])
  | next (outputs : List (List StringItem)) (h : round.state.error = none)
    (hitems : IndentedItems bs round.output outputs.flatten)
    (hresult : result =
      let next := Scan.run stringStep round.state (indent final
        (bs.drop ((itemsSource round.output).count (byte '\n'))) (l.drop round.extra))
      ⟨outputs ++ next.outputs, next.state, next.rest⟩)

theorem IndentedRound.of_eq {s : StringState} {c : UInt8} {l l' : Text}
    {round : Scan.Round StringState (List StringItem)} (herr : round.state.error = none)
    (hrnd : stringStep s (c :: l') = some round)
    (hits : IndentedItems bs round.output round.output)
    (hline : byte '\n' ∉ itemsSource round.output)
    (hdrop : l'.drop round.extra = indent final bs (l.drop round.extra)) :
    IndentedRound final bs s l round (Scan.run stringStep s (c :: l')) := by
  refine .next [round.output] herr (by rwa [flatten_singleton]) ?_
  rw [Scan.run_cons stringStep hrnd, hdrop, count_eq_zero_of_not_mem hline, drop_zero]
  rfl

theorem stringStep_indent (hfin : IsFinal final) (hbs : Blanks bs) {s : StringState}
    (hs : s.error = none) {c : UInt8} {l : Text} (hnul : 0 ∉ c :: l)
    {round : Scan.Round StringState (List StringItem)} (h : stringStep s (c :: l) = some round) :
    IndentedRound final bs s l round (Scan.run stringStep s (indent final bs (c :: l))) := by
  have hbyte : ∀ d, (d ≠ 0 ∧ isLineEnd d = false) → (byteAt (indent final bs l) 0 = d ↔
    byteAt l 0 = d) := fun d hd => byteAt_indent_eq_iff hfin hd
  cases stringStep_cases h with
  | escape =>
    rw [indent_cons (by decide)]
    cases l with
    | nil =>
      rw [indent_nil]
      refine .atEnd (by rw [drop_nil]) ?_
      rcases hfin with rfl | rfl
      · exact congrArg _ (Scan.run_cons stringStep (StringRound.escape []).step)
      · rw [Scan.run_cons stringStep (StringRound.escape _).step, Scan.Result.cons_rest]
        have hextra : (escapeRound s (byte '\\' :: [byte '\n'])).extra = 1 := by
          rw [escapeRound]
          rfl
        rw [hextra]
        rfl
    | cons b l =>
      have hcases := escapeRound_cases s b l
      by_cases hb : b = byte '\n'
      · subst hb
        have herr : ∀ l, (escapeRound s (byte '\\' :: byte '\n' :: l)).state.error ≠ none := by
          intro l
          rw [escapeRound]
          exact some_ne_none _
        refine .error (herr l) ?_
        rw [indent_lineFeed, Scan.run_cons stringStep (StringRound.escape _).step,
          Scan.Result.cons_state]
        exact run_stringStep_error (herr _) _
      · have hrnd : stringStep s (byte '\\' :: b :: indent final bs l) =
            some (escapeRound s (byte '\\' :: b :: l)) := by
          rw [(StringRound.escape _).step, escapeRound_sameLine s (sameLine_indent hfin l)]
        rw [indent_cons hb]
        by_cases herr : (escapeRound s (byte '\\' :: b :: l)).state.error = none
        · obtain ⟨hline, hits⟩ := hcases.indented herr bs
          have htakes := escapeRound_takes s b l
          have hextra := htakes.extra_lt
          rw [htakes.source_eq, take_succ_cons, mem_cons, not_or] at hline
          rw [length_cons] at hextra
          have hdrop := (@drop_indent final bs _ _ (Nat.le_of_lt_succ hextra)
            hline.2).1
          rw [indent_cons hb] at hdrop
          refine .of_eq herr hrnd hits ?_ hdrop
          rw [htakes.source_eq, take_succ_cons, mem_cons, not_or]
          exact hline
        · refine .error herr ?_
          rw [Scan.run_cons stringStep hrnd, Scan.Result.cons_state]
          exact run_stringStep_error herr _
  | openBody _ hopen =>
    obtain ⟨t, rfl⟩ := cons_of_byteAt hopen (by decide)
    have hits : ∀ bs, IndentedItems bs (if s.braceDepth = 0 then [.openBody] else
        [.body (byte '$'), .body (byte '\x7b')]) (if s.braceDepth = 0 then [.openBody] else
          [.body (byte '$'), .body (byte '\x7b')]) := by
      intro bs
      split_ifs <;> exact .refl (by decide) (by decide)
    rw [indent_cons (by decide), indent_cons (by decide)]
    refine .of_eq hs (StringRound.openBody _ rfl).step (hits bs) ?_ rfl
    dsimp only
    split_ifs <;> decide
  | nested _ _ hq hdepth =>
    have hlf : c ≠ byte '\n' := by rcases hq with rfl | rfl <;> decide
    rw [mem_cons, not_or] at hnul
    rw [indent_cons hlf]
    have hrnd := (StringRound.nested c (indent final bs l) hq hdepth).step
    have hpre := nested_beginning c false l
    rcases nested_indent hq hfin hbs false hnul.2 with hnest | ⟨hnest, hnest'⟩
    · obtain ⟨e, he⟩ := hpre
      have hcnt : ∀ v : Text, (itemsSource ((c :: v).map .body)).count (byte '\n') =
          v.count (byte '\n') := by
        intro v
        rw [source_map_body, count_cons_of_ne hlf]
      refine .next [(c :: indent [] bs (nestedLiteral c false l)).map .body] hs ?_ ?_
      · have hits := IndentedItems.body bs (c :: nestedLiteral c false l)
        rw [indent_cons hlf] at hits
        rwa [flatten_singleton]
      · have hdrop : (nestedLiteral c false l ++ e).drop (nestedLiteral c false l).length = e :=
          drop_left
        have hdrop' : (indent [] bs (nestedLiteral c false l) ++ indent final
            (bs.drop ((nestedLiteral c false l).count (byte '\n'))) e).drop
              (indent [] bs (nestedLiteral c false l)).length = _ := drop_left
        rw [he] at hdrop
        rw [← indent_append, he] at hdrop'
        rw [Scan.run_cons stringStep hrnd, hnest]
        dsimp only
        rw [hcnt, hdrop, hdrop']
        rfl
    · refine .atEnd ?_ ?_
      · dsimp only
        rw [hnest, drop_length]
      · rw [Scan.run_cons stringStep hrnd, hnest', Scan.Result.cons_rest, drop_length]
        rfl
  | openBrace _ hdepth =>
    have hsrc : byte '\n' ∉ itemsSource [.body (byte '\x7b')] := by decide
    have hlit : byte '\n' ∉ itemsLiteral [.body (byte '\x7b')] := by decide
    rw [indent_cons (by decide)]
    exact .of_eq hs (StringRound.openBrace _ hdepth).step (.refl hsrc hlit) hsrc rfl
  | closeBrace _ hdepth =>
    have hits : ∀ bs, IndentedItems bs (if s.braceDepth = 1 then [.closeBody] else
        [.body (byte '\x7d')]) (if s.braceDepth = 1 then [.closeBody] else
          [.body (byte '\x7d')]) := by
      intro bs
      split_ifs <;> exact .refl (by decide) (by decide)
    rw [indent_cons (by decide)]
    refine .of_eq hs (StringRound.closeBrace _ hdepth).step (hits bs) ?_ rfl
    dsimp only
    split_ifs <;> decide
  | plain _ _ hpl =>
    by_cases hlf : c = byte '\n'
    · subst hlf
      have hdepth : 0 < s.braceDepth := by
        rcases Nat.eq_zero_or_pos s.braceDepth with hdepth | hdepth
        · exact absurd rfl (hpl.outside hdepth).2
        · exact hdepth
      have hitem : s.byteItem (byte '\n') = .body (byte '\n') := if_neg (by omega)
      have hpl' : PlainByte s (byte '\n') (bs.headD [] ++ indent final bs.tail l) :=
        ⟨by decide, by decide, by simp, fun h => by omega, fun _ => by decide⟩
      refine .next ([.body (byte '\n')] :: (bs.headD []).map fun c => [.body c]) hs ?_ ?_
      · have hflatten : ([.body (byte '\n')] :: (bs.headD []).map fun c => [.body c]).flatten =
            (indent [] bs [byte '\n']).map StringItem.body := by
          rw [indent_lineFeed, indent_nil, append_nil, flatten_cons]
          refine congrArg (StringItem.body (byte '\n') :: ·) ?_
          induction bs.headD [] with
          | nil => rfl
          | cons c b ih => exact congrArg (StringItem.body c :: ·) ih
        rw [hflatten, hitem]
        exact .body bs [byte '\n']
      · rw [indent_lineFeed, Scan.run_cons stringStep (StringRound.plain _ _ hpl').step,
          drop_zero, run_stringStep_blanks hdepth hbs.headD, hitem, ← drop_one]
        rfl
    · have hsing : byte '\n' ∉ itemsSource [s.byteItem c] := by
        have hsrc := source_map_byteItem s [c]
        rw [map_singleton] at hsrc
        rw [hsrc, mem_singleton]
        exact Ne.symm hlf
      have hsing' : byte '\n' ∉ itemsLiteral [s.byteItem c] := by
        have hlit := literal_map_byteItem s [c]
        rw [map_singleton] at hlit
        rw [hlit, mem_singleton]
        exact Ne.symm hlf
      rw [indent_cons hlf]
      exact .of_eq hs (StringRound.plain c _ { hpl with
        not_open := fun h => hpl.not_open ⟨h.1, (hbyte _ (by decide)).mp h.2⟩ }).step
        (.refl hsing hsing') hsing rfl

/-- The loop of `read_string` under indentation. -/
structure IndentedRun (final : Text) (bs : List Text)
    (run run' : Scan.Result UInt8 StringState (List StringItem)) : Prop where
  state_eq : run'.state = run.state
  rest_eq : run'.rest =
    indent final (bs.drop ((itemsSource run.outputs.flatten).count (byte '\n'))) run.rest
  items : IndentedItems bs run.outputs.flatten run'.outputs.flatten

/-- A loop that ends at a double quote without an error does so under indentation, and the other
way round. -/
theorem run_stringStep_indent (hfin : IsFinal final) {s : StringState} {l : Text}
    (hs : s.error = none) (hnul : 0 ∉ l) (hbs : Blanks bs) :
    ((Scan.run stringStep s l).state.error = none →
      byteAt (Scan.run stringStep s l).rest 0 = byte '"' →
        IndentedRun final bs (Scan.run stringStep s l)
          (Scan.run stringStep s (indent final bs l))) ∧
    ((Scan.run stringStep s (indent final bs l)).state.error = none →
      byteAt (Scan.run stringStep s (indent final bs l)).rest 0 = byte '"' →
        (Scan.run stringStep s l).state.error = none ∧
          byteAt (Scan.run stringStep s l).rest 0 = byte '"') := by
  have hemp : byteAt [] 0 ≠ byte '"' := by decide
  have hfeed : byteAt [byte '\n'] 0 ≠ byte '"' := by decide
  refine (Scan.run_induct stringStep (P := fun s l r => s.error = none → 0 ∉ l → ∀ {bs}, Blanks bs →
    (r.state.error = none → byteAt r.rest 0 = byte '"' →
      IndentedRun final bs r (Scan.run stringStep s (indent final bs l))) ∧
    ((Scan.run stringStep s (indent final bs l)).state.error = none →
      byteAt (Scan.run stringStep s (indent final bs l)).rest 0 = byte '"' →
        r.state.error = none ∧ byteAt r.rest 0 = byte '"')) ?_ ?_ ?_ s l) hs hnul hbs
  · intro s hs _ bs _
    refine ⟨fun _ h => absurd h hemp, fun _ h => absurd h ?_⟩
    rw [indent_nil]
    rcases hfin with rfl | rfl
    · exact hemp
    · -- a line feed ends the loop, or is its last byte
      cases hstep : stringStep s [byte '\n'] with
      | none =>
        rw [Scan.run_stop stringStep hstep]
        exact hfeed
      | some round =>
        have hrest : (Scan.run stringStep s [byte '\n']).rest = [] := by
          rw [Scan.run_cons stringStep hstep, drop_nil]
          rfl
        rw [hrest]
        exact hemp
  · intro s c l hstop hs hnul bs hbs
    have hstop' : Scan.run stringStep s (indent final bs (c :: l)) =
        ⟨[], s, indent final bs (c :: l)⟩ := by
      obtain ⟨l', hl'⟩ := @indent_cons_eq final bs c l
      rw [hl']
      exact Scan.run_stop stringStep (stringStep_eq_none.mpr (stringStep_eq_none.mp hstop))
    rw [hstop']
    refine ⟨fun _ _ => ⟨rfl, ?_, ?_⟩, fun _ h => ⟨hs, ?_⟩⟩
    · rw [flatten_nil, source_nil, count_nil, drop_zero]
    · exact .refl (by simp) (by simp [itemsLiteral])
    · rwa [byteAt_indent (cons_ne_nil c l)] at h
  · intro s c l round hstep ih hs hnul bs hbs
    have hdrop : 0 ∉ l.drop round.extra := fun h =>
      hnul (mem_cons_of_mem c (mem_of_mem_drop h))
    have hrnd := stringStep_indent hfin hbs hs hnul hstep
    simp only [Scan.Result.cons_state, Scan.Result.cons_rest]
    cases hrnd with
    | error h h' =>
      refine ⟨fun herr => ?_, fun herr => absurd herr h'⟩
      exact absurd herr (run_stringStep_error h _)
    | atEnd h h' =>
      refine ⟨fun _ hq => ?_, fun _ hq => ?_⟩
      · rw [h] at hq
        exact absurd hq hemp
      · rw [h'] at hq
        exact absurd hq hemp
    | next outputs h hits hres =>
      obtain ⟨hrun, hrun'⟩ := ih h hdrop (hbs.drop ((itemsSource round.output).count (byte '\n')))
      rw [hres]
      refine ⟨fun herr hq => ?_, fun herr hq => hrun' herr hq⟩
      obtain ⟨hsta, hrest, hrunItems⟩ := hrun herr hq
      refine ⟨hsta, ?_, ?_⟩
      · dsimp only
        rw [hrest, Scan.Result.cons_outputs, Scan.Result.cons_rest, flatten_cons,
          source_append, count_append, drop_drop]
      · dsimp only
        rw [flatten_append, Scan.Result.cons_outputs, flatten_cons]
        exact hits.append hrunItems

theorem run_stringStep_escapeOnOneLine (l : Text) :
    ∀ item ∈ (Scan.run stringStep s l).outputs.flatten, item.EscapeOnOneLine := by
  intro item hitem
  obtain ⟨output, houtput, hitem⟩ := mem_flatten.mp hitem
  refine Scan.run_outputs stringStep (P := fun output => ∀ item ∈ output, item.EscapeOnOneLine)
    ?_ s l output houtput item hitem
  intro s c l round h
  have hbody : ∀ v : Text, ∀ item ∈ v.map StringItem.body, item.EscapeOnOneLine := by
    intro v item hitem
    obtain ⟨c, -, rfl⟩ := mem_map.mp hitem
    trivial
  cases stringStep_cases h with
  | escape =>
    cases l with
    | nil =>
      rw [show escapeRound s [byte '\\'] = escapeAtEnd s by simp [escapeRound, escapeAtEnd]]
      intro item hitem
      simp only [escapeAtEnd, mem_cons, not_mem_nil, or_false] at hitem
      rcases hitem with rfl | rfl <;> exact escapeOnOneLine_byteItem s _
    | cons b l => exact (escapeRound_cases s b l).escapeOnOneLine
  | openBody _ _ =>
    dsimp only
    split_ifs
    · simp [StringItem.EscapeOnOneLine]
    · exact hbody [byte '$', byte '\x7b']
  | nested => exact hbody _
  | openBrace => exact hbody [byte '\x7b']
  | closeBrace =>
    dsimp only
    split_ifs
    · simp [StringItem.EscapeOnOneLine]
    · exact hbody [byte '\x7d']
  | plain =>
    intro item hitem
    rw [mem_singleton.mp hitem]
    exact escapeOnOneLine_byteItem s _

section

variable {final : Text} {bs : List Text}

/-- A string literal is legal when its loop ends at a double quote without an error, and its bytes
are UTF-8. -/
structure LegalString (l : Text) : Prop where
  error_eq : (scanString l).state.error = none
  quote_eq : byteAt (scanString l).rest 0 = byte '"'
  utf8 : checkLiteralUtf8 (itemsSource (scanString l).outputs.flatten) = none

variable {l : Text}

theorem LegalString.string_eq (h : LegalString l) (quote : UInt8) :
    readString (quote :: l) = .token .string (itemsLiteral (scanString l).outputs.flatten)
      (2 + (itemsSource (scanString l).outputs.flatten).length) := by
  have herr : stringError (scanString l) = none := by
    rw [stringError, h.quote_eq, if_neg (by decide), h.error_eq]
    exact h.utf8
  rw [string_cons, if_pos h.quote_eq, herr]
  rfl

theorem string_of_not_legal (h : ¬ LegalString l) (quote : UInt8) :
    (readString (quote :: l)).type = .illegal := by
  rw [string_cons]
  split_ifs with hq
  · cases herr : stringError (scanString l) with
    | some error => rfl
    | none =>
      rw [stringError, hq, if_neg (by decide)] at herr
      rw [Option.orElse_eq_orElse, Option.orElse_eq_or, Option.or_eq_none_iff] at herr
      obtain ⟨hsta, hutf8⟩ := herr
      exact absurd ⟨hsta, hq, hutf8⟩ h
  · rfl

theorem string_indent (hfin : IsFinal final) (hbs : Blanks bs) {l : Text} (hnul : 0 ∉ l) :
    (readString (byte '"' :: indent final bs l)).type = (readString (byte '"' :: l)).type ∧
      ((readString (byte '"' :: l)).type ≠ .illegal →
        IndentedToken final bs (byte '"' :: l) (readString (byte '"' :: l))
          (readString (byte '"' :: indent final bs l))) := by
  obtain ⟨hrun, hrun'⟩ := run_stringStep_indent (s := ⟨0, none⟩) hfin rfl hnul hbs
  by_cases hleg : LegalString l
  · have hind := hrun hleg.error_eq hleg.quote_eq
    obtain ⟨r, hr⟩ := cons_of_byteAt hleg.quote_eq (by decide)
    have hrest := hind.rest_eq
    change (scanString (indent final bs l)).rest = indent final _ (scanString l).rest at hrest
    have hleg' : LegalString (indent final bs l) := by
      refine ⟨by rw [← hleg.error_eq]; exact congrArg _ hind.state_eq, ?_, ?_⟩
      · rw [hrest, byteAt_indent (by rw [hr]; exact cons_ne_nil _ _), hleg.quote_eq]
      · rw [show itemsSource (scanString (indent final bs l)).outputs.flatten = _ from
          hind.items.source_eq, checkUtf8_indent hbs]
        exact hleg.utf8
    rw [hleg.string_eq, hleg'.string_eq]
    refine ⟨rfl, fun _ => ?_⟩
    obtain ⟨u, hu, hsrc⟩ := scanString_split l
    have hsrc := hsrc (by rw [hr]; exact cons_ne_nil _ _)
    rw [hr] at hu
    refine .of_quoted (by decide) (r := r) (by rw [hsrc, hu]) (Nat.add_comm 2 _) ?_
      hind.items.literal_eq hind.items.count_eq
      (Trimmed.itemsLiteral (run_stringStep_escapeOnOneLine _ _))
    rw [show itemsSource (scanString l).outputs.flatten =
      itemsSource (Scan.run stringStep ⟨0, none⟩ l).outputs.flatten from rfl,
      ← hind.items.source_eq]
    exact Nat.add_comm 2 _
  · have hleg' : ¬ LegalString (indent final bs l) := by
      intro h
      obtain ⟨herr, hq⟩ := hrun' h.error_eq h.quote_eq
      refine hleg ⟨herr, hq, ?_⟩
      have hutf8 := h.utf8
      rwa [show itemsSource (scanString (indent final bs l)).outputs.flatten = _ from
        (hrun herr hq).items.source_eq, checkUtf8_indent hbs] at hutf8
    rw [string_of_not_legal hleg, string_of_not_legal hleg']
    exact ⟨rfl, fun h => absurd rfl h⟩

/-! ### Characters -/

theorem charLiteral_of_error {error : LexError} (h : (readCharHead l).2 = some error) :
    (readCharLiteral (byte '\'' :: l)).type = .illegal := by
  rw [charLiteral_cons, scanChar_of_error h, h]
  split_ifs <;> rfl

theorem charLiteral_of_quote (h : (readCharHead l).2 = none)
    (hq : byteAt (l.drop (readCharHead l).1) 0 = byte '\'') : readCharLiteral (byte '\'' :: l) =
      .token .char (l.take (readCharHead l).1) (2 + (readCharHead l).1) := by
  obtain ⟨r, hr⟩ := cons_of_byteAt hq (by decide)
  have hscan : scanCharacter l = ((readCharHead l).1, none) := by
    rw [scanChar_of_none h, hr, charTail_eq, takeWhile_cons_of_neg (by decide)]
    exact congrArg _ (if_neg fun h => absurd h.1 (Nat.lt_irrefl 0))
  rw [byteAt_drop, Nat.add_zero] at hq
  rw [charLiteral_cons, hscan, if_pos hq]
  rfl

theorem charLiteral_of_not_quote (h : (readCharHead l).2 = none)
    (hq : byteAt (l.drop (readCharHead l).1) 0 ≠ byte '\'') :
    (readCharLiteral (byte '\'' :: l)).type = .illegal := by
  rw [charLiteral_cons]
  split_ifs with hcls
  · have hscan := scanChar_of_none h
    rw [charTail_eq] at hscan
    have hbyte : byteAt ((l.drop (readCharHead l).1).dropWhile isCharTailByte) 0 = byte '\'' := by
      rw [← Scan.drop_length_takeWhile, byteAt_drop, byteAt_drop, Nat.add_zero, ← hcls, hscan]
    have hpos : 0 < ((l.drop (readCharHead l).1).takeWhile isCharTailByte).length := by
      refine Nat.pos_of_ne_zero fun hzero => hq ?_
      rwa [← Scan.drop_length_takeWhile, hzero, drop_zero] at hbyte
    rw [hscan, if_pos ⟨hpos, hbyte⟩]
    rfl
  · rfl

theorem charEscape_onOneLine {b : UInt8} {l : Text} (hb : b ≠ byte '\n')
    (h : (readCharEscape (byte '\\' :: b :: l)).2 = none) :
    (readCharEscape (byte '\\' :: b :: l)).1 ≤ (byte '\\' :: b :: l).length ∧
      byte '\n' ∉ (byte '\\' :: b :: l).take (readCharEscape (byte '\\' :: b :: l)).1 := by
  have hesc : byte '\n' ≠ byte '\\' := by decide
  rw [charEscape_cons] at h ⊢
  by_cases hx : b = byte 'x'
  · rw [if_pos hx] at h ⊢
    dsimp only at h ⊢
    split_ifs at h with hsho
    have htake : (l.take 2).takeWhile isxdigit = l.take 2 := by
      refine (List.takeWhile_prefix isxdigit).eq_of_length ?_
      have hle := (List.takeWhile_prefix (l := l.take 2) isxdigit).length_le
      rw [length_take] at hle ⊢
      omega
    rw [htake] at hsho ⊢
    rw [length_take] at hsho ⊢
    have hlen : 2 + min 2 l.length = 2 + 2 := by omega
    rw [hlen]
    refine ⟨by simp only [length_cons]; omega, ?_⟩
    rw [take_succ_cons, take_succ_cons, ← htake, mem_cons, mem_cons, not_or, not_or]
    exact ⟨hesc, Ne.symm hb, lineFeed_notMem_of_isxdigit fun c hc => mem_takeWhile_imp hc⟩
  rw [if_neg hx] at h ⊢
  by_cases hu : b = byte 'u'
  · rw [if_pos hu] at h ⊢
    by_cases hbr : byteAt l 0 = byte '\x7b'
    swap
    · rw [if_pos hbr] at h
      cases h
    rw [if_neg (not_not_intro hbr)] at h ⊢
    split_ifs at h with hcl
    rw [if_neg hcl]
    simp only [not_or, not_not] at hcl
    have hlt := lt_length_of_byteAt hcl.1 (by decide)
    refine ⟨by dsimp only; omega, ?_⟩
    obtain ⟨t, rfl⟩ := cons_of_byteAt hbr (by decide)
    dsimp only
    rw [drop_succ_cons, drop_zero] at hcl ⊢
    rw [show 4 + (t.takeWhile isxdigit).length = (t.takeWhile isxdigit).length + 1 + 1 + 1 + 1 by
      omega, take_succ_cons, take_succ_cons, take_succ_cons, List.take_add,
      ← prefix_iff_eq_take.mp (List.takeWhile_prefix isxdigit), Scan.drop_length_takeWhile]
    have hlast : byteAt (t.dropWhile isxdigit) 0 = byte '\x7d' := by
      rw [← Scan.drop_length_takeWhile, byteAt_drop, Nat.add_zero, ← hcl.1, Nat.add_comm 3]
      rfl
    obtain ⟨r, hr⟩ := cons_of_byteAt hlast (by decide)
    rw [hr, take_succ_cons, take_zero]
    simp only [mem_cons, mem_append, not_mem_nil, or_false, not_or]
    exact ⟨hesc, Ne.symm hb, by decide,
      lineFeed_notMem_of_isxdigit fun c hc => mem_takeWhile_imp hc, by decide⟩
  rw [if_neg hu] at h ⊢
  split_ifs at h with hbad
  rw [if_neg hbad]
  refine ⟨by simp, ?_⟩
  rw [take_succ_cons, take_succ_cons, take_zero, mem_cons, mem_cons, not_or, not_or]
  exact ⟨hesc, Ne.symm hb, by simp⟩

/-- The first character of a character literal is the same under indentation, and lies on one
line, or is an error in both. -/
theorem readCharHead_indent (hfin : IsFinal final) {c : UInt8} {l : Text} (hc : c ≠ byte '\n') :
    ((readCharHead (c :: l)).2 ≠ none ∧ (readCharHead (c :: indent final bs l)).2 ≠ none) ∨
      (readCharHead (c :: indent final bs l) = readCharHead (c :: l) ∧
        ((readCharHead (c :: l)).2 = none → (readCharHead (c :: l)).1 ≤ (c :: l).length ∧
          byte '\n' ∉ (c :: l).take (readCharHead (c :: l)).1)) ∨ (c = byte '\\' ∧ l = []) := by
  by_cases hesc : c = byte '\\'
  · subst hesc
    have hhead : ∀ l, readCharHead (byte '\\' :: l) = readCharEscape (byte '\\' :: l) :=
      fun _ => rfl
    cases l with
    | nil => exact .inr (.inr ⟨rfl, rfl⟩)
    | cons b l =>
      by_cases hb : b = byte '\n'
      · subst hb
        have hbad : ∀ l, (readCharEscape (byte '\\' :: byte '\n' :: l)).2 ≠ none := by
          intro l
          rw [charEscape_cons, if_neg (by decide), if_neg (by decide), if_pos (by decide)]
          exact some_ne_none _
        rw [indent_lineFeed, hhead, hhead]
        exact .inl ⟨hbad _, hbad _⟩
      · rw [indent_cons hb, hhead, hhead, charEscape_sameLine (sameLine_indent hfin l)]
        exact .inr (.inl ⟨rfl, charEscape_onOneLine hb⟩)
  · refine .inr (.inl ⟨?_, fun h => ?_⟩)
    · unfold readCharHead
      rw [(utf8Decode_sameLine (sameLine_indent hfin l)).1]
      simp only [byteAt_zero, hesc, if_false]
      rfl
    · have hq : c ≠ byte '\'' := by
        rintro rfl
        exact absurd h (some_ne_none _)
      have hlen : (readCharHead (c :: l)).1 = (grayUtf8Decode (c :: l)).2 := by
        unfold readCharHead at h ⊢
        simp only [byteAt_zero, hesc, hq, if_false] at h ⊢
        by_cases hbad : (grayUtf8Decode (c :: l)).1 = replacementCodepoint ∧
            (grayUtf8Decode (c :: l)).2 = 1 ∧ c ≥ 0x80
        · exact absurd ((congrArg Prod.snd (if_pos hbad)).symm.trans h) (some_ne_none _)
        · exact congrArg Prod.fst (if_neg hbad)
      rw [hlen]
      refine ⟨utf8Decode_le (cons_ne_nil c l), fun hmem => ?_⟩
      rcases utf8Decode_spec (c :: l) with hone | ⟨-, -, hhigh⟩
      · rw [hone, take_succ_cons, take_zero, mem_singleton] at hmem
        exact hc hmem.symm
      · exact absurd (hhigh _ hmem) (by decide)

theorem charLiteral_indent (hfin : IsFinal final) {l : Text} (hl : byteAt l 0 ≠ byte '\n') :
    (readCharLiteral (byte '\'' :: indent final bs l)).type =
        (readCharLiteral (byte '\'' :: l)).type ∧
      ((readCharLiteral (byte '\'' :: l)).type ≠ .illegal →
        IndentedToken final bs (byte '\'' :: l) (readCharLiteral (byte '\'' :: l))
          (readCharLiteral (byte '\'' :: indent final bs l))) := by
  cases l with
  | nil =>
    rw [indent_nil]
    rcases hfin with rfl | rfl <;> exact ⟨by decide, fun h => absurd (by decide) h⟩
  | cons c l =>
    rw [byteAt_zero] at hl
    rw [indent_cons hl]
    rcases @readCharHead_indent final bs hfin c l hl with ⟨h, h'⟩ | ⟨heq, hline⟩ | ⟨rfl, rfl⟩
    · obtain ⟨error, h⟩ := Option.ne_none_iff_exists'.mp h
      obtain ⟨error', h'⟩ := Option.ne_none_iff_exists'.mp h'
      rw [charLiteral_of_error h, charLiteral_of_error h']
      exact ⟨rfl, fun h => absurd rfl h⟩
    · cases herr : (readCharHead (c :: l)).2 with
      | some error =>
        rw [charLiteral_of_error herr, charLiteral_of_error (by rw [heq, herr])]
        exact ⟨rfl, fun h => absurd rfl h⟩
      | none =>
        obtain ⟨hle, hline⟩ := hline herr
        obtain ⟨hdrop, htake⟩ := @drop_indent final bs _ _ hle hline
        rw [indent_cons hl] at hdrop htake
        have hbyte := @byteAt_indent_eq_iff final bs hfin
          ((c :: l).drop (readCharHead (c :: l)).1) (byte '\'') (by decide)
        rw [← hdrop] at hbyte
        by_cases hq : byteAt ((c :: l).drop (readCharHead (c :: l)).1) 0 = byte '\''
        · have hq' := hbyte.mpr hq
          rw [← heq] at hq'
          rw [charLiteral_of_quote herr hq,
            charLiteral_of_quote (by rw [heq, herr]) hq', heq, htake]
          refine ⟨rfl, fun _ => ?_⟩
          obtain ⟨r, hr⟩ := cons_of_byteAt hq (by decide)
          have hspl := take_append_drop (readCharHead (c :: l)).1 (c :: l)
          rw [hr] at hspl
          have hlen : ((c :: l).take (readCharHead (c :: l)).1).length =
              (readCharHead (c :: l)).1 := length_take_of_le hle
          have hindent : indent [] bs ((c :: l).take (readCharHead (c :: l)).1) =
              (c :: l).take (readCharHead (c :: l)).1 := by
            rw [indent_of_notMem hline, append_nil]
          have htok := @IndentedToken.of_quoted final bs (byte '\'') (by decide) _ _ _
            (.token .char ((c :: l).take (readCharHead (c :: l)).1) (2 + (readCharHead (c :: l)).1))
            (.token .char ((c :: l).take (readCharHead (c :: l)).1) (2 + (readCharHead (c :: l)).1))
            hspl.symm
            (by rw [hlen]; exact Nat.add_comm 2 _)
            (by rw [hindent, hlen]; exact Nat.add_comm 2 _) hindent.symm rfl id
          exact htok
        · have hq' := mt hbyte.mp hq
          rw [← heq] at hq'
          rw [charLiteral_of_not_quote herr hq, charLiteral_of_not_quote (by rw [heq, herr]) hq']
          exact ⟨rfl, fun h => absurd rfl h⟩
    · rw [indent_nil]
      rcases hfin with rfl | rfl <;> exact ⟨by decide, fun h => absurd (by decide) h⟩

/-- A character literal that starts with a line feed is legal under indentation when no blanks
follow the line feed, and the closing quote does. -/
theorem charLiteral_lineFeed {bs : List Text} (hbs : Blanks bs) (l : Text) :
    ((readCharLiteral (byte '\'' :: indent final bs (byte '\n' :: l))).type ≠ .illegal ↔
        bs.headD [] = [] ∧ byteAt (indent final bs.tail l) 0 = byte '\'') ∧
      (bs.headD [] = [] → byteAt (indent final bs.tail l) 0 = byte '\'' →
        readCharLiteral (byte '\'' :: indent final bs (byte '\n' :: l)) =
          .token .char [byte '\n'] 3) := by
  have hhead : ∀ l, readCharHead (byte '\n' :: l) = (1, none) := fun _ => rfl
  have hlit : bs.headD [] = [] → byteAt (indent final bs.tail l) 0 = byte '\'' →
      readCharLiteral (byte '\'' :: indent final bs (byte '\n' :: l)) =
        .token .char [byte '\n'] 3 := by
    intro hblk hq
    rw [indent_lineFeed, hblk, nil_append]
    exact charLiteral_of_quote (congrArg Prod.snd (hhead _)) hq
  refine ⟨⟨fun hleg => ?_, fun h => ?_⟩, hlit⟩
  · by_contra hne
    refine hleg ?_
    rw [indent_lineFeed]
    refine charLiteral_of_not_quote (congrArg Prod.snd (hhead _)) fun hq => hne ?_
    change byteAt (bs.headD [] ++ indent final bs.tail l) 0 = byte '\'' at hq
    have hblk := hbs.headD
    cases hb : bs.headD [] with
    | nil =>
      rw [hb, nil_append] at hq
      exact ⟨rfl, hq⟩
    | cons c b =>
      rw [hb] at hq hblk
      have hc : c = byte '\'' := hq
      rw [hc] at hblk
      exact absurd (hblk _ (mem_cons_self ..)) (by decide)
  · rw [hlit h.1 h.2]
    exact fun h => absurd h (by simp [TokenScan.token])

/-! ### Tokens -/

/-- Whether a token is a character literal that starts with a line feed. -/
def CharOpensLine (l : Text) : Prop := byteAt l 0 = byte '\'' ∧ byteAt l 1 = byte '\n'

/-- The token in front of an indentation, unless it is a character literal that starts with a line
feed. -/
theorem token_indent (hfin : IsFinal final) (hbs : Blanks bs) {l : Text} (hl : l ≠ [])
    (hnul : 0 ∉ l) (hsp : isWhitespace (byteAt l 0) = false) (hchar : ¬ CharOpensLine l) :
    (scanToken (indent final bs l)).type = (scanToken l).type ∧ ((scanToken l).type ≠ .illegal →
        IndentedToken final bs l (scanToken l) (scanToken (indent final bs l))) := by
  cases l with
  | nil => exact absurd rfl hl
  | cons c l =>
    rw [byteAt_zero] at hsp
    rw [mem_cons, not_or] at hnul
    have hc : c ≠ byte '\n' := by
      rintro rfl
      exact absurd hsp (by decide)
    rw [indent_cons hc]
    cases hq : isQuote c with
    | true =>
      rcases eq_of_isQuote hq with rfl | rfl | rfl
      · rw [token_string, token_string]
        exact string_indent hfin hbs hnul.2
      · rw [token_rawString, token_rawString]
        exact rawString_indent hfin hbs l
      · rw [token_char, token_char]
        exact charLiteral_indent hfin fun h => hchar ⟨rfl, h⟩
    | false =>
      obtain ⟨u, e, rfl, hu, he⟩ := exists_line l
      have hends : EndsWithLineFeed (indent final bs e) := by
        cases e with
        | nil =>
          rw [indent_nil]
          exact hfin.endsWithLineFeed
        | cons d e =>
          refine .inr ?_
          rw [byteAt_indent (cons_ne_nil d e)]
          exact he.resolve_left (cons_ne_nil d e)
      obtain ⟨hscan, hle⟩ := token_append u hq he hends
      rw [cons_append, cons_append] at hscan
      rw [cons_append] at hle
      rw [indent_append_of_notMem hu, hscan]
      refine ⟨rfl, fun _ => .of_eq ?_ (lineFeed_notMem_token hq hc) rfl rfl⟩
      rw [length_cons, length_append]
      rw [length_cons] at hle
      omega

end

end Grayscale
