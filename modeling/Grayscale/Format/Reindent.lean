import Grayscale.Format.Lines

/-!
# Two indentations of one text

The lexer on two indentations of one skeleton: as long as no token is illegal, both calls stand at
the same place of the skeleton. Their tokens are of the same kind, and their literals are
indentations of one literal.
-/

namespace Grayscale

open List

theorem skipGap_stops {l : Text} {c : UInt8} {r : Text}
    (hr : (skipGap l).1 = c :: r) : isWhitespace c = false ∧
      (c = byte '/' → byteAt r 0 ≠ byte '/' ∧ byteAt r 0 ≠ byte '*') := by
  have hstop : gapStep () (c :: r) = none := by
    have hrest : (Scan.run gapStep () l).rest = c :: r := hr
    have := Scan.run_rest gapStep () l
    rw [hrest] at this
    exact this.resolve_left (cons_ne_nil c r)
  have hsp := gapStep_eq_none hstop
  refine ⟨hsp, ?_⟩
  rintro rfl
  constructor <;> intro hbyte
  · obtain ⟨t, rfl⟩ := cons_of_byteAt hbyte (by decide)
    rw [gapStep, if_neg not_isWhitespace_slash, if_pos ⟨rfl, rfl⟩] at hstop
    cases hstop
  · obtain ⟨t, rfl⟩ := cons_of_byteAt hbyte (by decide)
    rw [gapStep, if_neg not_isWhitespace_slash, if_neg (by simp), if_pos ⟨rfl, rfl⟩] at hstop
    simp only [drop_succ_cons, drop_zero] at hstop
    split at hstop <;> cases hstop

theorem skipGap_indent_of_cons {final : Text} {bs : List Text} (hfin : IsFinal final)
    {l : Text} (hl : (skipGap l).1 ≠ []) :
    skipGap (indent final bs (skipGap l).1) = (indent final bs (skipGap l).1, none) := by
  cases hr : (skipGap l).1 with
  | nil => exact absurd hr hl
  | cons c r =>
    obtain ⟨hsp, hsla⟩ := skipGap_stops hr
    have hlf : c ≠ byte '\n' := by
      rintro rfl
      exact absurd hsp (by decide)
    rw [indent_cons hlf]
    exact skipGap_stop hsp fun h =>
      ⟨mt (byteAt_indent_eq_iff hfin (by decide)).mp (hsla h).1,
        mt (byteAt_indent_eq_iff hfin (by decide)).mp (hsla h).2⟩

/-- A text that the lexer reads like an indentation of `r`, up to the gap in front of it. -/
def ReadsLike (final : Text) (bs : List Text) (r l : Text) : Prop :=
  skipGap l = skipGap (indent final bs r)

section

variable {final : Text} {bs : List Text} {r l : Text}

theorem ReadsLike.illegal (h : ReadsLike final bs r l) (hfin : IsFinal final) (hbs : Blanks bs)
    (hnul : 0 ∉ r) {error : LexError} (hgap : (skipGap r).2 = some error) :
    (nextScan l).type = .illegal := by
  have herr : (skipGap l).2 = some error := by
    rw [h, (skipGap_indent hfin hbs r hnul).1, hgap]
  rw [nextScan_of_some herr]
  rfl

theorem ReadsLike.endOfFile (h : ReadsLike final bs r l) (hfin : IsFinal final) (hbs : Blanks bs)
    (hnul : 0 ∉ r) (hgap : (skipGap r).2 = none) (hr : (skipGap r).1 = []) :
    nextScan l = .token .endOfFile [] 0 ∧ nextRest l = [] := by
  obtain ⟨u, -, hskip⟩ := (skipGap_indent hfin hbs r hnul).2 hgap
  rw [hr, indent_nil] at hskip
  have hnil : skipGap l = ([], none) := by
    rw [h, hskip]
    rcases hfin with rfl | rfl <;> rfl
  have hscan : nextScan l = .token .endOfFile [] 0 := by
    rw [nextScan_of_none (by rw [hnil]), hnil]
    rfl
  refine ⟨hscan, ?_⟩
  rw [nextRest, hnil, hscan]
  rfl

theorem ReadsLike.token (h : ReadsLike final bs r l) (hfin : IsFinal final) (hbs : Blanks bs)
    (hnul : 0 ∉ r) (hgap : (skipGap r).2 = none) (hr : (skipGap r).1 ≠ []) {u : Text}
    (hu : r = u ++ (skipGap r).1) :
    skipGap l = (indent final (bs.drop (u.count (byte '\n'))) (skipGap r).1, none) := by
  obtain ⟨v, hv, hskip⟩ := (skipGap_indent hfin hbs r hnul).2 hgap
  have huv : u = v := append_cancel_right (hu.symm.trans hv)
  subst huv
  rw [h, hskip, skipGap_indent_of_cons hfin hr]

end

/-- Two texts in front of the same place `r` of a skeleton with `total` line feeds, the first `n`
of which are behind them. -/
structure Reindented (gs fs : List Text) (final : Text) (total n : ℕ) (r l l' : Text) : Prop where
  nul_notMem : 0 ∉ r
  trimmed : Trimmed r
  count_eq : n + r.count (byte '\n') = total
  left : ReadsLike [] (gs.drop n) r l
  right : ReadsLike final (fs.drop n) r l'

/-- The two literals of a token that spans `m` line feeds. -/
def LiteralPair (gs fs : List Text) (n m : ℕ) (literal literal' : Text) : Prop :=
  (m = 0 ∧ literal' = literal) ∨ ∃ text, literal = indent [] (gs.drop n) text ∧
    literal' = indent [] (fs.drop n) text ∧ text.count (byte '\n') = m ∧ Trimmed text

/-- A character literal of a line feed, or of a line feed and blanks. -/
def CharSpansLine (l : Text) : Prop := CharOpensLine l ∧ byteAt (content (l.drop 2)) 0 = byte '\''

/-- Two calls in front of the same place of a skeleton. -/
inductive CallPair (gs fs : List Text) (final : Text) (total : ℕ) (l l' : Text) : Prop
  /-- Both tokens are illegal. -/
  | illegal (h : (nextScan l).type = .illegal) (h' : (nextScan l').type = .illegal)
  /-- Both texts end. -/
  | endOfFile (h : nextScan l = .token .endOfFile [] 0) (h' : nextScan l' = .token .endOfFile [] 0)
    (hrest : nextRest l = []) (hrest' : nextRest l' = [])
  /-- The tokens start after `n` line feeds and are of the same kind. -/
  | token (n : ℕ) (hleft : n + (skipGap l).1.count (byte '\n') = total)
    (hright : n + (skipGap l').1.count (byte '\n') = total + final.count (byte '\n'))
    (hne : (nextScan l).type ≠ .endOfFile) (htype : (nextScan l').type = (nextScan l).type)
    (hlegal : (nextScan l).type ≠ .illegal → ∃ m r,
      Reindented gs fs final total (n + m) r (nextRest l) (nextRest l') ∧
        n + m + (nextRest l).count (byte '\n') = total ∧
        LiteralPair gs fs n m (nextScan l).literal (nextScan l').literal)
  /-- The tokens are character literals that start with a line feed. -/
  | charLine (n : ℕ) (quoted : Prop) (hleft : n + (skipGap l).1.count (byte '\n') = total)
    (hright : n + (skipGap l').1.count (byte '\n') = total + final.count (byte '\n'))
    (hne : (nextScan l).type ≠ .endOfFile) (hspans : quoted → CharSpansLine (skipGap l).1)
    (hl : (nextScan l).type ≠ .illegal ↔ gs.getD n [] = [] ∧ quoted)
    (hl' : (nextScan l').type ≠ .illegal ↔ fs.getD n [] = [] ∧ quoted)
    (hcount : gs.getD n [] = [] → quoted → n + 1 + (nextRest l).count (byte '\n') = total)
    (hlegal : gs.getD n [] = [] → fs.getD n [] = [] → quoted → SameToken l l' ∧
      ∃ r, Reindented gs fs final total (n + 1) r (nextRest l) (nextRest l'))

theorem getD_drop (l : List Text) (n k : ℕ) : (l.drop n).getD k [] = l.getD (n + k) [] := by
  rw [getD_eq_getElem?_getD, getElem?_drop, getD_eq_getElem?_getD]

theorem headD_eq_getD (l : List Text) : l.headD [] = l.getD 0 [] := by
  cases l <;> rfl

theorem IndentedToken.literal_of_notMem {final : Text} {bs : List Text} {l : Text}
    {scan scan' : TokenScan} (h : IndentedToken final bs l scan scan')
    (hline : byte '\n' ∉ l.take scan.length) : scan'.literal = scan.literal := by
  rcases h.literal_eq with ⟨-, h⟩ | ⟨h, hcnt, -⟩
  · exact h
  · rw [count_eq_zero_of_not_mem hline, List.count_eq_zero] at hcnt
    rw [h, indent_of_notMem hcnt, append_nil]

theorem IndentedToken.literalPair {gs fs : List Text} {final : Text} {n : ℕ} {l : Text}
    {scan scan₁ scan₂ : TokenScan} (h₁ : IndentedToken [] (gs.drop n) l scan scan₁)
    (h₂ : IndentedToken final (fs.drop n) l scan scan₂) (hl : Trimmed l) :
    LiteralPair gs fs n ((l.take scan.length).count (byte '\n')) scan₁.literal scan₂.literal := by
  by_cases hline : byte '\n' ∈ l.take scan.length
  · obtain ⟨h₁, hcnt, htext⟩ := h₁.literal_eq.resolve_left fun h => h.1 hline
    obtain ⟨h₂, -, -⟩ := h₂.literal_eq.resolve_left fun h => h.1 hline
    exact .inr ⟨scan.literal, h₁, h₂, hcnt, htext hl⟩
  · refine .inl ⟨count_eq_zero_of_not_mem hline, ?_⟩
    rw [h₁.literal_of_notMem hline, h₂.literal_of_notMem hline]

/-- What the two calls return. -/
theorem Reindented.call {gs fs : List Text} {final : Text} {total n : ℕ} {r l l' : Text}
    (h : Reindented gs fs final total n r l l') (hgs : Blanks gs) (hfs : Blanks fs)
    (hfin : IsFinal final) : CallPair gs fs final total l l' := by
  have hnil : IsFinal [] := .inl rfl
  have hnul := h.nul_notMem
  cases hgap : (skipGap r).2 with
  | some error =>
    exact .illegal (h.left.illegal hnil (hgs.drop n) hnul hgap)
      (h.right.illegal hfin (hfs.drop n) hnul hgap)
  | none =>
    by_cases hr : (skipGap r).1 = []
    · obtain ⟨hscan, hrest⟩ := h.left.endOfFile hnil (hgs.drop n) hnul hgap hr
      obtain ⟨hscan', hrest'⟩ := h.right.endOfFile hfin (hfs.drop n) hnul hgap hr
      exact .endOfFile hscan hscan' hrest hrest'
    obtain ⟨u, hu, -⟩ := (skipGap_indent hnil (hgs.drop n) r hnul).2 hgap
    have hleft := h.left.token hnil (hgs.drop n) hnul hgap hr hu
    have hrgt := h.right.token hfin (hfs.drop n) hnul hgap hr hu
    rw [drop_drop] at hleft hrgt
    have hnext := nextScan_of_none (l := l) (by rw [hleft])
    have hnext' := nextScan_of_none (l := l') (by rw [hrgt])
    have hcnt := h.count_eq
    have htrim := h.trimmed
    rw [hu] at hnul hcnt htrim
    have hsp : isWhitespace (byteAt (skipGap r).1 0) = false := isWhitespace_after_gap r
    generalize (skipGap r).1 = r₁ at *
    generalize hn₁ : n + u.count (byte '\n') = n₁ at *
    rw [hleft] at hnext
    rw [hrgt] at hnext'
    dsimp only at hnext hnext'
    rw [mem_append, not_or] at hnul
    rw [count_append, ← Nat.add_assoc, hn₁] at hcnt
    have hgapLeft : n₁ + (skipGap l).1.count (byte '\n') = total := by
      rw [hleft, count_indent (hgs.drop n₁)]
      exact hcnt
    have hgapRight : n₁ + (skipGap l').1.count (byte '\n') = total + final.count (byte '\n') := by
      rw [hrgt, count_indent (hfs.drop n₁), ← Nat.add_assoc, hcnt]
    by_cases hchar : CharOpensLine r₁
    · obtain ⟨t, rfl⟩ := cons_of_byteAt hchar.1 (by decide)
      obtain ⟨t, rfl⟩ := cons_of_byteAt (l := t) hchar.2 (by decide)
      have hscan : ∀ final bs, scanToken (indent final bs (byte '\'' :: byte '\n' :: t)) =
          readCharLiteral (byte '\'' :: indent final bs (byte '\n' :: t)) := by
        intro final bs
        rw [indent_cons (by decide), token_char]
      have hq : ∀ {final bs}, IsFinal final →
          (byteAt (indent final bs t) 0 = byte '\'' ↔ byteAt t 0 = byte '\'') :=
        fun hfin => byteAt_indent_eq_iff hfin (by decide)
      obtain ⟨hleg, hread⟩ := @charLiteral_lineFeed [] _ (hgs.drop n₁) t
      obtain ⟨hleg', hread'⟩ := @charLiteral_lineFeed final _ (hfs.drop n₁) t
      rw [← hscan, ← hnext, hq hnil, headD_eq_getD, getD_drop, Nat.add_zero] at hleg
      rw [← hscan, ← hnext', hq hfin, headD_eq_getD, getD_drop, Nat.add_zero] at hleg'
      have hblk : ∀ {l : List Text}, l.getD n₁ [] = [] → (l.drop n₁).headD [] = [] := by
        intro l h
        rwa [headD_eq_getD, getD_drop, Nat.add_zero]
      rw [← hscan, ← hnext, hq hnil] at hread
      rw [← hscan, ← hnext', hq hfin] at hread'
      have hdrop : ∀ {final : Text} {bs : List Text}, bs.getD n₁ [] = [] →
          byteAt t 0 = byte '\'' → (indent final (bs.drop n₁)
            (byte '\'' :: byte '\n' :: t)).drop 3 = indent final (bs.drop (n₁ + 1)) (t.drop 1) := by
        intro final bs h hquo
        obtain ⟨t, rfl⟩ := cons_of_byteAt hquo (by decide)
        rw [indent_cons (by decide), indent_lineFeed, hblk h, nil_append,
          indent_cons (by decide), ← drop_one, drop_drop]
        rfl
      have htot : byteAt t 0 = byte '\'' → n₁ + 1 + (t.drop 1).count (byte '\n') = total := by
        intro hquo
        obtain ⟨t, rfl⟩ := cons_of_byteAt hquo (by decide)
        rw [show byte '\'' :: byte '\n' :: byte '\'' :: t = bytes "'\n'" ++ t from rfl,
          count_append, show (bytes "'\n'").count (byte '\n') = 1 by decide] at hcnt
        rw [drop_succ_cons, drop_zero]
        omega
      have hrest : gs.getD n₁ [] = [] → byteAt t 0 = byte '\'' →
          nextRest l = indent [] (gs.drop (n₁ + 1)) (t.drop 1) := by
        intro h hquo
        rw [nextRest, hleft, hread (hblk h) hquo]
        exact hdrop h hquo
      refine .charLine n₁ (byteAt t 0 = byte '\'') hgapLeft hgapRight ?_ (fun hquo => ?_)
        hleg hleg' (fun h hquo => ?_) fun h h' hquo => ?_
      · rw [hnext]
        exact (token_takes (by rw [indent_cons (by decide)]; exact cons_ne_nil _ _)).type_ne
      · obtain ⟨t, rfl⟩ := cons_of_byteAt hquo (by decide)
        rw [hleft, indent_cons (by decide), indent_lineFeed]
        refine ⟨⟨rfl, rfl⟩, ?_⟩
        rw [drop_succ_cons, drop_succ_cons, drop_zero, content,
          dropWhile_append_of_pos ((hgs.drop n₁).headD), indent_cons (by decide),
          dropWhile_cons_of_neg (by decide)]
        rfl
      · rw [hrest h hquo, count_indent (hgs.drop _), count_nil]
        exact htot hquo
      · have htokenLeft := hread (hblk h) hquo
        have htokenRight := hread' (hblk h') hquo
        refine ⟨⟨by rw [htokenLeft, htokenRight], by rw [htokenLeft, htokenRight]⟩, t.drop 1,
          ⟨fun h => hnul.2 ?_, ?_, htot hquo, by rw [ReadsLike, hrest h hquo], ?_⟩⟩
        · exact mem_cons_of_mem _ (mem_cons_of_mem _ (mem_of_mem_drop h))
        · have ht : Trimmed t := htrim.right.2.2
          rw [← take_append_drop 1 t] at ht
          exact ht.right
        · rw [ReadsLike, nextRest, hrgt, htokenRight]
          exact congrArg skipGap (hdrop h' hquo)
    · obtain ⟨htype, hleg⟩ := token_indent hnil (hgs.drop n₁) hr hnul.2 hsp hchar
      obtain ⟨htype', hleg'⟩ := token_indent hfin (hfs.drop n₁) hr hnul.2 hsp hchar
      have hne : (nextScan l).type ≠ .endOfFile := by
        rw [hnext, htype]
        exact (token_takes hr).type_ne
      refine .token n₁ hgapLeft hgapRight hne (by rw [hnext, hnext', htype, htype']) fun h => ?_
      rw [hnext, htype] at h
      have hpair := (hleg h).literalPair (hleg' h) htrim.right
      have hdrop := (hleg h).drop_eq
      have hdrop' := (hleg' h).drop_eq
      rw [drop_drop] at hdrop hdrop'
      have hspl := take_append_drop (scanToken r₁).length r₁
      have htot : (r₁.take (scanToken r₁).length).count (byte '\n') +
          (r₁.drop (scanToken r₁).length).count (byte '\n') = r₁.count (byte '\n') := by
        rw [← count_append, hspl]
      have hrest : nextRest l = indent [] (gs.drop (n₁ + (r₁.take
          (scanToken r₁).length).count (byte '\n'))) (r₁.drop (scanToken r₁).length) := by
        rw [nextRest, hleft, hnext]
        exact hdrop
      have hrest' : nextRest l' = indent final (fs.drop (n₁ + (r₁.take
          (scanToken r₁).length).count (byte '\n'))) (r₁.drop (scanToken r₁).length) := by
        rw [nextRest, hrgt, hnext']
        exact hdrop'
      refine ⟨(r₁.take (scanToken r₁).length).count (byte '\n'), r₁.drop (scanToken r₁).length,
        ⟨fun h => hnul.2 (mem_of_mem_drop h), ?_, by omega, ?_, ?_⟩, ?_, ?_⟩
      · rw [← hspl] at htrim
        exact htrim.right.right
      · rw [ReadsLike, hrest]
      · rw [ReadsLike, hrest']
      · rw [hrest, count_indent (hgs.drop _), count_nil]
        omega
      · rw [hnext, hnext']
        exact hpair

end Grayscale
