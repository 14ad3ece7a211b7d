import Grayscale.Lexer.Stream
import Grayscale.Lexer.Strings

/-!
# Line terminators

The language standard (2.2) lets a line end in a line feed, or in a carriage return that a line
feed may follow. This file replaces the line feeds of a text by the other terminators and follows
the lexer on both texts.

The token streams agree as long as no construct ends at a line feed only: a number takes a decimal
point in front of a line feed, a line comment, an unclosed string literal and an unclosed
character literal end at a line feed, and none of them does so at a carriage return.
-/

namespace Grayscale

open List

/-- A line terminator other than the line feed. -/
def IsTerminator (t : Text) : Prop := t = [byte '\r'] ∨ t = [byte '\r', byte '\n']

/-- The text with `t` in place of its line feeds. -/
def replaceLineFeeds (t l : Text) : Text := l.flatMap fun c => if c = byte '\n' then t else [c]

section

variable {t : Text}

@[simp] theorem relined_lineFeed (l : Text) :
    replaceLineFeeds t (byte '\n' :: l) = t ++ replaceLineFeeds t l := rfl

theorem relined_cons {c : UInt8} (h : c ≠ byte '\n') (l : Text) :
    replaceLineFeeds t (c :: l) = c :: replaceLineFeeds t l := by
  rw [replaceLineFeeds, flatMap_cons, if_neg h]
  rfl

@[simp] theorem relined_append (l r : Text) :
    replaceLineFeeds t (l ++ r) = replaceLineFeeds t l ++ replaceLineFeeds t r := flatMap_append

theorem relined_of_notMem {l : Text} (h : byte '\n' ∉ l) : replaceLineFeeds t l = l := by
  induction l with
  | nil => rfl
  | cons c l ih =>
    rw [mem_cons, not_or] at h
    rw [relined_cons (Ne.symm h.1), ih h.2]

theorem relined_take_drop {l : Text} {n : ℕ} (h : byte '\n' ∉ l.take n) :
    (replaceLineFeeds t l).take n = l.take n ∧
      (replaceLineFeeds t l).drop n = replaceLineFeeds t (l.drop n) := by
  rcases Nat.lt_or_ge n l.length with hlt | hge
  · conv =>
      enter [1, 1]
      rw [← take_append_drop n l, relined_append, relined_of_notMem h]
    conv =>
      enter [2, 1]
      rw [← take_append_drop n l, relined_append, relined_of_notMem h]
    have hlen : (l.take n).length = n := length_take_of_le (Nat.le_of_lt hlt)
    exact ⟨take_left' hlen, drop_left' hlen⟩
  · rw [take_of_length_le hge] at h
    rw [relined_of_notMem h, drop_of_length_le hge]
    exact ⟨rfl, rfl⟩

theorem byteAt_relined {l : Text} (h : byteAt l 0 ≠ byte '\n') :
    byteAt (replaceLineFeeds t l) 0 = byteAt l 0 := by
  cases l with
  | nil => rfl
  | cons c l =>
    rw [byteAt_zero] at h
    rw [relined_cons h]
    rfl

theorem mem_relined {c : UInt8} {l : Text} (h : c ∈ replaceLineFeeds [byte '\r'] l) :
    c ≠ byte '\n' ∧ (c ∈ l ∨ c = byte '\r') := by
  rw [replaceLineFeeds, mem_flatMap] at h
  obtain ⟨d, hd, hc⟩ := h
  split_ifs at hc with hlf
  · rw [mem_singleton.mp hc]
    exact ⟨by decide, .inr rfl⟩
  · rw [mem_singleton.mp hc]
    exact ⟨hlf, .inl hd⟩

variable (ht : IsTerminator t)
include ht

theorem sameLine_relined (l : Text) : SameLine l (replaceLineFeeds t l) := by
  induction l with
  | nil => exact .ends (.inl rfl) (.inl rfl)
  | cons c l ih =>
    by_cases hc : c = byte '\n'
    · subst hc
      refine .ends (.inr (.inl rfl)) (.inr (.inr ?_))
      rcases ht with rfl | rfl <;> rfl
    · rw [relined_cons hc]
      exact .cons c ih

theorem skipBlock_relined (l : Text) : skipBlockComment (replaceLineFeeds t l) =
      (replaceLineFeeds t (skipBlockComment l).1, (skipBlockComment l).2) := by
  induction l with
  | nil => rfl
  | cons c l ih =>
    by_cases hc : c = byte '\n'
    · subst hc
      have hskip : ∀ d : UInt8, (d ≠ 0 ∧ d ≠ byte '*') → ∀ l : Text, skipBlockComment (d :: l) =
          (d :: (skipBlockComment l).1, (skipBlockComment l).2) := by
        intro d hd l
        rw [skipBlockComment, if_neg hd.1, if_neg fun h => hd.2 h.1]
      rw [relined_lineFeed, hskip _ (by decide), relined_lineFeed]
      rcases ht with rfl | rfl
      · rw [singleton_append, hskip _ (by decide), ih]
        rfl
      · rw [cons_append, singleton_append, hskip _ (by decide), hskip _ (by decide), ih]
        rfl
    · rw [relined_cons hc, skipBlockComment, skipBlockComment, ih]
      have hcl := (sameLine_relined ht l).byteAt_iff (c := byte '/') (by decide)
      by_cases hnul : c = 0
      · rw [if_pos hnul, if_pos hnul]
        rfl
      · rw [if_neg hnul, if_neg hnul]
        by_cases hstar : c = byte '*' ∧ byteAt l 0 = byte '/'
        · rw [if_pos hstar, if_pos ⟨hstar.1, hcl.mpr hstar.2⟩]
          rfl
        · rw [if_neg hstar, if_neg fun h => hstar ⟨h.1, hcl.mp h.2⟩]
          rw [relined_cons hc]

end

/-! ### Gaps -/

/-- Whether a gap holds a line comment that a line feed ends: one that is not the last item. -/
def endsLineComment : List GapItem → Bool
  | .lineComment _ :: _ :: _ => true
  | _ :: gap => endsLineComment gap
  | [] => false

theorem ne_nul_of_mem_gapText {gap : List GapItem} {rest : Text} (h : GapEndsBefore gap rest) :
    ∀ c ∈ gapText gap, c ≠ 0 := by
  induction gap with
  | nil => simp [gapText]
  | cons item gap ih =>
    intro c hc
    rw [gapText, flatMap_cons, mem_append] at hc
    rcases hc with hc | hc
    · have hitem := h.1
      cases item with
      | whitespace d =>
        rw [GapItem.text, mem_singleton] at hc
        subst hc
        rintro rfl
        exact absurd (show isWhitespace 0 = true from hitem) (by decide)
      | lineComment body =>
        simp only [GapItem.text, mem_cons] at hc
        rcases hc with rfl | rfl | hc
        · decide
        · decide
        · exact (hitem.1 c hc).2
      | blockComment body =>
        simp only [GapItem.text, mem_cons, mem_append, not_mem_nil, or_false] at hc
        rcases hc with rfl | rfl | hc | rfl | rfl
        · decide
        · decide
        · exact hitem.1 c hc
        · decide
        · decide
      | unclosedComment body =>
        simp only [GapItem.text, mem_cons] at hc
        rcases hc with rfl | rfl | hc
        · decide
        · decide
        · exact hitem.1 c hc
    · exact ih h.2 c hc

variable {l : Text}

theorem dropWhile_of_skipGap (h : byteAt (skipGap l).1 0 = 0) :
    l.dropWhile (· != 0) = (skipGap l).1 := by
  obtain ⟨htext, hends⟩ := skipGapText_spec l
  change gapText _ ++ (skipGap l).1 = l at htext
  conv_lhs => rw [← htext]
  rw [dropWhile_append_of_pos fun c hc => by
    rw [bne_iff_ne]
    exact ne_nul_of_mem_gapText hends c hc]
  cases hrest : (skipGap l).1 with
  | nil => rfl
  | cons c rest =>
    rw [hrest, byteAt_zero] at h
    subst h
    rfl

section

variable {t : Text} (ht : IsTerminator t)
include ht

theorem skipGap_terminator (l : Text) : skipGap (t ++ l) = skipGap l :=
  skipGap_append_whitespace l <| all_eq_true.mp <| by rcases ht with rfl | rfl <;> decide

theorem isWhitespace_relined (c : UInt8) (l : Text) (hc : isWhitespace c) :
    skipGap (replaceLineFeeds t (c :: l)) = skipGap (replaceLineFeeds t l) := by
  by_cases hlf : c = byte '\n'
  · subst hlf
    exact skipGap_terminator ht _
  · rw [relined_cons hlf, skipGap_whitespace _ hc]

omit ht in
theorem relined_slash {d : UInt8} (hd : d ≠ byte '\n') (l : Text) :
    replaceLineFeeds t (byte '/' :: d :: l) = byte '/' :: d :: replaceLineFeeds t l := by
  rw [relined_cons (by decide), relined_cons hd]

theorem skipGap_relined_blockComment {body l : Text}
    (hbody : skipBlockComment (body ++ byte '*' :: byte '/' :: l) = (body, true)) :
    skipGap (replaceLineFeeds t (byte '/' :: byte '*' :: (body ++ byte '*' :: byte '/' :: l))) =
      skipGap (replaceLineFeeds t l) := by
  have hskip := skipBlock_relined ht (body ++ byte '*' :: byte '/' :: l)
  rw [hbody, relined_append, relined_cons (by decide), relined_cons (by decide)] at hskip
  rw [relined_slash (by decide), relined_append, relined_cons (by decide), relined_cons (by decide),
    skipGap_blockComment hskip]

theorem skipGap_relined_unclosed {body l : Text}
    (hbody : skipBlockComment (body ++ l) = (body, false)) (hl : byteAt l 0 = 0) :
    skipGap (replaceLineFeeds t (byte '/' :: byte '*' :: (body ++ l))) =
      (replaceLineFeeds t l, some unclosedCommentError) := by
  have hskip := skipBlock_relined ht (body ++ l)
  rw [hbody, relined_append] at hskip
  rw [relined_slash (by decide), relined_append, skipGap_unclosed hskip]
  rw [byteAt_relined (by rw [hl]; decide), hl]

/-- A gap does not depend on the line terminator when it ends in a line feed, and when no line
feed ends a line comment of it. -/
theorem skipGap_relined (l : Text) (hcomment : t = [byte '\r', byte '\n'] ∨
      endsLineComment (skipWhitespaceAndComments l) = false) :
    skipGap (replaceLineFeeds t l) = (replaceLineFeeds t (skipGap l).1, (skipGap l).2) := by
  induction l using gap_induction with
  | nil => rfl
  | whitespace c l hc ih =>
    rw [isWhitespace_relined ht c l hc, skipGap_whitespace l hc]
    refine ih (hcomment.imp_right fun h => ?_)
    rw [skipGapText_cons (gapStep_whitespace l hc)] at h
    exact h
  | lineComment body l hbody hl ih =>
    have hits := skipGapText_cons (gapStep_lineComment hbody hl)
    rw [Nat.add_comm 1, drop_succ_cons, drop_left] at hits
    have hlf : byte '\n' ∉ body := fun h => (hbody _ h).1 rfl
    rw [skipGap_lineComment hbody hl, relined_slash (by decide), relined_append,
      relined_of_notMem hlf]
    by_cases hfeed : byteAt l 0 = byte '\n'
    · obtain ⟨l, rfl⟩ := cons_of_byteAt hfeed (by decide)
      rcases hcomment with rfl | hcomment
      · -- the carriage return becomes part of the comment, which still ends at the line feed
        have hcr : ∀ c ∈ body ++ [byte '\r'], c ≠ byte '\n' ∧ c ≠ 0 := by
          intro c hc
          rcases mem_append.mp hc with hc | hc
          · exact hbody c hc
          · rw [mem_singleton.mp hc]
            decide
        have h := skipGap_lineComment hcr (l := byte '\n' :: replaceLineFeeds
          [byte '\r', byte '\n'] l) (.inl rfl)
        rw [append_assoc] at h
        rw [← ih (.inl rfl), relined_lineFeed]
        exact h.trans (skipGap_whitespace (c := byte '\r') _ (by decide)).symm
      · rw [hits, skipGapText_cons (gapStep_whitespace l (by decide))] at hcomment
        cases hcomment
    · have hends : EndsComment (replaceLineFeeds t l) := by
        rw [EndsComment, byteAt_relined hfeed]
        exact hl
      rw [skipGap_lineComment hbody hends]
      refine ih (hcomment.imp_right fun h => ?_)
      rw [skipGapText_of_byteAt_eq_zero (hl.resolve_left hfeed)]
      rfl
  | blockComment body l hbody ih =>
    have hits := skipGapText_cons (gapStep_blockComment hbody)
    rw [drop_blockComment] at hits
    rw [skipGap_relined_blockComment ht hbody, skipGap_blockComment hbody]
    refine ih (hcomment.imp_right fun h => ?_)
    rw [hits] at h
    exact h
  | unclosedComment body l hbody hl =>
    rw [skipGap_relined_unclosed ht hbody hl, skipGap_unclosed hbody hl]
  | stop c l hc hsla =>
    have hlf : c ≠ byte '\n' := by
      rintro rfl
      exact absurd hc (by decide)
    have hsame := sameLine_relined ht l
    rw [relined_cons hlf, skipGap_stop hc hsla, skipGap_stop hc fun h => ?_, relined_cons hlf]
    exact ⟨mt (hsame.byteAt_iff (by decide)).mp (hsla h).1,
      mt (hsame.byteAt_iff (by decide)).mp (hsla h).2⟩

end

theorem skipGap_of_endsLineComment (l : Text)
    (hcomment : endsLineComment (skipWhitespaceAndComments l) = true) :
    ∃ r, skipGap (replaceLineFeeds [byte '\r'] l) = (replaceLineFeeds [byte '\r'] r, none) ∧
      byteAt r 0 = 0 ∧ (byteAt (skipGap l).1 0 = 0 → r = (skipGap l).1) := by
  have ht : IsTerminator [byte '\r'] := .inl rfl
  induction l using gap_induction with
  | nil => cases hcomment
  | whitespace c l hc ih =>
    rw [isWhitespace_relined ht c l hc, skipGap_whitespace l hc]
    rw [skipGapText_cons (gapStep_whitespace l hc)] at hcomment
    exact ih hcomment
  | lineComment body l hbody hl ih =>
    have hits := skipGapText_cons (gapStep_lineComment hbody hl)
    rw [Nat.add_comm 1, drop_succ_cons, drop_left] at hits
    rw [hits] at hcomment
    have hfeed : byteAt l 0 = byte '\n' := by
      refine hl.resolve_right fun hnul => ?_
      rw [skipGapText_of_byteAt_eq_zero hnul] at hcomment
      cases hcomment
    obtain ⟨l, rfl⟩ := cons_of_byteAt hfeed (by decide)
    have hnul : byteAt (l.dropWhile (· != 0)) 0 = 0 := by
      cases hdrop : l.dropWhile (· != 0) with
      | nil => rfl
      | cons c r =>
        have hhead := head_dropWhile_not (· != (0 : UInt8)) (l := l)
          (by rw [hdrop]; exact cons_ne_nil _ _)
        simpa [hdrop] using hhead
    have hends : byteAt (replaceLineFeeds [byte '\r'] (l.dropWhile (· != 0))) 0 = 0 := by
      rw [byteAt_relined (by rw [hnul]; decide), hnul]
    -- the comment takes the carriage return and everything up to the NUL byte
    have hlong : ∀ c ∈ body ++ byte '\r' :: replaceLineFeeds [byte '\r'] (l.takeWhile (· != 0)),
        c ≠ byte '\n' ∧ c ≠ 0 := by
      intro c hc
      rw [mem_append, mem_cons] at hc
      rcases hc with hc | rfl | hc
      · exact hbody c hc
      · decide
      · obtain ⟨hlf, hmem⟩ := mem_relined hc
        rcases hmem with hmem | rfl
        · exact ⟨hlf, by simpa using mem_takeWhile_imp hmem⟩
        · decide
    refine ⟨l.dropWhile (· != 0), ?_, hnul, fun h => ?_⟩
    · have h := skipGap_lineComment hlong (.inr hends)
      rw [skipGap_of_byteAt_eq_zero hends, append_assoc, cons_append,
        ← relined_append, takeWhile_append_dropWhile] at h
      rw [relined_slash (by decide), relined_append,
        relined_of_notMem fun h => (hbody _ h).1 rfl, relined_lineFeed]
      exact h
    · rw [skipGap_lineComment hbody hl, skipGap_whitespace l (by decide)] at h ⊢
      exact dropWhile_of_skipGap h
  | blockComment body l hbody ih =>
    have hits := skipGapText_cons (gapStep_blockComment hbody)
    rw [drop_blockComment] at hits
    rw [hits] at hcomment
    rw [skipGap_relined_blockComment ht hbody, skipGap_blockComment hbody]
    exact ih hcomment
  | unclosedComment body l hbody hl =>
    have hits := skipGapText_cons (gapStep_unclosed hbody)
    rw [hits, Nat.add_comm 1, drop_succ_cons, drop_left,
      skipGapText_of_byteAt_eq_zero hl] at hcomment
    cases hcomment
  | stop c l hc hsla =>
    rw [skipWhitespaceAndComments, Scan.run_stop gapStep (gapStep_stop hc hsla)] at hcomment
    cases hcomment

/-! ### Tokens -/

/-- A number whose digits are followed by a decimal point and a line feed. -/
def PointEndsLine (l : Text) : Prop :=
  isdigit (byteAt l 0) ∧ byteAt l (digitRun l) = byte '.' ∧ byteAt l (digitRun l + 1) = byte '\n'

section

variable {t : Text} (ht : IsTerminator t)
include ht

/-- A token other than a quoted literal does not depend on the line terminator, unless it is a
number with a decimal point at the end of the line. -/
theorem token_relined {c : UInt8} {l : Text} (hq : isQuote c = false)
    (hc : c ≠ byte '\n') (hpt : ¬ PointEndsLine (c :: l)) :
    scanToken (replaceLineFeeds t (c :: l)) = scanToken (c :: l) := by
  rw [relined_cons hc]
  refine token_sameLine (sameLine_relined ht l) hq fun hdig hdot => ?_
  have hnext : byteAt (c :: l) (digitRun (c :: l) + 1) ≠ byte '\n' := fun h =>
    hpt ⟨hdig, hdot, h⟩
  -- the digits and the decimal point are in both texts, and so is the byte after them
  have hline : byte '\n' ∉ (c :: l).take (digitRun (c :: l) + 1) := by
    intro hmem
    rw [List.take_add, mem_append] at hmem
    rcases hmem with hmem | hmem
    · have htake : (c :: l).take (digitRun (c :: l)) = (c :: l).takeWhile isDigitOrSeparator :=
        (prefix_iff_eq_take.mp (List.takeWhile_prefix _)).symm
      rw [htake] at hmem
      exact absurd (mem_takeWhile_imp hmem) (by decide)
    · obtain ⟨r, hr⟩ := cons_of_byteAt (l := (c :: l).drop (digitRun (c :: l)))
        (c := byte '.') (by rw [byteAt_drop, Nat.add_zero, hdot]) (by decide)
      rw [hr, take_succ_cons, take_zero, mem_singleton] at hmem
      exact absurd hmem (by decide)
  have hdrop := (relined_take_drop (t := t) hline).2
  rw [relined_cons hc] at hdrop
  have hbyte := congrArg (fun l => byteAt l 0) hdrop
  rw [byteAt_drop, Nat.add_zero, byteAt_relined
    (by rw [byteAt_drop, Nat.add_zero]; exact hnext), byteAt_drop, Nat.add_zero] at hbyte
  rw [hbyte]

/-! ### Strings -/

omit ht in
theorem nested_relined {quote : UInt8} {escaped : Bool} {l : Text}
    (h : byte '\n' ∉ nestedLiteral quote escaped l) :
    nestedLiteral quote escaped (replaceLineFeeds t l) = nestedLiteral quote escaped l := by
  induction l generalizing escaped with
  | nil => rfl
  | cons c l ih =>
    cases escaped with
    | true =>
      rw [nestedLiteral, mem_cons, not_or] at h
      rw [relined_cons (Ne.symm h.1), nestedLiteral, nestedLiteral, ih h.2]
    | false =>
      rw [nestedLiteral] at h
      by_cases hnul : c = 0
      · subst hnul
        rw [relined_cons (by decide), nestedLiteral, nestedLiteral, if_pos rfl, if_pos rfl]
      rw [if_neg hnul] at h
      by_cases hq : c = quote
      · rw [if_pos hq, mem_singleton] at h
        rw [relined_cons (Ne.symm h), nestedLiteral, nestedLiteral, if_neg hnul,
          if_neg hnul, if_pos hq, if_pos hq]
      rw [if_neg hq, mem_cons, not_or] at h
      rw [relined_cons (Ne.symm h.1), nestedLiteral, nestedLiteral, if_neg hnul,
        if_neg hnul, if_neg hq, if_neg hq]
      by_cases hfeed : byteAt l 0 = byte '\n'
      · -- the byte after `c` is part of the literal, so it is no line feed
        obtain ⟨l, rfl⟩ := cons_of_byteAt hfeed (by decide)
        refine absurd ?_ h.2
        cases c == byte '\\' && byteAt (byte '\n' :: l) 0 != 0 with
        | true => exact mem_cons_self ..
        | false =>
          rw [nestedLiteral, if_neg (by decide)]
          split_ifs <;> exact mem_cons_self ..
      · rw [byteAt_relined hfeed, ih h.2]

theorem stringStep_relined {s : StringState} {c : UInt8} {l : Text}
    {round : Scan.Round StringState (List StringItem)} (h : stringStep s (c :: l) = some round)
    (hline : byte '\n' ∉ (c :: l).take (round.extra + 1)) :
    stringStep s (c :: replaceLineFeeds t l) = some round := by
  have hsame := sameLine_relined ht l
  have hrnd := stringStep_cases h
  cases hrnd with
  | escape =>
    refine Eq.trans (StringRound.escape _).step ?_
    cases l with
    | nil => rfl
    | cons d l =>
      have hd : d ≠ byte '\n' := by
        rintro rfl
        refine hline ?_
        have htakes := escapeRound_takes s (byte '\n') l
        have hextra : (escapeRound s (byte '\\' :: byte '\n' :: l)).extra = 1 := by
          rw [escapeRound]
          rfl
        rw [hextra]
        exact mem_cons_of_mem _ (mem_cons_self ..)
      rw [relined_cons hd, escapeRound_sameLine s (sameLine_relined ht l)]
  | openBody _ hopen => exact (StringRound.openBody _ ((hsame.byteAt_iff (by decide)).mpr hopen)).step
  | nested _ _ hq hdep =>
    have hnest : byte '\n' ∉ nestedLiteral c false l := by
      rw [take_succ_cons, ← prefix_iff_eq_take.mp (nested_beginning c false l)] at hline
      exact fun hmem => hline (mem_cons_of_mem c hmem)
    rw [← nested_relined (t := t) hnest]
    exact (StringRound.nested c _ hq hdep).step
  | openBrace _ hdep => exact (StringRound.openBrace _ hdep).step
  | closeBrace _ hdep => exact (StringRound.closeBrace _ hdep).step
  | plain _ _ hpl =>
    exact (StringRound.plain c _ { hpl with
      not_open := fun h => hpl.not_open ⟨h.1, (hsame.byteAt_iff (by decide)).mp h.2⟩ }).step

theorem run_stringStep_relined (s : StringState) (l u : Text)
    (hu : u ++ (Scan.run stringStep s l).rest = l) (hline : byte '\n' ∉ u) :
    Scan.run stringStep s (replaceLineFeeds t l) =
      let next := Scan.run stringStep (Scan.run stringStep s l).state
        (replaceLineFeeds t (Scan.run stringStep s l).rest)
      ⟨(Scan.run stringStep s l).outputs ++ next.outputs, next.state, next.rest⟩ := by
  revert u
  refine Scan.run_induct stringStep (P := fun s l r => ∀ u, u ++ r.rest = l → byte '\n' ∉ u →
    Scan.run stringStep s (replaceLineFeeds t l) =
      let next := Scan.run stringStep r.state (replaceLineFeeds t r.rest)
      ⟨r.outputs ++ next.outputs, next.state, next.rest⟩)
    (fun _ _ _ _ => rfl) (fun _ _ _ _ _ _ _ => rfl) ?_ s l
  intro s c l round h ih u hu hline
  obtain ⟨u', hu'⟩ := Scan.rest_suffix stringStep round.state (l.drop round.extra)
  have hspl : u = (c :: l).take (round.extra + 1) ++ u' := by
    have htot : u ++ (Scan.run stringStep round.state (l.drop round.extra)).rest =
        ((c :: l).take (round.extra + 1) ++ u') ++
          (Scan.run stringStep round.state (l.drop round.extra)).rest := by
      rw [append_assoc, hu']
      exact hu.trans (take_append_drop (round.extra + 1) (c :: l)).symm
    exact append_cancel_right htot
  rw [hspl, mem_append, not_or] at hline
  have hc : c ≠ byte '\n' := by
    rintro rfl
    exact hline.1 (mem_cons_self ..)
  have htake : byte '\n' ∉ l.take round.extra := fun hmem =>
    hline.1 (mem_cons_of_mem c hmem)
  rw [relined_cons hc, Scan.run_cons stringStep (stringStep_relined ht h hline.1),
    (relined_take_drop htake).2, ih u' hu' hline.2]
  rfl

/-- A string literal that a line feed cuts short. -/
def StringEndsLine (l : Text) : Prop :=
  byteAt l 0 = byte '"' ∧ byteAt (scanString (l.drop 1)).rest 0 = byte '\n'

omit ht in
theorem lineFeed_notMem_of_string {l u : Text} (hu : u ++ (scanString l).rest = l)
    (hline : byte '\n' ∉ (byte '"' :: l).take (readString (byte '"' :: l)).length) :
    byte '\n' ∉ u := by
  obtain ⟨taken, htaken, hsrc⟩ := scanString_source ⟨0, none⟩ l
  change taken ++ (scanString l).rest = l at htaken
  have heq : u = taken := append_cancel_right (hu.trans htaken.symm)
  subst heq
  have hle : u.length + 1 ≤ (readString (byte '"' :: l)).length := by
    have hlen : u.length ≤ (itemsSource (scanString l).outputs.flatten).length := by
      rcases hsrc with h | ⟨h, -⟩
      · exact Nat.le_of_eq (congrArg List.length h).symm
      · rw [scanString, h, length_append]
        exact Nat.le_add_right _ _
    rw [string_cons]
    split_ifs
    · rw [TokenScan.ofError_length]
      omega
    · change _ ≤ 1 + _
      omega
  intro hmem
  refine hline (mem_of_mem_take (i := u.length + 1) ?_)
  rw [take_take, Nat.min_eq_left hle, take_succ_cons]
  refine mem_cons_of_mem _ ?_
  rw [← hu, take_left]
  exact hmem

omit ht in
theorem scanString_stop (l : Text) : (scanString l).rest = [] ∨ byteAt (scanString l).rest 0 = 0 ∨
    ((scanString l).state.braceDepth = 0 ∧
      (byteAt (scanString l).rest 0 = byte '"' ∨ byteAt (scanString l).rest 0 = byte '\n')) := by
  rcases Scan.run_rest stringStep ⟨0, none⟩ l with h | h
  · exact .inl h
  · change stringStep (scanString l).state (scanString l).rest = none at h
    cases hrest : (scanString l).rest with
    | nil => exact .inl rfl
    | cons c r =>
      rw [hrest, stringStep_eq_none] at h
      exact .inr h

theorem scanString_relined {l u : Text} (hu : u ++ (scanString l).rest = l)
    (hline : byte '\n' ∉ u) (hend : byteAt (scanString l).rest 0 ≠ byte '\n') :
    scanString (replaceLineFeeds t l) = ⟨(scanString l).outputs, (scanString l).state,
      replaceLineFeeds t (scanString l).rest⟩ := by
  have hrun := run_stringStep_relined ht ⟨0, none⟩ l u hu hline
  change scanString (replaceLineFeeds t l) = _ at hrun
  have hstop : Scan.run stringStep (scanString l).state (replaceLineFeeds t (scanString l).rest) =
      ⟨[], (scanString l).state, replaceLineFeeds t (scanString l).rest⟩ := by
    have hnone := scanString_stop l
    cases hrest : (scanString l).rest with
    | nil => rfl
    | cons c r =>
      rw [hrest, byteAt_zero] at hnone hend
      rw [relined_cons hend]
      refine Scan.run_stop stringStep (stringStep_eq_none.mpr ?_)
      exact hnone.resolve_left (cons_ne_nil _ _)
  rw [hrun]
  change _ = Scan.Result.mk _ _ _
  dsimp only
  rw [← scanString, hstop, append_nil]

theorem string_relined {l : Text}
    (hline : byte '\n' ∉ (byte '"' :: l).take (readString (byte '"' :: l)).length)
    (hend : ¬ StringEndsLine (byte '"' :: l)) :
    readString (replaceLineFeeds t (byte '"' :: l)) = readString (byte '"' :: l) := by
  obtain ⟨u, hu, -⟩ := scanString_split l
  have hfeed : byteAt (scanString l).rest 0 ≠ byte '\n' := fun h => hend ⟨rfl, h⟩
  have hscan := scanString_relined ht hu (lineFeed_notMem_of_string hu hline) hfeed
  rw [relined_cons (by decide)]
  rw [string_cons, string_cons]
  simp only [hscan, byteAt_relined hfeed, stringError]

end

theorem string_of_endsLine (hend : StringEndsLine (byte '"' :: l)) :
    readString (byte '"' :: l) = .illegal stringLineError
      (1 + (itemsSource (scanString l).outputs.flatten).length) := by
  have hfeed : byteAt (scanString l).rest 0 = byte '\n' := hend.2
  rw [string_cons, if_neg (by rw [hfeed]; decide), stringError, if_pos hfeed]
  rfl

theorem string_message_ne (hline : byte '\n' ∉ l)
    (htype : (readString (byte '"' :: l)).type = .illegal) :
    (readString (byte '"' :: l)).literal ≠ stringLineError.message := by
  obtain ⟨u, hu, -⟩ := scanString_split l
  have hfeed : byteAt (scanString l).rest 0 ≠ byte '\n' := by
    intro h
    obtain ⟨r, hr⟩ := cons_of_byteAt h (by decide)
    refine hline ?_
    rw [← hu, hr]
    exact mem_append_right _ (mem_cons_self ..)
  have herr : ∀ e, stringError (scanString l) = some e → e.message ≠ stringLineError.message := by
    intro e h
    simp only [stringError, if_neg hfeed, Option.orElse_eq_orElse, Option.orElse_eq_or,
      Option.or_eq_some_iff] at h
    rcases h with h | ⟨-, h⟩
    · intro heq
      have hesc := scanString_escapeErrors l e h
      rw [heq] at hesc
      exact absurd hesc (by decide)
    · rw [checkUtf8_message h]
      decide
  rw [string_cons] at htype ⊢
  split_ifs at htype ⊢
  · cases h : stringError (scanString l) with
    | none =>
      rw [h] at htype
      cases htype
    | some e => exact herr e h
  · cases h : stringError (scanString l) with
    | none =>
      exact show unclosedStringError.message ≠ stringLineError.message by decide
    | some e => exact herr e h

/-! ### Raw strings and characters -/

section

variable {t : Text}

theorem takeWhile_relined {p : UInt8 → Bool} {l : Text}
    (hline : byte '\n' ∉ l.takeWhile p) (hend : byteAt (l.dropWhile p) 0 ≠ byte '\n') :
    (replaceLineFeeds t l).takeWhile p = l.takeWhile p ∧
      (replaceLineFeeds t l).dropWhile p = replaceLineFeeds t (l.dropWhile p) := by
  induction l with
  | nil => exact ⟨rfl, rfl⟩
  | cons c l ih =>
    cases hc : p c with
    | false =>
      rw [dropWhile_cons_of_neg (by simp [hc]), byteAt_zero] at hend
      rw [relined_cons hend]
      simp [hc, relined_cons hend]
    | true =>
      rw [takeWhile_cons_of_pos hc, mem_cons, not_or] at hline
      rw [dropWhile_cons_of_pos hc] at hend
      obtain ⟨htake, hdrop⟩ := ih hline.2 hend
      rw [relined_cons (Ne.symm hline.1)]
      simp [hc, htake, hdrop]

theorem rawString_relined {l : Text}
    (hline : byte '\n' ∉ (byte '\x60' :: l).take (readRawString (byte '\x60' :: l)).length) :
    readRawString (replaceLineFeeds t (byte '\x60' :: l)) = readRawString (byte '\x60' :: l) := by
  have hle : (l.takeWhile isRawStringByte).length + 1 ≤
      (readRawString (byte '\x60' :: l)).length := by
    rw [rawString_cons]
    split_ifs
    · rw [TokenScan.ofError_length]
      omega
    · change _ ≤ 1 + _
      omega
  have htext : byte '\n' ∉ l.takeWhile isRawStringByte := by
    intro h
    refine hline (mem_of_mem_take (i := (l.takeWhile isRawStringByte).length + 1) ?_)
    rw [take_take, Nat.min_eq_left hle, take_succ_cons,
      ← prefix_iff_eq_take.mp (List.takeWhile_prefix _)]
    exact mem_cons_of_mem _ h
  have hend : byteAt (l.dropWhile isRawStringByte) 0 ≠ byte '\n' := by
    cases hdrop : l.dropWhile isRawStringByte with
    | nil => exact fun h => absurd h (by decide)
    | cons c r =>
      have hhead := head_dropWhile_not isRawStringByte (l := l)
        (by rw [hdrop]; exact cons_ne_nil _ _)
      simp only [hdrop, head_cons] at hhead
      rintro rfl
      exact absurd hhead (by decide)
  obtain ⟨htake, hdrop⟩ := takeWhile_relined (t := t) htext hend
  rw [relined_cons (by decide), rawString_cons, rawString_cons, htake, hdrop,
    byteAt_relined hend]

theorem charEscape_le (a b : UInt8) (l : Text) : 2 ≤ (readCharEscape (a :: b :: l)).1 := by
  rw [charEscape_cons]
  split_ifs <;> dsimp only <;> omega

variable (ht : IsTerminator t)
include ht

theorem readCharHead_relined {l : Text} (hline : byte '\n' ∉ l.take (readCharHead l).1) :
    readCharHead (replaceLineFeeds t l) = readCharHead l := by
  cases l with
  | nil => rfl
  | cons c l =>
    have hsame := sameLine_relined ht l
    have hc : c ≠ byte '\n' := by
      rintro rfl
      have hhead : (readCharHead (byte '\n' :: l)).1 = 1 := rfl
      rw [hhead] at hline
      exact hline (mem_cons_self ..)
    rw [relined_cons hc]
    by_cases hesc : c = byte '\\'
    · subst hesc
      have hhead : ∀ l, readCharHead (byte '\\' :: l) = readCharEscape (byte '\\' :: l) :=
        fun _ => rfl
      rw [hhead] at hline
      rw [hhead, hhead]
      cases l with
      | nil => rfl
      | cons d l =>
        have hd : d ≠ byte '\n' := by
          rintro rfl
          refine hline (mem_of_mem_take (i := 2) ?_)
          rw [take_take, Nat.min_eq_left (charEscape_le _ _ l)]
          exact mem_cons_of_mem _ (mem_cons_self ..)
        rw [relined_cons hd, charEscape_sameLine (sameLine_relined ht l)]
    · unfold readCharHead
      rw [(utf8Decode_sameLine hsame).1]
      simp only [byteAt_zero, hesc, if_false]
      rfl

omit ht in
theorem lineFeed_notMem_of_charLiteral {l : Text}
    (hline : byte '\n' ∉ (byte '\'' :: l).take (readCharLiteral (byte '\'' :: l)).length) :
    byte '\n' ∉ l.take (scanCharacter l).1 := by
  intro h
  have hle : (scanCharacter l).1 + 1 ≤ (readCharLiteral (byte '\'' :: l)).length := by
    rw [charLiteral_cons]
    split_ifs
    · rw [TokenScan.ofError_length]
      omega
    · change _ ≤ 1 + _
      omega
  refine hline (mem_of_mem_take (i := (scanCharacter l).1 + 1) ?_)
  rw [take_take, Nat.min_eq_left hle, take_succ_cons]
  exact mem_cons_of_mem _ h

omit ht in
theorem readCharHead_le_scanChar (l : Text) : (readCharHead l).1 ≤ (scanCharacter l).1 := by
  cases h : (readCharHead l).2 with
  | some e => rw [scanChar_of_error h]
  | none =>
    rw [scanChar_of_none h]
    exact Nat.le_add_right _ _

/-- A character literal that no line feed cuts short: it is complete, or its first character is
wrong. -/
def CharEndsLine (l : Text) : Prop :=
  byteAt l 0 = byte '\'' ∧ (scanCharacter (l.drop 1)).2 = none ∧
    byteAt (l.drop 1) (scanCharacter (l.drop 1)).1 = byte '\n'

theorem scanChar_relined {l : Text} (hline : byte '\n' ∉ l.take (scanCharacter l).1)
    (hend : ¬ CharEndsLine (byte '\'' :: l)) :
    scanCharacter (replaceLineFeeds t l) = scanCharacter l := by
  have hhead : byte '\n' ∉ l.take (readCharHead l).1 := fun h => hline <| by
    rw [← Nat.min_eq_left (readCharHead_le_scanChar l), ← take_take] at h
    exact mem_of_mem_take h
  have heq := readCharHead_relined ht hhead
  cases herr : (readCharHead l).2 with
  | some e =>
    rw [scanChar_of_error herr, scanChar_of_error (by rw [heq]; exact herr), heq]
  | none =>
    rw [scanChar_of_none herr, scanChar_of_none (by rw [heq]; exact herr), heq,
      (relined_take_drop hhead).2]
    have hnot : byteAt ((l.drop (readCharHead l).1).dropWhile isCharTailByte) 0 ≠ byte '\n' := by
      intro h
      refine hend ⟨rfl, ?_, ?_⟩
      · rw [drop_succ_cons, drop_zero, scanChar_of_none herr, h]
        exact if_neg fun h => absurd h.2 (by decide)
      · rw [← h, drop_succ_cons, drop_zero, scanChar_of_none herr, charTail_eq,
          ← Scan.drop_length_takeWhile, byteAt_drop, byteAt_drop, Nat.add_zero]
    obtain ⟨htake, hdrop⟩ := takeWhile_relined (t := t)
      (fun h => absurd (mem_takeWhile_imp h) (by decide)) hnot
    rw [charTail_eq, charTail_eq, htake, hdrop, byteAt_relined hnot]

theorem charLiteral_relined {l : Text}
    (hline : byte '\n' ∉ (byte '\'' :: l).take (readCharLiteral (byte '\'' :: l)).length)
    (hend : ¬ CharEndsLine (byte '\'' :: l)) :
    readCharLiteral (replaceLineFeeds t (byte '\'' :: l)) = readCharLiteral (byte '\'' :: l) := by
  have hnotMem := lineFeed_notMem_of_charLiteral hline
  have hscan := scanChar_relined ht hnotMem hend
  have hq : byteAt (replaceLineFeeds t l) (scanCharacter l).1 = byte '\'' ↔
      byteAt l (scanCharacter l).1 = byte '\'' := by
    have h := (sameLine_relined ht (l.drop (scanCharacter l).1)).byteAt_iff
      (c := byte '\'') (by decide)
    rwa [← (relined_take_drop hnotMem).2, byteAt_drop, byteAt_drop, Nat.add_zero] at h
  rw [relined_cons (by decide), charLiteral_cons, charLiteral_cons, hscan,
    (relined_take_drop hnotMem).1]
  exact if_congr hq rfl rfl

end

/-! ### Characters that a line feed cuts short -/

def unclosedCharError : LexError := lexError "E1005" "unclosed character literal"

/-- A byte that a character literal takes when no line feed follows. -/
def isCharLineByte (c : UInt8) : Bool := c != byte '\'' && c != 0

theorem CharEndsLine.exists_tail (hend : CharEndsLine (byte '\'' :: l)) :
    ∃ tail e, (readCharHead l).2 = none ∧ l.drop (readCharHead l).1 = tail ++ byte '\n' :: e ∧
      (∀ c ∈ tail, isCharTailByte c) ∧ (scanCharacter l).1 = (readCharHead l).1 + tail.length := by
  obtain ⟨-, hnone, hfeed⟩ := hend
  rw [drop_succ_cons, drop_zero] at hnone hfeed
  cases herr : (readCharHead l).2 with
  | some e =>
    rw [scanChar_of_error herr, herr] at hnone
    cases hnone
  | none =>
    have hbyte : byteAt ((l.drop (readCharHead l).1).dropWhile isCharTailByte) 0 = byte '\n' := by
      rw [← hfeed, scanChar_of_none herr, charTail_eq, ← Scan.drop_length_takeWhile,
        byteAt_drop, byteAt_drop, Nat.add_zero]
    obtain ⟨e, he⟩ := cons_of_byteAt hbyte (by decide)
    refine ⟨(l.drop (readCharHead l).1).takeWhile isCharTailByte, e, rfl, ?_, fun c hc =>
      mem_takeWhile_imp hc, by rw [scanChar_of_none herr, charTail_eq]⟩
    rw [← he, takeWhile_append_dropWhile]

theorem scanChar_carriageReturn {l tail e : Text} (herr : (readCharHead l).2 = none)
    (hl : l.drop (readCharHead l).1 = tail ++ byte '\r' :: e) (htail : ∀ c ∈ tail, isCharTailByte c) :
    scanCharacter l = ((readCharHead l).1 + (tail.length + 1 + (e.takeWhile isCharTailByte).length),
      if byteAt (e.dropWhile isCharTailByte) 0 = byte '\'' then some charLengthError else none) := by
  have htake : (tail ++ byte '\r' :: e).takeWhile isCharTailByte =
      tail ++ byte '\r' :: e.takeWhile isCharTailByte := by
    rw [takeWhile_append_of_pos htail, takeWhile_cons_of_pos (by decide)]
  have hdrop : (tail ++ byte '\r' :: e).dropWhile isCharTailByte = e.dropWhile isCharTailByte := by
    rw [dropWhile_append_of_pos htail, dropWhile_cons_of_pos (by decide)]
  rw [scanChar_of_none herr, charTail_eq, hl, htake, hdrop, length_append, length_cons]
  refine Prod.ext ?_ (if_congr (and_iff_right (by omega)) rfl rfl)
  dsimp only
  omega

theorem takeWhile_isCharTailByte {t : Text} (ht : t = [byte '\r']) (e : Text) :
    (replaceLineFeeds t e).takeWhile isCharTailByte =
        replaceLineFeeds t (e.takeWhile isCharLineByte) ∧
      (replaceLineFeeds t e).dropWhile isCharTailByte =
        replaceLineFeeds t (e.dropWhile isCharLineByte) := by
  subst ht
  induction e with
  | nil => exact ⟨rfl, rfl⟩
  | cons c e ih =>
    by_cases hlf : c = byte '\n'
    · subst hlf
      rw [relined_lineFeed, singleton_append, takeWhile_cons_of_pos (by decide),
        dropWhile_cons_of_pos (by decide), takeWhile_cons_of_pos (by decide),
        dropWhile_cons_of_pos (by decide), ih.1, ih.2]
      exact ⟨rfl, rfl⟩
    · have hsame : isCharTailByte c = isCharLineByte c := by
        rw [isCharTailByte, bne_iff_ne.mpr hlf, Bool.and_true]
        rfl
      rw [relined_cons hlf]
      cases hc : isCharLineByte c with
      | true =>
        rw [takeWhile_cons_of_pos (by rw [hsame, hc]), takeWhile_cons_of_pos hc,
          dropWhile_cons_of_pos (by rw [hsame, hc]), dropWhile_cons_of_pos hc, ih.1, ih.2,
          relined_cons hlf]
        exact ⟨rfl, rfl⟩
      | false =>
        rw [takeWhile_cons_of_neg (by simp [hsame, hc]), takeWhile_cons_of_neg (by simp [hc]),
          dropWhile_cons_of_neg (by simp [hsame, hc]),
          dropWhile_cons_of_neg (by simp [hc]), relined_cons hlf]
        exact ⟨rfl, rfl⟩

theorem charLiteral_of_endsLine (hend : CharEndsLine (byte '\'' :: l)) :
    readCharLiteral (byte '\'' :: l) = .illegal unclosedCharError (1 + (scanCharacter l).1) := by
  obtain ⟨-, hnone, hfeed⟩ := hend
  rw [drop_succ_cons, drop_zero] at hnone hfeed
  rw [charLiteral_cons, if_neg (by rw [hfeed]; decide), hnone]
  rfl

theorem CharEndsLine.replaceLineFeeds {t l : Text} (ht : IsTerminator (byte '\r' :: t))
    (hline : byte '\n' ∉ (byte '\'' :: l).take (readCharLiteral (byte '\'' :: l)).length)
    (hend : CharEndsLine (byte '\'' :: l)) : ∃ e, l.drop (scanCharacter l).1 = byte '\n' :: e ∧
      (replaceLineFeeds (byte '\r' :: t) l).drop (scanCharacter l).1 =
        byte '\r' :: (t ++ replaceLineFeeds (byte '\r' :: t) e) ∧
      scanCharacter (replaceLineFeeds (byte '\r' :: t) l) =
        ((scanCharacter l).1 + (1 + ((t ++ replaceLineFeeds (byte '\r' :: t) e).takeWhile
            isCharTailByte).length),
          if byteAt ((t ++ replaceLineFeeds (byte '\r' :: t) e).dropWhile isCharTailByte) 0 =
            byte '\'' then some charLengthError else none) := by
  have hnotMem := lineFeed_notMem_of_charLiteral hline
  obtain ⟨tail, e, herr, hl, htail, hlen⟩ := hend.exists_tail
  have hhead : byte '\n' ∉ l.take (readCharHead l).1 := fun h => hnotMem <| by
    rw [← Nat.min_eq_left (readCharHead_le_scanChar l), ← take_take] at h
    exact mem_of_mem_take h
  have heq := readCharHead_relined ht hhead
  have hdrop : (Grayscale.replaceLineFeeds (byte '\r' :: t) l).drop (readCharHead l).1 =
      tail ++ byte '\r' :: (t ++ Grayscale.replaceLineFeeds (byte '\r' :: t) e) := by
    rw [(relined_take_drop hhead).2, hl, relined_append,
      relined_of_notMem fun h => absurd (htail _ h) (by decide)]
    rfl
  refine ⟨e, ?_, ?_, ?_⟩
  · rw [hlen, ← drop_drop, hl, drop_left]
  · rw [hlen, ← drop_drop, hdrop, drop_left]
  · rw [scanChar_carriageReturn (by rw [heq, herr]) (by rw [heq, hdrop]) htail, heq,
      hlen, Nat.add_assoc, Nat.add_assoc]

/-- A character literal that a line feed cuts short, in the text with a carriage return in front
of the line feed: the literal takes the carriage return, and still ends at the line feed. -/
theorem charLiteral_carriageReturn
    (hline : byte '\n' ∉ (byte '\'' :: l).take (readCharLiteral (byte '\'' :: l)).length)
    (hend : CharEndsLine (byte '\'' :: l)) :
    ∃ n r, readCharLiteral (byte '\'' :: l) = .illegal unclosedCharError n ∧
      (byte '\'' :: l).drop n = byte '\n' :: r ∧
      readCharLiteral (replaceLineFeeds [byte '\r', byte '\n'] (byte '\'' :: l)) =
        .illegal unclosedCharError (n + 1) ∧
      (replaceLineFeeds [byte '\r', byte '\n'] (byte '\'' :: l)).drop (n + 1) =
        byte '\n' :: replaceLineFeeds [byte '\r', byte '\n'] r := by
  obtain ⟨e, hdrop, hrepl, hscan⟩ := hend.replaceLineFeeds (.inr rfl) hline
  rw [singleton_append, takeWhile_cons_of_neg (by decide),
    dropWhile_cons_of_neg (by decide), byteAt_zero, if_neg (by decide)] at hscan
  have haft := congrArg (List.drop 1) hrepl
  rw [drop_drop] at haft
  refine ⟨(scanCharacter l).1 + 1, e, ?_, hdrop, ?_, ?_⟩
  · rw [charLiteral_of_endsLine hend, Nat.add_comm]
  · have hends : CharEndsLine (byte '\'' :: replaceLineFeeds [byte '\r', byte '\n'] l) := by
      refine ⟨rfl, ?_, ?_⟩
      · rw [drop_succ_cons, drop_zero, hscan]
      · rw [drop_succ_cons, drop_zero, hscan]
        have hbyte := congrArg (fun l => byteAt l 0) haft
        rwa [byteAt_drop] at hbyte
    rw [relined_cons (by decide), charLiteral_of_endsLine hends, hscan]
    exact congrArg _ (Nat.add_comm 1 _)
  · rw [relined_cons (by decide), drop_succ_cons, haft]
    rfl

/-- A character literal that a line feed cuts short, in the text with carriage returns: it goes
on to the next quote, and without one to the NUL byte or the end. -/
theorem charLiteral_of_endsLine_carriageReturn
    (hline : byte '\n' ∉ (byte '\'' :: l).take (readCharLiteral (byte '\'' :: l)).length)
    (hend : CharEndsLine (byte '\'' :: l)) :
    ∃ n r, readCharLiteral (byte '\'' :: l) = .illegal unclosedCharError n ∧
      (byte '\'' :: l).drop n = byte '\n' :: r ∧
      (byteAt (r.dropWhile isCharLineByte) 0 = byte '\'' →
        ∃ m, readCharLiteral (replaceLineFeeds [byte '\r'] (byte '\'' :: l)) =
          .illegal charLengthError m) ∧ (byteAt (r.dropWhile isCharLineByte) 0 = 0 →
        ∃ m, readCharLiteral (replaceLineFeeds [byte '\r'] (byte '\'' :: l)) =
            .illegal unclosedCharError m ∧ (replaceLineFeeds [byte '\r'] (byte '\'' :: l)).drop m =
            replaceLineFeeds [byte '\r'] (r.dropWhile isCharLineByte)) := by
  obtain ⟨e, hdrop, hrepl, hscan⟩ := hend.replaceLineFeeds (.inl rfl) hline
  rw [nil_append] at hrepl hscan
  have haft : (replaceLineFeeds [byte '\r'] l).drop
      (scanCharacter (replaceLineFeeds [byte '\r'] l)).1 =
        replaceLineFeeds [byte '\r'] (e.dropWhile isCharLineByte) := by
    rw [hscan, ← drop_drop, hrepl, Nat.add_comm 1, drop_succ_cons,
      Scan.drop_length_takeWhile, (takeWhile_isCharTailByte rfl e).2]
  rw [(takeWhile_isCharTailByte rfl e).2] at hscan
  have hbyte : byteAt (replaceLineFeeds [byte '\r'] l)
      (scanCharacter (replaceLineFeeds [byte '\r'] l)).1 =
        byteAt (replaceLineFeeds [byte '\r'] (e.dropWhile isCharLineByte)) 0 := by
    rw [← haft, byteAt_drop, Nat.add_zero]
  refine ⟨(scanCharacter l).1 + 1, e, ?_, hdrop, fun hq => ?_, fun hnul => ?_⟩
  · rw [charLiteral_of_endsLine hend, Nat.add_comm]
  · have hreplace := byteAt_relined (t := [byte '\r']) (l := e.dropWhile isCharLineByte)
      (by rw [hq]; decide)
    rw [hreplace, hq] at hbyte hscan
    rw [if_pos rfl] at hscan
    rw [relined_cons (by decide), charLiteral_cons, if_pos hbyte, hscan]
    exact ⟨_, rfl⟩
  · have hreplace := byteAt_relined (t := [byte '\r']) (l := e.dropWhile isCharLineByte)
      (by rw [hnul]; decide)
    rw [hreplace, hnul] at hbyte hscan
    rw [if_neg (by decide)] at hscan
    refine ⟨(scanCharacter (replaceLineFeeds [byte '\r'] l)).1 + 1, ?_, ?_⟩
    · rw [relined_cons (by decide), charLiteral_cons, if_neg (by rw [hbyte]; decide),
        Nat.add_comm, hscan]
      rfl
    · rw [relined_cons (by decide), drop_succ_cons, haft]

/-! ### Calls -/

/-- Nothing but a gap is left up to the first NUL byte, or the end. -/
def OnlyGapLeft (l : Text) : Prop := (skipGap l).2 = none ∧ byteAt (skipGap l).1 0 = 0

/-- A call on which no construct ends at a line feed only, or on which nothing but a gap follows
such a construct. -/
structure LineEndsHarmless (l : Text) : Prop where
  comment : endsLineComment (skipWhitespaceAndComments l) → OnlyGapLeft l
  point : (skipGap l).2 = none → ¬ PointEndsLine (skipGap l).1
  string : (skipGap l).2 = none → ¬ StringEndsLine (skipGap l).1
  character : (skipGap l).2 = none → CharEndsLine (skipGap l).1 →
    OnlyGapLeft (nextRest l) ∧ byte '\'' ∉ (nextRest l).takeWhile (· != 0)

/-- A call that does not return a quoted literal with a line feed in it. -/
def LiteralOnOneLine (l : Text) : Prop := (skipGap l).2 = none → isQuote (byteAt (skipGap l).1 0) →
    byte '\n' ∉ (skipGap l).1.take (nextScan l).length

/-- A text and the text with other line terminators, at the same place; or both in front of gaps
that the same NUL byte, or the end, follows. -/
def Aligned (t l l' : Text) : Prop := l' = replaceLineFeeds t l ∨
    ∃ r, byteAt r 0 = 0 ∧ skipGap l = (r, none) ∧ skipGap l' = (replaceLineFeeds t r, none)

theorem step_of_byteAt_eq_zero {t r l l' : Text} (hr : byteAt r 0 = 0) (hl : skipGap l = (r, none))
    (hl' : skipGap l' = (replaceLineFeeds t r, none)) :
    SameToken l l' ∧ nextRest l' = replaceLineFeeds t (nextRest l) := by
  have hscan : scanToken (replaceLineFeeds t r) = scanToken r ∧
      (replaceLineFeeds t r).drop (scanToken r).length =
        replaceLineFeeds t (r.drop (scanToken r).length) := by
    cases r with
    | nil => exact ⟨rfl, rfl⟩
    | cons c r =>
      rw [byteAt_zero] at hr
      subst hr
      rw [relined_cons (by decide), token_nul, token_nul]
      exact ⟨rfl, rfl⟩
  have hnext := nextScan_of_none (l := l) (by rw [hl])
  have hnext' := nextScan_of_none (l := l') (by rw [hl'])
  rw [hl] at hnext
  rw [hl', hscan.1] at hnext'
  refine ⟨⟨by rw [hnext, hnext'], by rw [hnext, hnext']⟩, ?_⟩
  rw [nextRest, nextRest, hl, hl', hnext, hnext']
  exact hscan.2

theorem step_of_token {t l l' : Text} (hl : (skipGap l).2 = none)
    (hl' : skipGap l' = (replaceLineFeeds t (skipGap l).1, none))
    (hscan : scanToken (replaceLineFeeds t (skipGap l).1) = scanToken (skipGap l).1)
    (hline : byte '\n' ∉ (skipGap l).1.take (scanToken (skipGap l).1).length) :
    SameToken l l' ∧ nextRest l' = replaceLineFeeds t (nextRest l) := by
  have hnext := nextScan_of_none hl
  have hnext' := nextScan_of_none (l := l') (by rw [hl'])
  rw [hl', hscan] at hnext'
  refine ⟨⟨by rw [hnext, hnext'], by rw [hnext, hnext']⟩, ?_⟩
  rw [nextRest, nextRest, hl', hnext, hnext']
  exact (relined_take_drop hline).2

section

variable {t : Text} (ht : IsTerminator t)
include ht

theorem token_sameLiteral {r : Text} (hsp : isWhitespace (byteAt r 0) = false)
    (hquo : isQuote (byteAt r 0) → byte '\n' ∉ r.take (scanToken r).length)
    (hpt : ¬ PointEndsLine r) (hstr : ¬ StringEndsLine r) (hchar : ¬ CharEndsLine r) :
    scanToken (replaceLineFeeds t r) = scanToken r ∧
      byte '\n' ∉ r.take (scanToken r).length := by
  cases r with
  | nil => exact ⟨rfl, by simp⟩
  | cons c r =>
    rw [byteAt_zero] at hsp hquo
    cases hq : isQuote c with
    | true =>
      have hline := hquo hq
      refine ⟨?_, hline⟩
      rcases eq_of_isQuote hq with rfl | rfl | rfl
      · rw [token_string] at hline ⊢
        rw [← string_relined ht hline hstr, relined_cons (by decide), token_string]
      · rw [token_rawString] at hline ⊢
        rw [← rawString_relined (t := t) hline, relined_cons (by decide), token_rawString]
      · rw [token_char] at hline ⊢
        rw [← charLiteral_relined ht hline hchar, relined_cons (by decide), token_char]
    | false =>
      have hc : c ≠ byte '\n' := by
        rintro rfl
        exact absurd hsp (by decide)
      exact ⟨token_relined ht hq hc hpt, lineFeed_notMem_token hq hc⟩

theorem step_of_skipGap {l : Text} (hgap : skipGap (replaceLineFeeds t l) =
      (replaceLineFeeds t (skipGap l).1, (skipGap l).2)) (hlit : LiteralOnOneLine l)
    (hpt : (skipGap l).2 = none → ¬ PointEndsLine (skipGap l).1)
    (hstr : (skipGap l).2 = none → ¬ StringEndsLine (skipGap l).1)
    (hchar : (skipGap l).2 = none → ¬ CharEndsLine (skipGap l).1) :
    SameToken l (replaceLineFeeds t l) ∧
      nextRest (replaceLineFeeds t l) = replaceLineFeeds t (nextRest l) := by
  cases herr : (skipGap l).2 with
  | some error =>
    have hnext := nextScan_of_some herr
    have hnext' := nextScan_of_some (l := replaceLineFeeds t l) (by rw [hgap, herr])
    refine ⟨⟨by rw [hnext, hnext'], by rw [hnext, hnext']⟩, ?_⟩
    rw [nextRest, nextRest, hgap, hnext, hnext']
    rfl
  | none =>
    rw [herr] at hgap
    have hsp : isWhitespace (byteAt (skipGap l).1 0) = false := isWhitespace_after_gap l
    have hquo := hlit herr
    rw [nextScan_of_none herr] at hquo
    obtain ⟨hscan, hline⟩ := token_sameLiteral ht hsp hquo (hpt herr)
      (hstr herr) (hchar herr)
    exact step_of_token herr hgap hscan hline

end

theorem OnlyGapLeft.skipGap (h : OnlyGapLeft l) :
    skipGap l = (l.dropWhile (· != 0), none) ∧ byteAt (l.dropWhile (· != 0)) 0 = 0 := by
  obtain ⟨hnone, hnul⟩ := h
  rw [dropWhile_of_skipGap hnul]
  exact ⟨Prod.ext rfl hnone, hnul⟩

theorem dropWhile_isCharLineByte (h : byte '\'' ∉ l.takeWhile (· != 0)) :
    l.dropWhile isCharLineByte = l.dropWhile (· != 0) := by
  induction l with
  | nil => rfl
  | cons c l ih =>
    by_cases hnul : c = 0
    · subst hnul
      rfl
    · have hc : (c != 0) = true := bne_iff_ne.mpr hnul
      rw [takeWhile_cons_of_pos (p := (· != 0)) hc, mem_cons, not_or] at h
      rw [dropWhile_cons_of_pos (p := (· != 0)) hc, dropWhile_cons_of_pos, ih h.2]
      rw [isCharLineByte, hc, Bool.and_true, bne_iff_ne]
      exact Ne.symm h.1

theorem nextScan_of_illegal {l r : Text} {error : LexError} {n : ℕ} (hl : skipGap l = (r, none))
    (hscan : scanToken r = .illegal error n) :
    nextScan l = .illegal error n ∧ nextRest l = r.drop n := by
  have hnext := nextScan_of_none (l := l) (by rw [hl])
  rw [hl, hscan] at hnext
  rw [nextRest, hl, hnext]
  exact ⟨rfl, rfl⟩

theorem step_of_charEndsLine {t l : Text} (ht : IsTerminator t) (hgap : skipGap (replaceLineFeeds t l) =
      (replaceLineFeeds t (skipGap l).1, (skipGap l).2)) (herr : (skipGap l).2 = none)
    (hlit : LiteralOnOneLine l) (hend : CharEndsLine (skipGap l).1)
    (haft : OnlyGapLeft (nextRest l) ∧ byte '\'' ∉ (nextRest l).takeWhile (· != 0)) :
    SameToken l (replaceLineFeeds t l) ∧
      Aligned t (nextRest l) (nextRest (replaceLineFeeds t l)) := by
  have hl : skipGap l = ((skipGap l).1, none) := Prod.ext rfl herr
  have hline := hlit herr
  rw [nextScan_of_none herr] at hline
  rw [herr] at hgap
  generalize (skipGap l).1 = r at *
  obtain ⟨r, rfl⟩ := cons_of_byteAt hend.1 (by decide)
  replace hline := hline (show isQuote (byte '\'') = true by decide)
  rw [token_char] at hline
  obtain ⟨honly, hq⟩ := haft
  obtain ⟨hskip, hnul⟩ := honly.skipGap
  rcases ht with rfl | rfl
  · obtain ⟨n, e, hscan, hdrop, -, hcls⟩ := charLiteral_of_endsLine_carriageReturn hline hend
    obtain ⟨hnext, hrest⟩ := nextScan_of_illegal hl hscan
    rw [hdrop] at hrest
    rw [hrest, takeWhile_cons_of_pos (by decide), mem_cons, not_or] at hq
    rw [hrest, dropWhile_cons_of_pos (by decide)] at hskip hnul
    rw [dropWhile_isCharLineByte hq.2] at hcls
    obtain ⟨m, hscan', hdrop'⟩ := hcls hnul
    obtain ⟨hnext', hrest'⟩ := nextScan_of_illegal hgap hscan'
    refine ⟨⟨by rw [hnext, hnext']; rfl, by rw [hnext, hnext']; rfl⟩, .inr ⟨_, hnul, ?_, ?_⟩⟩
    · rw [hrest, hskip]
    · rw [hrest', hdrop', skipGap_of_byteAt_eq_zero]
      rw [byteAt_relined (by rw [hnul]; decide), hnul]
  · obtain ⟨n, e, hscan, hdrop, hscan', hdrop'⟩ := charLiteral_carriageReturn hline hend
    obtain ⟨hnext, hrest⟩ := nextScan_of_illegal hl hscan
    obtain ⟨hnext', hrest'⟩ := nextScan_of_illegal hgap hscan'
    refine ⟨⟨by rw [hnext, hnext']; rfl, by rw [hnext, hnext']; rfl⟩, .inr ⟨_, hnul, hskip, ?_⟩⟩
    rw [hrest, hdrop, skipGap_whitespace e (by decide)] at hskip
    rw [hrest', hdrop', skipGap_whitespace _ (by decide),
      skipGap_relined (.inr rfl) e (.inl rfl), hskip, hrest, hdrop]

theorem Aligned.step {t l l' : Text} (ht : IsTerminator t) (h : Aligned t l l')
    (hlit : LiteralOnOneLine l) (hharmless : LineEndsHarmless l) :
    SameToken l l' ∧ Aligned t (nextRest l) (nextRest l') := by
  rcases h with rfl | ⟨r, hr, hl, hl'⟩
  swap
  · obtain ⟨htok, hrest⟩ := step_of_byteAt_eq_zero hr hl hl'
    exact ⟨htok, .inl hrest⟩
  by_cases hcomment : t = [byte '\r', byte '\n'] ∨
    endsLineComment (skipWhitespaceAndComments l) = false
  · have hgap := skipGap_relined ht l hcomment
    by_cases hchar : (skipGap l).2 = none ∧ CharEndsLine (skipGap l).1
    · exact step_of_charEndsLine ht hgap hchar.1 hlit hchar.2
        (hharmless.character hchar.1 hchar.2)
    · obtain ⟨htok, hrest⟩ := step_of_skipGap ht hgap hlit hharmless.point hharmless.string
        fun herr hends => hchar ⟨herr, hends⟩
      exact ⟨htok, .inl hrest⟩
  · rw [not_or, Bool.not_eq_false] at hcomment
    obtain rfl : t = [byte '\r'] := ht.resolve_right hcomment.1
    obtain ⟨hnone, hnul⟩ := hharmless.comment hcomment.2
    obtain ⟨r, hskip, hr, heq⟩ := skipGap_of_endsLineComment l hcomment.2
    obtain rfl := heq hnul
    obtain ⟨htok, hrest⟩ := step_of_byteAt_eq_zero hr (Prod.ext rfl hnone) hskip
    exact ⟨htok, .inl hrest⟩

/-! ### Calls that the terminator decides -/

def pointEndError : LexError := lexError "E1016" "number cannot end with decimal point"

section

variable {u e : Text} (hu : ∀ c ∈ u, isDigitOrSeparator c)
include hu

theorem digitRun_append_point : digitRun (u ++ byte '.' :: e) = u.length := by
  rw [digitRun, takeWhile_append_of_pos hu, takeWhile_cons_of_neg (by decide), append_nil]

theorem number_append_point (hne : u ≠ []) : readNumber (u ++ byte '.' :: e) =
    let l := u ++ byte '.' :: e
    let mantissa := readMantissa l
    let exponent := readExponent (l.drop mantissa.1)
    .ofError (if mantissa.2 ∨ exponent ≠ 0 then .floatingPointLiteral else .integerLiteral)
      (l.take (mantissa.1 + exponent)) (mantissa.1 + exponent)
      (numberFormatError (l.take (mantissa.1 + exponent))) := by
  have hsnd : ∀ x : UInt8, isDigitOrSeparator x = false → x ≠ byte '.' →
      byteAt (u ++ byte '.' :: e) 1 ≠ x := by
    intro x hx hdot h
    cases u with
    | nil => exact hne rfl
    | cons c u =>
      cases u with
      | nil => exact hdot h.symm
      | cons d u =>
        have hd : d = x := h
        rw [← hd, hu d (by simp)] at hx
        cases hx
  have hmark : ∀ x y : UInt8, isDigitOrSeparator x = false → x ≠ byte '.' →
      isDigitOrSeparator y = false → y ≠ byte '.' → ¬ (byteAt (u ++ byte '.' :: e) 0 = byte '0' ∧
        (byteAt (u ++ byte '.' :: e) 1 = x ∨ byteAt (u ++ byte '.' :: e) 1 = y)) :=
    fun x y hx hx' hy hy' h => h.2.elim (hsnd x hx hx') (hsnd y hy hy')
  rw [readNumber, if_neg (hmark _ _ (by decide) (by decide) (by decide) (by decide)),
    if_neg (hmark _ _ (by decide) (by decide) (by decide) (by decide)),
    if_neg (hmark _ _ (by decide) (by decide) (by decide) (by decide))]

theorem number_point_lineFeed (hne : u ≠ []) (he : byteAt e 0 = byte '\n') :
    readNumber (u ++ byte '.' :: e) = .illegal pointEndError (u.length + 1) := by
  have hdrop : (u ++ byte '.' :: e).drop (u.length + 1) = e := by
    rw [drop_length_add_append]
    rfl
  obtain ⟨e, rfl⟩ := cons_of_byteAt he (by decide)
  have hmant : readMantissa (u ++ byte '.' :: byte '\n' :: e) = (u.length + 1, true) := by
    rw [readMantissa, digitRun_append_point hu, if_pos, hdrop]
    · rfl
    · rw [← byteAt_drop _ _ 0, hdrop, ← Nat.add_zero u.length, byteAt_append_right]
      exact ⟨rfl, rfl⟩
  have htake : (u ++ byte '.' :: byte '\n' :: e).take (u.length + 1) = u ++ [byte '.'] := by
    rw [take_length_add_append]
    rfl
  have hpt : byte '.' ∉ u := fun h => absurd (hu _ h) (by decide)
  have hwhole : (u ++ [byte '.']).takeWhile (· != byte '.') = u := by
    rw [takeWhile_append_of_pos, takeWhile_cons_of_neg (by decide), append_nil]
    intro c hc
    rw [bne_iff_ne]
    rintro rfl
    exact hpt hc
  have herr : numberFormatError (u ++ [byte '.']) = some pointEndError := by
    rw [numberFormatError, decimalPointError]
    simp only [hwhole]
    rw [if_neg (by simp), if_pos (.inl (by simp))]
    rfl
  have hexpo : readExponent (byte '\n' :: e) = 0 := rfl
  rw [number_append_point hu hne]
  simp only [hmant, hdrop, hexpo, Nat.add_zero, htake, herr]
  rfl

theorem number_point_carriageReturn (hne : u ≠ []) (he : byteAt e 0 = byte '\r') :
    readNumber (u ++ byte '.' :: e) = .ofError .integerLiteral u u.length (numberFormatError u) := by
  obtain ⟨e, rfl⟩ := cons_of_byteAt he (by decide)
  have hdrop : (u ++ byte '.' :: byte '\r' :: e).drop u.length = byte '.' :: byte '\r' :: e :=
    drop_left
  have hmant : readMantissa (u ++ byte '.' :: byte '\r' :: e) = (u.length, false) := by
    rw [readMantissa, digitRun_append_point hu, if_neg]
    rintro ⟨-, h⟩
    rw [byteAt_append_right] at h
    exact absurd h (show ¬ takesDecimalPoint (byte '\r') = true by decide)
  have hexpo : readExponent (byte '.' :: byte '\r' :: e) = 0 := rfl
  rw [number_append_point hu hne]
  simp only [hmant, hdrop, hexpo, Nat.add_zero, take_left]
  rfl

theorem numberFormatError_message_ne {error : LexError} (h : numberFormatError u = some error) :
    error.message ≠ pointEndError.message := by
  have hwhole : u.takeWhile (· != byte '.') = u := by
    rw [takeWhile_eq_self_iff]
    intro c hc
    rw [bne_iff_ne]
    rintro rfl
    exact absurd (hu _ hc) (by decide)
  have hpt : decimalPointError u = none := by
    rw [decimalPointError]
    simp only [hwhole, if_true]
  rw [numberFormatError, hpt] at h
  change (if _ then _ else _) = _ at h
  split_ifs at h
  · rw [← Option.some.inj h]
    decide
  · rw [← Option.some.inj h]
    decide

end

theorem isDigitOrSeparator_of_isdigit {c : UInt8} (h : isdigit c) : isDigitOrSeparator c := by
  rw [isDigitOrSeparator, h]
  rfl

theorem PointEndsLine.exists_digits (h : PointEndsLine l) :
    ∃ u e, l = u ++ byte '.' :: byte '\n' :: e ∧ (∀ c ∈ u, isDigitOrSeparator c) ∧ u ≠ [] ∧
      isdigit (byteAt u 0) := by
  obtain ⟨hdig, hpt, hfeed⟩ := h
  have hdrop : l.drop (digitRun l) = l.dropWhile isDigitOrSeparator := Scan.drop_length_takeWhile _ _
  rw [← Nat.add_zero (digitRun l), ← byteAt_drop, hdrop] at hpt
  rw [← byteAt_drop, hdrop] at hfeed
  obtain ⟨r, hr⟩ := cons_of_byteAt hpt (by decide)
  rw [hr] at hfeed
  obtain ⟨e, rfl⟩ := cons_of_byteAt (l := r) hfeed (by decide)
  have hl : l = l.takeWhile isDigitOrSeparator ++ byte '.' :: byte '\n' :: e := by
    rw [← hr, takeWhile_append_dropWhile]
  cases l with
  | nil => exact absurd hdig (by decide)
  | cons c l =>
    rw [byteAt_zero] at hdig
    have hc := isDigitOrSeparator_of_isdigit hdig
    refine ⟨_, e, hl, fun c hc => mem_takeWhile_imp hc, ?_, ?_⟩
    · rw [takeWhile_cons_of_pos hc]
      exact cons_ne_nil _ _
    · rw [takeWhile_cons_of_pos hc]
      exact hdig

theorem token_number {c : UInt8} (l : Text) (h : isdigit c) :
    scanToken (c :: l) = readNumber (c :: l) := by
  have hne : ∀ x : UInt8, isdigit x = false → c ≠ x := by
    rintro x hx rfl
    rw [h] at hx
    cases hx
  have hlook : singleTokens.lookup c = none := by
    rw [lookup_eq_none_iff]
    intro entry hent
    rw [bne_iff_ne]
    have hkeys : ∀ entry ∈ singleTokens, isdigit entry.1 = false := by decide
    exact hne _ (hkeys entry hent)
  have hword : (isalpha c || c == byte '_') = false := by
    simp only [isdigit, isalpha, byte, Bool.and_eq_true, decide_eq_true_eq,
      UInt8.le_iff_toNat_le] at h ⊢
    simp only [Bool.or_eq_false_iff, Bool.and_eq_false_iff, decide_eq_false_iff_not,
      beq_eq_false_iff_ne]
    refine ⟨⟨.inl ?_, .inl ?_⟩, hne _ (by decide)⟩ <;>
      exact fun hle => absurd (Nat.le_trans hle h.2) (by decide)
  unfold scanToken
  simp only [byteAt_zero, hne 0 (by decide), hne (byte '=') (by decide),
    hne (byte '+') (by decide), hne (byte '-') (by decide), hne (byte '!') (by decide),
    hne (byte '*') (by decide), hne (byte '/') (by decide), hne (byte '%') (by decide),
    hne (byte '<') (by decide), hne (byte '>') (by decide), hne (byte '&') (by decide),
    hne (byte '?') (by decide), hne (byte '|') (by decide), hne (byte '#') (by decide),
    hne (byte '"') (by decide), hne (byte '\x60') (by decide), hne (byte '\'') (by decide),
    hlook, hword, h, if_false, cons_ne_nil]
  rfl

theorem token_of_pointEndsLine (h : PointEndsLine l) :
    ¬ ((scanToken (replaceLineFeeds [byte '\r'] l)).type = (scanToken l).type ∧
      (scanToken (replaceLineFeeds [byte '\r'] l)).literal = (scanToken l).literal) := by
  obtain ⟨u, e, rfl, hu, hne, hdig⟩ := h.exists_digits
  have hline : byte '\n' ∉ u := fun h => absurd (hu _ h) (by decide)
  have hscan : ∀ e, scanToken (u ++ e) = readNumber (u ++ e) := by
    cases u with
    | nil => exact absurd rfl hne
    | cons c u => exact fun e => token_number (u ++ e) hdig
  rw [relined_append, relined_of_notMem hline,
    relined_cons (by decide), relined_lineFeed, singleton_append, hscan,
    hscan, number_point_lineFeed (e := byte '\n' :: e) hu hne rfl,
    number_point_carriageReturn hu hne rfl]
  rintro ⟨htype, hlit⟩
  cases herr : numberFormatError u with
  | none =>
    rw [herr] at htype
    cases htype
  | some error =>
    rw [herr] at hlit
    exact numberFormatError_message_ne hu herr hlit

theorem SameToken.onlyGapLeft {l l' r : Text} (h : SameToken l l') (hl' : skipGap l' = (r, none))
    (hr : byteAt r 0 = 0) : OnlyGapLeft l := by
  obtain ⟨htype, hlit⟩ := h
  have hnext' := nextScan_of_none (l := l') (by rw [hl'])
  rw [hl'] at hnext'
  -- the token is the end of file, or its message is the one about NUL bytes
  have hscan : (nextScan l).type = .endOfFile ∨
      (nextScan l).type = .illegal ∧ ¬ NotNulMessage (nextScan l).literal := by
    rw [← htype, ← hlit, hnext']
    cases r with
    | nil => exact .inl rfl
    | cons c r =>
      rw [byteAt_zero] at hr
      subst hr
      exact .inr ⟨rfl, not_not_intro rfl⟩
  cases herror : (skipGap l).2 with
  | some error =>
    have herr : error = unclosedCommentError := gapError_eq_some herror |>.1
    rw [nextScan_of_some herror] at hscan
    rcases hscan with hscan | ⟨-, hscan⟩
    · cases hscan
    · refine absurd ?_ hscan
      rw [herr]
      decide
  | none =>
    refine ⟨herror, ?_⟩
    by_contra hbyte
    rw [nextScan_of_none herror] at hscan
    have htakes := token_takes (l := (skipGap l).1) (by
      intro h
      rw [h] at hbyte
      exact hbyte rfl)
    rcases hscan with hscan | ⟨hscan, hmsg⟩
    · exact htakes.type_ne hscan
    · exact hmsg (htakes.notNulMessage hbyte hscan)

theorem quote_notMem_of_dropWhile (h : byteAt (l.dropWhile isCharLineByte) 0 ≠ byte '\'') :
    byte '\'' ∉ l.takeWhile (· != 0) := by
  induction l with
  | nil => simp
  | cons c l ih =>
    by_cases hc : isCharLineByte c
    · rw [dropWhile_cons_of_pos hc] at h
      have hq : c ≠ byte '\'' := by
        rintro rfl
        exact absurd hc (by decide)
      by_cases hnul : c = 0
      · subst hnul
        exact absurd hc (by decide)
      · rw [takeWhile_cons_of_pos (p := (· != 0)) (bne_iff_ne.mpr hnul), mem_cons, not_or]
        exact ⟨Ne.symm hq, ih h⟩
    · rw [dropWhile_cons_of_neg hc, byteAt_zero] at h
      have hnul : c = 0 := by
        by_contra hnul
        exact hc (by rw [isCharLineByte, bne_iff_ne.mpr h, bne_iff_ne.mpr hnul]; rfl)
      subst hnul
      simp

/-- When the next two tokens agree with those of the text with carriage returns, the call is
harmless. -/
theorem lineEndsHarmless_of_sameToken (hlit : LiteralOnOneLine l)
    (htok : SameToken l (replaceLineFeeds [byte '\r'] l))
    (hnext : SameToken (nextRest l) (nextRest (replaceLineFeeds [byte '\r'] l))) :
    LineEndsHarmless l := by
  have ht : IsTerminator [byte '\r'] := .inl rfl
  have hcomment : endsLineComment (skipWhitespaceAndComments l) → OnlyGapLeft l := by
    intro h
    obtain ⟨r, hskip, hr, -⟩ := skipGap_of_endsLineComment l h
    exact htok.onlyGapLeft hskip (by rw [byteAt_relined (by rw [hr]; decide), hr])
  have hgap : (skipGap l).2 = none → byteAt (skipGap l).1 0 ≠ 0 →
      skipGap (replaceLineFeeds [byte '\r'] l) =
        (replaceLineFeeds [byte '\r'] (skipGap l).1, none) := by
    intro herr hbyte
    rw [skipGap_relined ht l (.inr ?_), herr]
    rw [Bool.eq_false_iff]
    exact fun h => hbyte (hcomment h).2
  have hscan : (skipGap l).2 = none → byteAt (skipGap l).1 0 ≠ 0 →
      (scanToken (replaceLineFeeds [byte '\r'] (skipGap l).1)).type =
          (scanToken (skipGap l).1).type ∧
        (scanToken (replaceLineFeeds [byte '\r'] (skipGap l).1)).literal =
          (scanToken (skipGap l).1).literal := by
    intro herr hbyte
    have hskip := hgap herr hbyte
    have hnext' := nextScan_of_none (l := replaceLineFeeds [byte '\r'] l) (by rw [hskip])
    rw [hskip] at hnext'
    rw [← nextScan_of_none herr, ← hnext']
    exact htok
  refine ⟨hcomment, fun herr hends => ?_, fun herr hends => ?_, fun herr hends => ?_⟩
  · refine token_of_pointEndsLine hends (hscan herr ?_)
    intro h
    have hdig := hends.1
    rw [h] at hdig
    exact absurd hdig (by decide)
  · have hsame := hscan herr (by rw [hends.1]; decide)
    generalize (skipGap l).1 = r at hends hsame
    obtain ⟨r, rfl⟩ := cons_of_byteAt hends.1 (by decide)
    rw [relined_cons (by decide), token_string, token_string, string_of_endsLine hends] at hsame
    exact string_message_ne (fun h => (mem_relined h).1 rfl) hsame.1 hsame.2
  · have hbyte : byteAt (skipGap l).1 0 ≠ 0 := by
      rw [hends.1]
      decide
    have hskip := hgap herr hbyte
    have hsame := hscan herr hbyte
    have hline := hlit herr (by rw [hends.1]; decide)
    have hl : skipGap l = ((skipGap l).1, none) := Prod.ext rfl herr
    rw [nextScan_of_none herr] at hline
    generalize (skipGap l).1 = r at *
    obtain ⟨r, rfl⟩ := cons_of_byteAt hends.1 (by decide)
    rw [token_char] at hline
    obtain ⟨n, e, hread, hdrop, hq, hcls⟩ := charLiteral_of_endsLine_carriageReturn hline hends
    obtain ⟨-, hrest⟩ := nextScan_of_illegal hl hread
    have hchar : ∀ r, replaceLineFeeds [byte '\r'] (byte '\'' :: r) =
        byte '\'' :: replaceLineFeeds [byte '\r'] r := relined_cons (by decide)
    rw [hchar, token_char, token_char, hread] at hsame
    rw [hchar] at hq hcls hskip
    have hne : byteAt (e.dropWhile isCharLineByte) 0 ≠ byte '\'' := by
      intro h
      obtain ⟨m, hread'⟩ := hq h
      rw [hread'] at hsame
      exact absurd hsame.2 (show charLengthError.message ≠ unclosedCharError.message by
        decide)
    have hnul : byteAt (e.dropWhile isCharLineByte) 0 = 0 := by
      cases haft : e.dropWhile isCharLineByte with
      | nil => rfl
      | cons c e' =>
        have hhead := head_dropWhile_not isCharLineByte (l := e)
          (by rw [haft]; exact cons_ne_nil _ _)
        simp only [haft, head_cons, isCharLineByte] at hhead
        rw [haft, byteAt_zero] at hne
        rw [bne_iff_ne.mpr hne, Bool.true_and, bne_eq_false_iff_eq] at hhead
        exact hhead
    obtain ⟨m, hread', hdrop'⟩ := hcls hnul
    obtain ⟨-, hrest'⟩ := nextScan_of_illegal hskip hread'
    have hbyte' : byteAt (replaceLineFeeds [byte '\r'] (e.dropWhile isCharLineByte)) 0 = 0 := by
      rw [byteAt_relined (by rw [hnul]; decide), hnul]
    refine ⟨hnext.onlyGapLeft (r := replaceLineFeeds [byte '\r'] (e.dropWhile isCharLineByte)) ?_
      hbyte', ?_⟩
    · rw [hrest', hdrop', skipGap_of_byteAt_eq_zero hbyte']
    · rw [hrest, hdrop, takeWhile_cons_of_pos (by decide), mem_cons, not_or]
      exact ⟨by decide, quote_notMem_of_dropWhile hne⟩

/-! ### Runs -/

theorem lineEndsHarmless_of_byteAt_eq_zero {l r : Text} (hl : skipGap l = (r, none))
    (hr : byteAt r 0 = 0) : LineEndsHarmless l := by
  have hbyte : byteAt (skipGap l).1 0 = 0 := by rw [hl, hr]
  refine ⟨fun _ => ⟨by rw [hl], hbyte⟩, fun _ h => ?_, fun _ h => ?_, fun _ h => ?_⟩ <;>
    have hfst := h.1 <;> rw [hbyte] at hfst <;> exact absurd hfst (by decide)

theorem aligned_restAfter {t l : Text} (ht : IsTerminator t)
    (hlit : ∀ k, LiteralOnOneLine (restAfter l k))
    (hharmless : ∀ k, LineEndsHarmless (restAfter l k)) (k : ℕ) :
    Aligned t (restAfter l k) (restAfter (replaceLineFeeds t l) k) := by
  induction k with
  | zero => exact .inl rfl
  | succ k ih =>
    rw [restAfter_succ, restAfter_succ]
    exact (ih.step ht (hlit k) (hharmless k)).2

theorem lineEndsHarmless_restAfter (hlit : ∀ k, LiteralOnOneLine (restAfter l k))
    (htok : ∀ k, SameToken (restAfter l k) (restAfter (replaceLineFeeds [byte '\r'] l) k))
    (k : ℕ) : LineEndsHarmless (restAfter l k) := by
  have hstep : ∀ k, Aligned [byte '\r'] (restAfter l k)
      (restAfter (replaceLineFeeds [byte '\r'] l) k) → LineEndsHarmless (restAfter l k) := by
    rintro k (haligned | ⟨r, hr, hl, -⟩)
    · have hnow := htok k
      have hnext := htok (k + 1)
      rw [restAfter_succ, restAfter_succ, haligned] at hnext
      rw [haligned] at hnow
      exact lineEndsHarmless_of_sameToken (hlit k) hnow hnext
    · exact lineEndsHarmless_of_byteAt_eq_zero hl hr
  have haligned : Aligned [byte '\r'] (restAfter l k)
      (restAfter (replaceLineFeeds [byte '\r'] l) k) := by
    induction k with
    | zero => exact .inl rfl
    | succ k ih =>
      rw [restAfter_succ, restAfter_succ]
      exact (ih.step (.inl rfl) (hlit k) (hstep k ih)).2
  exact hstep k haligned

theorem length_le_length_relined (l : Text) : (replaceLineFeeds [byte '\r'] l).length = l.length ∧
      l.length ≤ (replaceLineFeeds [byte '\r', byte '\n'] l).length := by
  induction l with
  | nil => exact ⟨rfl, Nat.le_refl 0⟩
  | cons c l ih =>
    by_cases hc : c = byte '\n'
    · subst hc
      simp only [relined_lineFeed, length_append, length_cons, length_nil]
      omega
    · simp only [relined_cons hc, length_cons]
      omega

theorem sourceText_relined {t input : Text} (ht : IsTerminator t)
    (hmax : (replaceLineFeeds [byte '\r', byte '\n'] input).length ≤ intMax) :
    sourceText (replaceLineFeeds t input) = replaceLineFeeds t (sourceText input) := by
  obtain ⟨hcr, hcrlf⟩ := length_le_length_relined input
  have hlen : (replaceLineFeeds t input).length ≤ intMax := by
    rcases ht with rfl | rfl
    · omega
    · exact hmax
  have hmark : byteOrderMark.isPrefixOf (replaceLineFeeds t input) =
      byteOrderMark.isPrefixOf input := (sameLine_relined ht input).isPrefixOf (by decide)
  unfold sourceText
  rw [hmark]
  by_cases hpre : byteOrderMark.isPrefixOf input
  · have htake : byte '\n' ∉ input.take 3 := by
      have hmarkTake : byteOrderMark = input.take 3 :=
        prefix_iff_eq_take.mp (List.isPrefixOf_iff_prefix.mp hpre)
      rw [← hmarkTake]
      decide
    rw [if_pos hpre, if_pos hpre, (relined_take_drop htake).2, take_of_length_le, take_of_length_le]
    · rw [length_drop]
      omega
    · rw [← (relined_take_drop htake).2, length_drop]
      omega
  · rw [if_neg hpre, if_neg hpre, take_of_length_le hlen, take_of_length_le (by omega)]

/-- The token stream of an input does not change when its line feeds become carriage returns, or
carriage returns with line feeds. -/
def LineEndsInterchangeable (input : Text) (file : Option Text) : Prop :=
  ∀ t, IsTerminator t → tokenStream (lexerCreateSized (replaceLineFeeds t input) file) =
    tokenStream (lexerCreateSized input file)

/-- Line terminators are interchangeable exactly when no call of the lexer depends on the line
feed that ends a line comment, a number with a decimal point, or a string or character literal
that is never closed. -/
theorem lineEnds_interchangeable_iff (input : Text) (file : Option Text)
    (hmax : (replaceLineFeeds [byte '\r', byte '\n'] input).length ≤ intMax)
    (hliteral : ∀ k, LiteralOnOneLine (restAfter (sourceText input) k)) :
    LineEndsInterchangeable input file ↔
      ∀ k, LineEndsHarmless (restAfter (sourceText input) k) := by
  constructor
  · intro h
    refine lineEndsHarmless_restAfter hliteral fun k => ?_
    have hk := congrFun (h [byte '\r'] (.inl rfl)) k
    rw [stream_create, stream_create, sourceText_relined (.inl rfl) hmax] at hk
    exact Prod.mk.inj hk
  · intro h t ht
    funext k
    rw [stream_create, stream_create, sourceText_relined ht hmax]
    obtain ⟨⟨htype, hliteral⟩, -⟩ := (aligned_restAfter ht hliteral h k).step ht (hliteral k) (h k)
    rw [htype, hliteral]

theorem lineEnds_interchangeable_identifiers : LineEndsInterchangeable (bytes "a\nb") none := by
  have hsrc : sourceText (bytes "a\nb") = bytes "a\nb" := by decide
  have hnil : LiteralOnOneLine [] ∧ LineEndsHarmless [] :=
    ⟨fun _ h => absurd h (by decide), lineEndsHarmless_of_byteAt_eq_zero rfl rfl⟩
  have hcalls : ∀ k, LiteralOnOneLine (restAfter (bytes "a\nb") k) ∧
      LineEndsHarmless (restAfter (bytes "a\nb") k) := by
    intro k
    match k with
    | 0 => exact ⟨fun _ h => absurd h (by decide), fun h => absurd h (by decide),
        fun _ h => absurd h.1 (by decide), fun _ h => absurd h.1 (by decide),
        fun _ h => absurd h.1 (by decide)⟩
    | 1 => exact ⟨fun _ h => absurd h (by decide), fun h => absurd h (by decide),
        fun _ h => absurd h.1 (by decide), fun _ h => absurd h.1 (by decide),
        fun _ h => absurd h.1 (by decide)⟩
    | k + 2 =>
      rw [restAfter_eq_nil (n := 2) (by decide) (k + 2) (by omega)]
      exact hnil
  exact (lineEnds_interchangeable_iff (bytes "a\nb") none (by decide)
    (by rw [hsrc]; exact fun k => (hcalls k).1)).mpr
      (by rw [hsrc]; exact fun k => (hcalls k).2)

/-- The comment of the first line takes the second line when a carriage return ends the first. -/
theorem not_lineEndsInterchangeable_comment :
    byte '\r' ∉ bytes "// c\nx" ∧
      (∀ k, LiteralOnOneLine (restAfter (sourceText (bytes "// c\nx")) k)) ∧
      ¬ LineEndsInterchangeable (bytes "// c\nx") none := by
  refine ⟨by decide, fun k => ?_, fun h => ?_⟩
  · match k with
    | 0 => exact fun _ h => absurd h (by decide)
    | k + 1 =>
      rw [restAfter_eq_nil (n := 1) (by decide) (k + 1) (by omega)]
      exact fun _ h => absurd h (by decide)
  · exact absurd (congrFun (h [byte '\r'] (.inl rfl)) 0) (by decide)

end Grayscale
