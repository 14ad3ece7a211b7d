import Grayscale.Format.Preservation

/-!
# Formatting a formatted text

The formatter computes the blanks of a line from the depth tables, from what
`line_is_in_raw_string` says and from deltas of earlier lines. When the lexer reads the formatted
text as it reads the source, the tables are the same, every delta of the second pass is zero, and
the second pass writes what the first one wrote. The lexer does so unless a character literal of a
line feed loses or gains blanks behind the line feed.
-/

namespace Grayscale

open List

/-! ### The lines of the formatted text -/

theorem leading_append {b line : Text} (hb : ∀ c ∈ b, isBlank c) :
    leading (b ++ content line) = b := by
  rw [leading, takeWhile_append_of_pos hb]
  have hbla := isBlank_content line
  cases h : content line with
  | nil => rw [takeWhile_nil, append_nil]
  | cons c l =>
    rw [h, byteAt_zero] at hbla
    rw [takeWhile_cons_of_neg (by rw [hbla]; exact Bool.false_ne_true), append_nil]

theorem content_append {b line : Text} (hb : ∀ c ∈ b, isBlank c) :
    content (b ++ content line) = content line := by
  have h := leading_append_content (b ++ content line)
  rw [leading_append hb] at h
  exact append_cancel_left h

theorem sourceLines_emitLines {bs lines : List Text} (hbs : Blanks bs)
    (hlns : ∀ line ∈ lines, byte '\n' ∉ line) : sourceLines (emitLines bs lines) =
      List.zipWith (fun b line => b ++ content line) bs lines := by
  induction lines generalizing bs with
  | nil =>
    rw [emitLines, zipWith_nil_right, zipWith_nil_right]
    rfl
  | cons line lines ih =>
    cases bs with
    | nil => rfl
    | cons b bs =>
      have hb : byte '\n' ∉ b := fun h =>
        absurd (hbs b (mem_cons_self ..) _ h) (by decide)
      have hline : byte '\n' ∉ b ++ content line := by
        rw [mem_append, not_or]
        exact ⟨hb, lineFeed_notMem_content (hlns line (mem_cons_self ..))⟩
      rw [emitLines_cons, ← append_assoc, sourceLines_append hline, zipWith_cons_cons,
        ih (fun b hb => hbs b (mem_cons_of_mem _ hb))
          fun l hl => hlns l (mem_cons_of_mem _ hl)]

/-! ### Raw strings -/

variable {targetLine : ℕ} {s : RawScan} {c : UInt8}

theorem rawStep_blank (hc : isBlank c) (l : Text) :
    rawStep targetLine s (c :: l) = if s.line < targetLine then some ⟨(), s, 0⟩ else none := by
  have hne : c ≠ 0 ∧ c ≠ byte '\n' ∧ c ≠ byte '\x60' ∧ c ≠ byte '"' ∧ c ≠ byte '\\' := by
    rw [isBlank, Bool.or_eq_true, beq_iff_eq, beq_iff_eq] at hc
    rcases hc with rfl | rfl <;> decide
  obtain ⟨hnul, hlf, hraw, hq, hesc⟩ := hne
  unfold rawStep
  rw [byteAt_zero]
  by_cases hline : s.line < targetLine
  · rw [if_neg (not_not.mpr ⟨hnul, hline⟩), if_neg hlf, if_pos hline]
    obtain ⟨line, inRaw, isInString⟩ := s
    dsimp only
    split_ifs with hinRaw hinString hback
    · rw [hinRaw, bne_iff_ne.mpr hraw]
    · exact absurd hback.1 hesc
    · rw [hinString, bne_iff_ne.mpr hq]
    · rfl
  · rw [if_pos fun h => hline h.2, if_neg hline]

theorem run_rawStep_blanks {b : Text} (hb : ∀ c ∈ b, isBlank c) (s : RawScan) (l : Text) :
    (Scan.run (rawStep targetLine) s (b ++ l)).state =
      (Scan.run (rawStep targetLine) s l).state := by
  induction b with
  | nil => rfl
  | cons c b ih =>
    have hstep := @rawStep_blank targetLine s _ (hb c (mem_cons_self ..)) (b ++ l)
    rw [cons_append]
    by_cases hline : s.line < targetLine
    · rw [if_pos hline] at hstep
      rw [Scan.run_cons _ hstep, Scan.Result.cons_state, drop_zero,
        ih fun d hd => hb d (mem_cons_of_mem c hd)]
    · rw [if_neg hline] at hstep
      rw [Scan.run_stop _ hstep]
      cases l with
      | nil => rfl
      | cons d l =>
        rw [Scan.run_stop]
        unfold rawStep
        rw [if_pos fun h => hline h.2]
theorem rawStep_stop (h : ¬ s.line < targetLine) (l : Text) : rawStep targetLine s l = none := by
  unfold rawStep
  rw [if_pos fun hline => h hline.2]

theorem rawStep_congr {l l' : Text} (h : byteAt l' 0 ≠ 0 ↔ byteAt l 0 ≠ 0) :
    rawStep targetLine s (c :: l') = rawStep targetLine s (c :: l) := by
  unfold rawStep
  simp only [byteAt_zero, byteAt_succ, h]
  rfl

theorem rawStep_extra {l : Text} {round : Scan.Round RawScan Unit}
    (h : rawStep targetLine s (c :: l) = some round) :
    round.extra = 0 ∨ round.extra = 1 ∧ byteAt l 0 ≠ 0 := by
  unfold rawStep at h
  dsimp only at h
  split_ifs at h with _ _ _ _ hesc <;> cases h <;> first
    | exact .inl rfl
    | exact .inr ⟨rfl, hesc.2⟩

theorem rawStep_lineFeed (h : s.line < targetLine) (l : Text) :
    rawStep targetLine s (byte '\n' :: l) = some ⟨(), { s with line := s.line + 1 }, 0⟩ := by
  unfold rawStep
  rw [byteAt_zero, if_neg (not_not.mpr ⟨by decide, h⟩), if_pos rfl]

theorem run_rawStep_lineFeed (s : RawScan) :
    (Scan.run (rawStep targetLine) s [byte '\n']).state.inRaw = s.inRaw := by
  by_cases hline : s.line < targetLine
  · rw [Scan.run_cons _ (rawStep_lineFeed hline [])]
    rfl
  · rw [Scan.run_stop _ (rawStep_stop hline _)]

theorem run_rawStep_last {final : Text} (hfin : IsFinal final) (s : RawScan) (c : UInt8) :
    (Scan.run (rawStep targetLine) s (c :: final)).state.inRaw =
      (Scan.run (rawStep targetLine) s [c]).state.inRaw := by
  rcases hfin with rfl | rfl
  · rfl
  by_cases hesc : s.inRaw = false ∧ s.isInString = true ∧ c = byte '\\'
  · obtain ⟨hraw, hstr, rfl⟩ := hesc
    by_cases hline : s.line < targetLine
    · have hfeed : rawStep targetLine s [byte '\\', byte '\n'] = some ⟨(), s, 1⟩ := by
        unfold rawStep
        rw [byteAt_zero, if_neg (not_not.mpr ⟨by decide, hline⟩), if_neg (by decide),
          if_neg (by rw [hraw]; exact Bool.false_ne_true), if_pos hstr, if_pos ⟨rfl, by decide⟩]
      have hend : rawStep targetLine s [byte '\\'] =
          some ⟨(), { s with isInString := byte '\\' != byte '"' }, 0⟩ := by
        unfold rawStep
        rw [byteAt_zero, if_neg (not_not.mpr ⟨by decide, hline⟩), if_neg (by decide),
          if_neg (by rw [hraw]; exact Bool.false_ne_true), if_pos hstr, if_neg fun h => h.2 rfl]
      rw [Scan.run_cons _ hfeed, Scan.run_cons _ hend]
      rfl
    · rw [Scan.run_stop _ (rawStep_stop hline _), Scan.run_stop _ (rawStep_stop hline _)]
  · have hsame : rawStep targetLine s [c, byte '\n'] = rawStep targetLine s [c] := by
      unfold rawStep
      by_cases hraw : s.inRaw = true
      · simp only [byteAt_zero, hraw, if_true]
      by_cases hstr : s.isInString = true
      · have hc : c ≠ byte '\\' := fun h => hesc ⟨by simpa using hraw, hstr, h⟩
        simp only [byteAt_zero, hc, false_and, if_false]
        rfl
      · simp only [byteAt_zero, hstr]
        rfl
    cases hstep : rawStep targetLine s [c] with
    | none => rw [Scan.run_stop _ hstep, Scan.run_stop _ (hsame.trans hstep)]
    | some round =>
      have hextra := (rawStep_extra hstep).resolve_right fun h => h.2 rfl
      rw [Scan.run_cons _ hstep, Scan.run_cons _ (hsame.trans hstep), Scan.Result.cons_state,
        Scan.Result.cons_state, hextra, drop_zero, run_rawStep_lineFeed]
      rfl

theorem run_rawStep_indent {final : Text} (hfin : IsFinal final) {bs : List Text}
    (hbs : Blanks bs) (s : RawScan) (l : Text) (hnul : 0 ∉ l) :
    (Scan.run (rawStep targetLine) s (indent final bs l)).state.inRaw =
      (Scan.run (rawStep targetLine) s l).state.inRaw := by
  induction hn : l.length using Nat.strongRecOn generalizing s l bs with
  | ind n ih =>
    subst hn
    cases l with
    | nil =>
      rw [indent_nil]
      rcases hfin with rfl | rfl
      · rfl
      · exact run_rawStep_lineFeed s
    | cons c l =>
      rw [mem_cons, not_or] at hnul
      by_cases hline : s.line < targetLine
      swap
      · obtain ⟨l', hl'⟩ := @indent_cons_eq final bs c l
        rw [hl', Scan.run_stop _ (rawStep_stop hline _), Scan.run_stop _ (rawStep_stop hline _)]
      by_cases hc : c = byte '\n'
      · subst hc
        rw [indent_lineFeed, Scan.run_cons _ (rawStep_lineFeed hline _),
          Scan.run_cons _ (rawStep_lineFeed hline _), Scan.Result.cons_state,
          Scan.Result.cons_state, drop_zero, drop_zero, run_rawStep_blanks hbs.headD,
          ih l.length (Nat.lt_succ_self _) hbs.tail _ l hnul.2 rfl]
      rw [indent_cons hc]
      cases l with
      | nil =>
        rw [indent_nil]
        exact run_rawStep_last hfin s c
      | cons d l =>
        have hd : d ≠ 0 := fun h => hnul.2 (h ▸ mem_cons_self ..)
        have hsame : rawStep targetLine s (c :: indent final bs (d :: l)) =
            rawStep targetLine s (c :: d :: l) :=
          rawStep_congr (by rw [byteAt_indent (cons_ne_nil d l)])
        cases hstep : rawStep targetLine s (c :: d :: l) with
        | none => rw [Scan.run_stop _ hstep, Scan.run_stop _ (hsame.trans hstep)]
        | some round =>
          rw [Scan.run_cons _ hstep, Scan.run_cons _ (hsame.trans hstep), Scan.Result.cons_state,
            Scan.Result.cons_state]
          rcases rawStep_extra hstep with hextra | ⟨hextra, -⟩
          · rw [hextra, drop_zero, drop_zero]
            exact ih _ (Nat.lt_succ_self _) hbs _ _ hnul.2 rfl
          · have hnul' : 0 ∉ l := fun h => hnul.2 (mem_cons_of_mem d h)
            rw [hextra, drop_succ_cons, drop_zero]
            by_cases hd : d = byte '\n'
            · subst hd
              rw [indent_lineFeed, drop_succ_cons, drop_zero, run_rawStep_blanks hbs.headD]
              exact ih l.length (by simp only [length_cons]; omega) hbs.tail _ _ hnul' rfl
            · rw [indent_cons hd, drop_succ_cons, drop_zero]
              exact ih l.length (by simp only [length_cons]; omega) hbs _ _ hnul' rfl

variable {source : Text}

theorem lineIsInRawString_formatted (filename : Option Text) (hnul : 0 ∉ source)
    (n : ℕ) : lineIsInRawString (grayFmtSource source filename) n = lineIsInRawString source n := by
  obtain ⟨sk, final, hfin, -, -, hmem, hsrc, hemit⟩ := exists_skeleton source
  have hsk : 0 ∉ sk := fun h => hnul (hmem 0 h)
  have hgs := blanks_leadings source
  have hfs := blanks_emittedLeadings source filename
  have hform := hemit _ (leadings_length source filename)
  rw [lineIsInRawString, lineIsInRawString, grayFmtSource, hform, run_rawStep_blanks hfs.headD,
    run_rawStep_indent hfin hfs.tail _ sk hsk]
  conv_rhs => rw [hsrc, run_rawStep_blanks hgs.headD,
    run_rawStep_indent (.inl rfl) hgs.tail _ sk hsk]
/-! ### The condition -/

/-- A line that is moved by `delta` is at the margin before and after, or neither. -/
def KeepsMargin (delta : ℤ) (blanks : Text) : Prop := blanks = [] ↔ blanks.length + delta ≤ 0

/-- A line that the formatter leaves at the margin, or away from it: one inside a raw string, one
that the delta of its block comment or continuation does not move to or from the margin, or one at
the margin exactly when its brace depth is zero. -/
def LineKeepsMargin (source : Text) (filename : Option Text) (n : ℕ) : Prop :=
  let blanks := leading (sourceLine source n)
  let tables := buildDepthTables source filename (countLines source)
  let s := lineState source filename n
  if content (sourceLine source n) = [] then blanks = []
  else lineIsInRawString source n ∨
    if s.inBlockComment then KeepsMargin s.blockCommentDelta blanks
    else if tables.isContinuation n then KeepsMargin s.continuationDelta blanks
    else (blanks = [] ↔ tables.depth n = 0)

theorem spaces_eq_nil_iff (length : ℤ) : spaces length = [] ↔ length ≤ 0 := by
  rw [spaces, replicate_eq_nil_iff]
  omega

theorem lineKeepsMargin_iff (source : Text) (filename : Option Text) (n : ℕ) :
    LineKeepsMargin source filename (n + 1) ↔ (((sourceLines source).map leading).getD n [] = [] ↔
      (emittedLeadings source filename).getD n [] = []) := by
  rcases Nat.lt_or_ge n (sourceLines source).length with hn | hn
  · rw [emittedLeadings_getD source filename hn, leadings_getD source n, LineKeepsMargin, formatLine]
    by_cases hbody : content (sourceLine source (n + 1)) = []
    · rw [if_pos hbody, if_pos hbody]
      exact ⟨fun h => ⟨fun _ => rfl, fun _ => h⟩, fun h => h.mpr rfl⟩
    rw [if_neg hbody, if_neg hbody]
    by_cases hraw : lineIsInRawString source (n + 1)
    · rw [if_pos hraw]
      exact iff_of_true (.inl hraw) Iff.rfl
    rw [if_neg hraw, or_iff_right hraw, spaces_eq_nil_iff, newLeadingLength]
    split_ifs
    · exact Iff.rfl
    · exact Iff.rfl
    · refine iff_congr Iff.rfl ?_
      rw [formatIndentWidth]
      omega
  · obtain ⟨hline, hemitted⟩ := lines_past_end filename hn
    rw [LineKeepsMargin, leadings_getD, hline, hemitted]
    exact iff_of_true rfl (iff_of_true rfl rfl)

/-- No call up to the first illegal token reaches a character literal of a line feed that loses or
gains blanks behind it, and no byte order mark gets to the start of the text. -/
def FormatsStably (source : Text) (filename : Option Text) : Prop :=
  ¬ BlankBeforeMark source ∧ ∀ k, (∀ j < k, IsRead (lexerToken (lexerCreate source filename) j)) →
    CharSpansLine (skipGap (restAfter (sourceText source) k)).1 →
      LineKeepsMargin source filename ((lexerToken (lexerCreate source filename) k).line + 1)

/-! ### The depth tables -/

theorem DepthState.token_congr {m m' line : ℕ} (h : line ≤ m) (h' : line ≤ m') (s : DepthState)
    (type : TokenType) : s.token m' type line = s.token m type line := by
  unfold DepthState.token
  have hiff : (line < 1 ∨ line > m') ↔ (line < 1 ∨ line > m) := by omega
  simp only [hiff]

theorem tokenLoop_congr {m m' : ℕ} {tokens : List (TokenType × ℕ)} (s : DepthState)
    (h : ∀ token ∈ tokens, token.2 ≤ m) (h' : ∀ token ∈ tokens, token.2 ≤ m') :
    tokenLoop m' s tokens = tokenLoop m s tokens := by
  induction tokens generalizing s with
  | nil => rfl
  | cons token tokens ih =>
    have hfst : s.token m' token.1 token.2 = s.token m token.1 token.2 :=
      s.token_congr (h token (mem_cons_self ..)) (h' token (mem_cons_self ..)) token.1
    change tokenLoop m' (s.token m' token.1 token.2) tokens = _
    rw [hfst]
    exact ih _ (fun t ht => h t (mem_cons_of_mem _ ht))
      fun t ht => h' t (mem_cons_of_mem _ ht)

/-- A call that returns a token that the formatter reads. -/
def ReadsToken (l : Text) : Prop := (nextScan l).type ≠ .endOfFile ∧ (nextScan l).type ≠ .illegal

/-- When a line feed in a character literal does not matter, the formatter reads both tokens or
neither, and they are of one kind and on one line. -/
theorem CallPair.readsToken {gs fs : List Text} {final : Text} {total : ℕ} {l l' : Text}
    (h : CallPair gs fs final total l l')
    (hmargin : CharSpansLine (skipGap l).1 → ∀ n, n + (skipGap l).1.count (byte '\n') = total →
      (gs.getD n [] = [] ↔ fs.getD n [] = [])) : (ReadsToken l' ↔ ReadsToken l) ∧ (ReadsToken l →
      (nextScan l').type = (nextScan l).type ∧
        (skipGap l').1.count (byte '\n') = (skipGap l).1.count (byte '\n') + final.count (byte '\n') ∧
        ∃ n r, Reindented gs fs final total n r (nextRest l) (nextRest l')) := by
  cases h with
  | illegal h h' => exact ⟨iff_of_false (fun h => h.2 h') fun hread => hread.2 h, fun hread => absurd h hread.2⟩
  | endOfFile h h' hrest hrest' =>
    exact ⟨iff_of_false (fun hread => hread.1 (by rw [h']; rfl)) fun hread => hread.1 (by rw [h]; rfl),
      fun hread => absurd (by rw [h]; rfl) hread.1⟩
  | token n hleft hrgt hne htype hnext =>
    refine ⟨by rw [ReadsToken, ReadsToken, htype], fun hread => ⟨htype, by omega, ?_⟩⟩
    obtain ⟨m, r, hnext, -⟩ := hnext hread.2
    exact ⟨n + m, r, hnext⟩
  | charLine n quoted hleft hrgt hne hspans hl hl' hcnt hnext =>
    have hiff : (nextScan l').type ≠ .illegal ↔ (nextScan l).type ≠ .illegal := by
      rw [hl, hl']
      exact and_congr_left fun hquo => (hmargin (hspans hquo) n hleft).symm
    have hends : (nextScan l).type ≠ .illegal → (nextScan l').type = (nextScan l).type ∧
          ∃ r, Reindented gs fs final total (n + 1) r (nextRest l) (nextRest l') := by
      intro hleg
      obtain ⟨hblk, hquo⟩ := hl.mp hleg
      obtain ⟨hblk', -⟩ := hl'.mp (hiff.mpr hleg)
      exact ⟨(hnext hblk hblk' hquo).1.1, (hnext hblk hblk' hquo).2⟩
    constructor
    · constructor
      · exact fun hread => ⟨hne, hiff.mp hread.2⟩
      · exact fun hread => ⟨(hends hread.2).1 ▸ hne, hiff.mpr hread.2⟩
    · intro hread
      obtain ⟨r, hnext⟩ := (hends hread.2).2
      exact ⟨(hends hread.2).1, by omega, n + 1, r, hnext⟩

theorem isRead_iff (input : Text) (file : Option Text) (k : ℕ) :
    IsRead (lexerToken (lexerCreateSized input file) k) ↔
      ReadsToken (restAfter (sourceText input) k) := by
  rw [IsRead, lexerToken_type]
  rfl

/-- The formatter reads the same tokens, on the same lines, in a source and in its formatted
text. -/
theorem depthTokens_formatted {filename : Option Text} (hnul : 0 ∉ source)
    (hmax : source.length + 2 ≤ intMax)
    (hmaxFormatted : (grayFmtSource source filename).length + 2 ≤ intMax)
    (hstable : FormatsStably source filename) :
    (depthTokens (grayFmtSource source filename) filename).map (fun t => (t.type, t.line)) =
      (depthTokens source filename).map fun t => (t.type, t.line) := by
  obtain ⟨hmark, hstable⟩ := hstable
  obtain ⟨final, r, hfin, hcnt, hst⟩ := formatted_reindented filename hnul hmax hmaxFormatted hmark
  have hlen := sourceText_length_le source
  have hlengthFormatted := sourceText_length_le (grayFmtSource source filename)
  obtain ⟨n, htoks, hread, hend⟩ := depthTokens_eq source filename
  obtain ⟨n', htoks', hread', hend'⟩ := depthTokens_eq (grayFmtSource source filename) filename
  rw [lexerCreate_of_notMem hnul] at htoks hread hend hstable
  rw [lexerCreate_of_notMem (nul_notMem_grayFmtSource filename hnul)] at htoks' hread' hend'
  simp only [isRead_iff] at hread hend hread' hend' hstable
  have hgs := (blanks_leadings source).tail
  have hfs := (blanks_emittedLeadings source filename).tail
  have hpair : ∀ k, (∀ j < k, ReadsToken (restAfter (sourceText source) j)) →
      ∀ m r, Reindented ((sourceLines source).map leading).tail
        (emittedLeadings source filename).tail final ((sourceText source).count (byte '\n')) m r
        (restAfter (sourceText source) k)
        (restAfter (sourceText (grayFmtSource source filename)) k) →
      _ := fun k hk m r h => (h.call hgs hfs hfin).readsToken fun hspans i hi => by
    have hgap : (skipGap (restAfter (sourceText source) k)).1 ≠ [] := by
      intro hnil
      rw [hnil] at hspans
      exact absurd hspans.1.1 (by decide)
    have hline := @lexerToken_line source (by omega) filename k hgap
    have hkp := hstable k hk hspans
    rw [show (lexerToken (lexerCreateSized source filename) k).line + 1 = (i + 1) + 1 by omega,
      lineKeepsMargin_iff] at hkp
    rwa [tail_getD, tail_getD]
  have hrun : ∀ k, (∀ j < k, ReadsToken (restAfter (sourceText source) j)) →
      ∃ m r, Reindented ((sourceLines source).map leading).tail
        (emittedLeadings source filename).tail final ((sourceText source).count (byte '\n')) m r
        (restAfter (sourceText source) k)
        (restAfter (sourceText (grayFmtSource source filename)) k) := by
    intro k
    induction k with
    | zero => exact fun _ => ⟨0, r, hst⟩
    | succ k ih =>
      intro hrd
      have hbef : ∀ j < k, ReadsToken (restAfter (sourceText source) j) :=
        fun j hj => hrd j (by omega)
      obtain ⟨m, r, h⟩ := ih hbef
      rw [restAfter_succ, restAfter_succ]
      exact ((hpair k hbef m r h).2 (hrd k (Nat.lt_succ_self k))).2.2
  have hsame : ∀ k ≤ n, (ReadsToken (restAfter (sourceText (grayFmtSource source filename)) k) ↔
        ReadsToken (restAfter (sourceText source) k)) := by
    intro k hk
    have hbef : ∀ j < k, ReadsToken (restAfter (sourceText source) j) :=
      fun j hj => hread j (by omega)
    obtain ⟨m, r, h⟩ := hrun k hbef
    exact (hpair k hbef m r h).1
  have hn : n' = n := by
    rcases Nat.lt_trichotomy n' n with hlt | heq | hgt
    · exact absurd ((hsame n' (by omega)).mpr (hread n' hlt)) hend'
    · exact heq
    · exact absurd ((hsame n (Nat.le_refl n)).mp (hread' n hgt)) hend
  subst hn
  rw [htoks, htoks', map_map, map_map]
  refine map_congr_left fun k hk => ?_
  have hk := mem_range.mp hk
  have hbef : ∀ j < k, ReadsToken (restAfter (sourceText source) j) :=
    fun j hj => hread j (by omega)
  obtain ⟨m, r, h⟩ := hrun k hbef
  obtain ⟨htype, hlns, -⟩ := (hpair k hbef m r h).2 (hread k hk)
  have hline := @lexerToken_line source (by omega) filename k
    (skipGap_ne_nil_of_type (hread k hk).1 (hread k hk).2)
  have hline' := @lexerToken_line (grayFmtSource source filename) (by omega) filename k
    (skipGap_ne_nil_of_type (hread' k hk).1 (hread' k hk).2)
  refine Prod.ext ?_ ?_
  · change (lexerToken _ k).type = (lexerToken _ k).type
    rw [lexerToken_type, lexerToken_type, htype]
  · change (lexerToken _ k).line = (lexerToken _ k).line
    omega

theorem depthLines_eq (maximumLine : ℕ) (tokens : List (TokenType × ℕ)) :
    depthLines maximumLine tokens = (tokenLoop maximumLine .start tokens).lines := rfl

theorem sourceText_sublist (input : Text) : (sourceText input).Sublist input := by
  unfold sourceText
  refine (take_sublist _ _).trans ?_
  split_ifs
  · exact drop_sublist _ _
  · exact List.Sublist.refl _

theorem depthTokens_line_le (filename : Option Text) (hnul : 0 ∉ source)
    (hmax : source.length + 2 ≤ intMax) {token : Token}
    (h : token ∈ depthTokens source filename) : token.line ≤ countLines source := by
  have hlen := sourceText_length_le source
  obtain ⟨n, htoks, hread, -⟩ := depthTokens_eq source filename
  rw [htoks, mem_map] at h
  obtain ⟨k, hk, rfl⟩ := h
  have hk := hread k (mem_range.mp hk)
  rw [lexerCreate_of_notMem hnul] at hk ⊢
  rw [isRead_iff] at hk
  have hline := @lexerToken_line source (by omega) filename k
    (skipGap_ne_nil_of_type hk.1 hk.2)
  have hcnt := (sourceText_sublist source).count_le (byte '\n')
  rw [countLines]
  omega

section

variable {source : Text} {filename : Option Text} (hnul : 0 ∉ source)
  (hmax : source.length + 2 ≤ intMax)
  (hmaxFormatted : (grayFmtSource source filename).length + 2 ≤ intMax)
  (hstable : FormatsStably source filename)
include hnul hmax hmaxFormatted hstable

theorem buildDepthTables_formatted : buildDepthTables (grayFmtSource source filename) filename
        (countLines (grayFmtSource source filename)) =
      buildDepthTables source filename (countLines source) := by
  have htoks := depthTokens_formatted hnul hmax hmaxFormatted hstable
  have hnul' := nul_notMem_grayFmtSource filename hnul
  have hle : ∀ token ∈ (depthTokens source filename).map fun t => (t.type, t.line),
      token.2 ≤ countLines source := by
    intro token htok
    obtain ⟨t, ht, rfl⟩ := mem_map.mp htok
    exact depthTokens_line_le filename hnul hmax ht
  have hle' : ∀ token ∈ (depthTokens source filename).map fun t => (t.type, t.line),
      token.2 ≤ countLines (grayFmtSource source filename) := by
    rw [← htoks]
    intro token htok
    obtain ⟨t, ht, rfl⟩ := mem_map.mp htok
    exact depthTokens_line_le filename hnul' hmaxFormatted ht
  rw [buildDepthTables, buildDepthTables, htoks, depthLines_eq, depthLines_eq,
    tokenLoop_congr _ hle hle']

end

/-! ### The second pass -/

theorem spaces_length {length : ℤ} : (spaces length).length = length.toNat := length_replicate

/-- On the second pass every delta is zero. -/
def FormatState.settled (s : FormatState) : FormatState := ⟨s.inBlockComment, 0, 0⟩

theorem formatLine_formatted {source formatted : Text} {tables : DepthTables} {n : ℕ}
    (hraw : lineIsInRawString formatted n = lineIsInRawString source n) (s : FormatState)
    (line : Text) : formatLine formatted tables n s.settled
        ((formatLine source tables n s line).1 ++ content line) =
      ((formatLine source tables n s line).1, (formatLine source tables n s line).2.settled) := by
  have hblk : ∀ c ∈ (formatLine source tables n s line).1, isBlank c := by
    have h := blanks_formatLines source tables n s [line]
    exact h _ (mem_cons_self ..)
  generalize hb : (formatLine source tables n s line).1 = b at hblk ⊢
  unfold formatLine at hb ⊢
  rw [content_append hblk, leading_append hblk, hraw]
  split_ifs at hb ⊢ with hbody hinRaw
  · rw [← hb]
  · exact Prod.ext rfl rfl
  · have hsettled : spaces (newLeadingLength tables n s.settled (b ++ content line)) = b := by
      rw [← hb, newLeadingLength, leading_append (by rw [hb]; exact hblk), spaces_length,
        newLeadingLength, FormatState.settled]
      dsimp only
      refine congrArg (replicate · (byte ' ')) ?_
      split_ifs <;> omega
    refine Prod.ext hsettled ?_
    rw [FormatState.next, FormatState.next, content_append hblk, leading_append hblk]
    by_cases hcom : s.inBlockComment
    · rw [if_pos (show s.settled.inBlockComment = true from hcom), if_pos hcom]
      rfl
    rw [if_neg (show ¬ s.settled.inBlockComment = true from hcom), if_neg hcom]
    by_cases hcontin : tables.isContinuation n
    · rw [if_pos hcontin, if_pos hcontin]
    rw [if_neg hcontin, if_neg hcontin]
    have hdelta : newLeadingLength tables n s.settled (b ++ content line) - b.length = 0 := by
      have hwid : ∀ s line, ¬ s.inBlockComment = true →
          newLeadingLength tables n s line = tables.depth n * formatIndentWidth := by
        intro s line h
        rw [newLeadingLength, if_neg h, if_neg hcontin]
      rw [hwid s line hcom] at hb
      rw [hwid s.settled _ hcom, ← hb, spaces_length]
      have hwid := Int.mul_nonneg (Int.natCast_nonneg (tables.depth n))
        (Int.natCast_nonneg formatIndentWidth)
      omega
    rw [hdelta]
    dsimp only
    split_ifs <;> rfl

theorem formatLines_formatted {source formatted : Text} {tables : DepthTables}
    (hraw : ∀ n, lineIsInRawString formatted n = lineIsInRawString source n) (n : ℕ)
    (s : FormatState) (lines : List Text) : formatLines formatted tables n s.settled
        (List.zipWith (fun b line => b ++ content line) (formatLines source tables n s lines) lines) =
      formatLines source tables n s lines := by
  induction lines generalizing n s with
  | nil => rfl
  | cons line lines ih =>
    have hline := @formatLine_formatted _ _ tables _ (hraw n) s line
    simp only [formatLines, zipWith_cons_cons, hline, ih]

/-- Formatting a formatted text changes nothing, unless a character literal of a line feed loses or
gains blanks, or blanks in front of a byte order mark are lost. -/
theorem format_idempotent (source : Text) (filename : Option Text) (hnul : 0 ∉ source)
    (hmax : source.length + 2 ≤ intMax)
    (hmaxFormatted : (grayFmtSource source filename).length + 2 ≤ intMax)
    (hstable : FormatsStably source filename) :
    grayFmtSource (grayFmtSource source filename) filename = grayFmtSource source filename := by
  have hlns : sourceLines (grayFmtSource source filename) =
      List.zipWith (fun b line => b ++ content line) (emittedLeadings source filename)
        (sourceLines source) := sourceLines_emitLines (blanks_emittedLeadings source filename)
      fun line hline => (lineFeed_notMem_of_mem_sourceLines hline).1
  have hleadings : emittedLeadings (grayFmtSource source filename) filename =
      emittedLeadings source filename := by
    rw [emittedLeadings, buildDepthTables_formatted hnul hmax hmaxFormatted hstable, hlns]
    exact formatLines_formatted (lineIsInRawString_formatted filename hnul) 1 ⟨false, 0, 0⟩ _
  have hcontents : ∀ (bs lines : List Text), Blanks bs →
      emitLines bs (List.zipWith (fun b line => b ++ content line) bs lines) =
        emitLines bs lines := by
    intro bs lines hbs
    induction bs generalizing lines with
    | nil => rfl
    | cons b bs ih =>
      cases lines with
      | nil => rfl
      | cons line lines =>
        rw [zipWith_cons_cons, emitLines_cons, emitLines_cons,
          content_append (hbs b (mem_cons_self ..)), ih _ fun b hb => hbs b (mem_cons_of_mem _ hb)]
  conv_lhs => rw [grayFmtSource, hleadings, hlns]
  exact hcontents _ _ (blanks_emittedLeadings source filename)

/-- A program in which the second pass has nothing to do. -/
theorem format_idempotent_block : FormatsStably (bytes "\x7b\na\n\x7d") none ∧
      grayFmtSource (grayFmtSource (bytes "\x7b\na\n\x7d") none) none =
        grayFmtSource (bytes "\x7b\na\n\x7d") none := by
  have hstable : FormatsStably (bytes "\x7b\na\n\x7d") none := by
    have hsrc : sourceText (bytes "\x7b\na\n\x7d") = bytes "\x7b\na\n\x7d" := by decide
    refine ⟨?_, fun k _ hspans => absurd hspans.1.1 ?_⟩
    · rintro ⟨b, l, hne, hb, hl⟩
      cases b with
      | nil => exact hne rfl
      | cons c b =>
        obtain ⟨rfl, -⟩ := List.cons.inj hl
        exact absurd (hb _ (mem_cons_self ..)) (by decide)
    · rw [hsrc]
      match k with
      | 0 => decide
      | 1 => decide
      | 2 => decide
      | k + 3 =>
        rw [restAfter_eq_nil (n := 3) (by decide) (k + 3) (by omega)]
        decide
  exact ⟨hstable, format_idempotent _ none (by decide) (by decide) (by decide) hstable⟩

/-- A character literal of a line feed, indented by the first pass, is illegal on the second. -/
theorem not_format_idempotent_char :
    grayFmtSource (grayFmtSource (bytes "\x7b'\n'\n\x7d") none) none ≠
      grayFmtSource (bytes "\x7b'\n'\n\x7d") none := by decide

end Grayscale
