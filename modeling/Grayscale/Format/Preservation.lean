import Grayscale.Format.Reindent
import Mathlib.Data.Nat.Find

/-!
# Formatting and the tokens of a program

The formatter decides line by line which blanks to write. A line that starts inside a token keeps
its blanks only where `line_is_in_raw_string` finds it inside a raw string, or where the blanks it
has are those that the formatter computes. The tokens of a source are the tokens of the formatted
text exactly when every line that starts inside a token keeps its blanks.
-/

namespace Grayscale

open List

/-! ### One call -/

/-- The lines that start inside a token keep their blanks. -/
def KeptBlanks (gs fs : List Text) (n m : ℕ) : Prop :=
  ∀ j < m, gs.getD (n + j) [] = fs.getD (n + j) []

theorem tail_getD (bs : List Text) (j : ℕ) : bs.tail.getD j [] = bs.getD (j + 1) [] := by
  cases bs <;> rfl

theorem indent_congr {bs bs' : List Text} {l : Text}
    (h : ∀ j < l.count (byte '\n'), bs.getD j [] = bs'.getD j []) :
    indent [] bs l = indent [] bs' l := by
  induction l generalizing bs bs' with
  | nil => rw [indent_nil, indent_nil]
  | cons c l ih =>
    by_cases hc : c = byte '\n'
    · subst hc
      rw [count_cons_self] at h
      have htail : indent [] bs.tail l = indent [] bs'.tail l := ih fun j hj => by
        rw [tail_getD, tail_getD]
        exact h (j + 1) (by omega)
      rw [indent_lineFeed, indent_lineFeed, headD_eq_getD, headD_eq_getD, h 0 (by omega), htail]
    · rw [count_cons_of_ne hc] at h
      rw [indent_cons hc, indent_cons hc, ih h]

theorem LiteralPair.eq_iff {gs fs : List Text} (hgs : Blanks gs) (hfs : Blanks fs) {n m : ℕ}
    {literal literal' : Text} (h : LiteralPair gs fs n m literal literal') :
    literal' = literal ↔ KeptBlanks gs fs n m := by
  rcases h with ⟨rfl, rfl⟩ | ⟨text, rfl, rfl, rfl, htext⟩
  · exact iff_of_true rfl fun j hj => absurd hj (Nat.not_lt_zero j)
  · constructor
    · intro h j hj
      have hkept := htext.indent_injective (hgs.drop n) (hfs.drop n) h.symm j hj
      rwa [getD_drop, getD_drop] at hkept
    · intro h
      refine (indent_congr fun j hj => ?_).symm
      rw [getD_drop, getD_drop]
      exact h j hj

/-- A call that returns a legal token of the source: where the token and what follows it start,
and when the call on the formatted text returns the same token. -/
structure LegalCall (gs fs : List Text) (final : Text) (total n m : ℕ) (l l' : Text) : Prop where
  start_eq : n + (skipGap l).1.count (byte '\n') = total
  next_eq : n + m + (nextRest l).count (byte '\n') = total
  ne_endOfFile : (nextScan l).type ≠ .endOfFile
  sameToken_iff : SameToken l l' ↔ KeptBlanks gs fs n m
  next : KeptBlanks gs fs n m →
    ∃ r, Reindented gs fs final total (n + m) r (nextRest l) (nextRest l')

theorem CallPair.legal {gs fs : List Text} {final : Text} {total : ℕ} {l l' : Text}
    (h : CallPair gs fs final total l l') (hgs : Blanks gs) (hfs : Blanks fs)
    (hleg : (nextScan l).type ≠ .illegal) :
    ((nextScan l).type = .endOfFile ∧ SameToken l l' ∧ nextRest l = [] ∧ nextRest l' = []) ∨
      ∃ n m, LegalCall gs fs final total n m l l' := by
  cases h with
  | illegal h => exact absurd h hleg
  | endOfFile h h' hrest hrest' =>
    exact .inl ⟨by rw [h]; rfl, ⟨by rw [h, h'], by rw [h, h']⟩, hrest, hrest'⟩
  | token n hleft hrgt hne htype hnext =>
    obtain ⟨m, r, hnext, hcnt, hlit⟩ := hnext hleg
    refine .inr ⟨n, m, hleft, hcnt, hne, ?_, fun _ => ⟨r, hnext⟩⟩
    exact (and_iff_right htype).trans (hlit.eq_iff hgs hfs)
  | charLine n quoted hleft hrgt hne hspans hl hl' hcnt hnext =>
    obtain ⟨hblk, hquo⟩ := hl.mp hleg
    have hkept : KeptBlanks gs fs n 1 ↔ fs.getD n [] = [] := by
      constructor
      · intro h
        exact (h 0 (by omega)).symm.trans hblk
      · intro h j hj
        rw [Nat.lt_one_iff.mp hj]
        exact hblk.trans h.symm
    refine .inr ⟨n, 1, hleft, hcnt hblk hquo, hne, ⟨fun h => hkept.mpr (hl'.mp ?_).1,
      fun h => (hnext hblk (hkept.mp h) hquo).1⟩, fun h =>
        (hnext hblk (hkept.mp h) hquo).2⟩
    rw [h.1]
    exact hleg

/-! ### Lines -/

theorem lexerRun_created_rest (input : Text) (file : Option Text) (k : ℕ) :
    (lexerRun (lexerCreateSized input file) k).rest = restAfter (sourceText input) k := by
  rw [lexerRun_rest]
  simp [lexerCreateSized]

section

variable {input : Text} (hmax : (sourceText input).length + 2 ≤ intMax) (file : Option Text)
include hmax

theorem lexerToken_line (k : ℕ) (h : (skipGap (restAfter (sourceText input) k)).1 ≠ []) :
    (lexerToken (lexerCreateSized input file) k).line +
      (skipGap (restAfter (sourceText input) k)).1.count (byte '\n') =
        1 + (sourceText input).count (byte '\n') := by
  have htracks := (create_tracks input file).run hmax k
  have hrest := lexerRun_created_rest input file k
  have haft : (lexerRun (lexerCreateSized input file) k).afterGap.rest =
      (skipGap (restAfter (sourceText input) k)).1 := by
    rw [Lexer.afterGap_rest, hrest]
    rfl
  have hgap : (lexerRun (lexerCreateSized input file) k).afterGap.Tracks (sourceText input) :=
    htracks.advance hmax _
  have hdrop := hgap.rest_eq
  rw [haft] at hdrop
  have hpos : (lexerRun (lexerCreateSized input file) k).afterGap.position ≤
      (sourceText input).length := by
    by_contra hlt
    rw [drop_eq_nil_of_le (by omega)] at hdrop
    exact h hdrop
  rw [lexerToken, (htracks.token_position hmax hpos).1, lineOf, hdrop, Nat.add_assoc,
    ← count_append, take_append_drop]

theorem lineOf_position (k : ℕ) :
    lineOf ((sourceText input).take (lexerRun (lexerCreateSized input file) k).position) +
      (restAfter (sourceText input) k).count (byte '\n') =
        1 + (sourceText input).count (byte '\n') := by
  have htracks := (create_tracks input file).run hmax k
  have hrest := lexerRun_created_rest input file k
  rw [← hrest, htracks.rest_eq, lineOf, Nat.add_assoc, ← count_append, take_append_drop]

end

/-! ### The tokens that the formatter reads -/

/-- A token that the token loop of `build_depth_tables` reads. -/
def IsRead (token : Token) : Prop := token.type ≠ .endOfFile ∧ token.type ≠ .illegal

instance (token : Token) : Decidable (IsRead token) := inferInstanceAs (Decidable (_ ∧ _))

theorem takeWhile_lexFrom {fuel n : ℕ} {lexer : Lexer} (hfuel : n < fuel)
    (hbef : ∀ k < n, IsRead (lexerToken lexer k)) (hn : ¬ IsRead (lexerToken lexer n)) :
    ((lexFrom fuel lexer).map Prod.fst).takeWhile (IsRead ·) =
      (List.range n).map (lexerToken lexer) := by
  induction n generalizing fuel lexer with
  | zero =>
    obtain ⟨fuel, rfl⟩ : ∃ m, fuel = m + 1 := ⟨fuel - 1, by omega⟩
    have hfst : decide (IsRead (lexerNextToken lexer).1) = false := decide_eq_false hn
    rw [lexFrom]
    dsimp only
    split_ifs <;> simp [hfst]
  | succ n ih =>
    obtain ⟨fuel, rfl⟩ : ∃ m, fuel = m + 1 := ⟨fuel - 1, by omega⟩
    have hfst : IsRead (lexerNextToken lexer).1 := hbef 0 (by omega)
    have hshf : ∀ k, lexerToken lexer (k + 1) = lexerToken (lexerNextToken lexer).2 k := by
      intro k
      rw [lexerToken, lexerRun_succ']
      rfl
    rw [lexFrom]
    dsimp only
    rw [if_neg hfst.1, map_cons, takeWhile_cons_of_pos (by simpa using hfst),
      ih (by omega) (fun k hk => by rw [← hshf]; exact hbef (k + 1) (by omega))
        (by rwa [← hshf]), range_succ_eq_map, map_cons, map_map]
    refine congrArg₂ _ rfl (map_congr_left fun k _ => ?_)
    exact (hshf k).symm

theorem depthTokens_eq (source : Text) (filename : Option Text) : ∃ n, depthTokens source filename =
        (List.range n).map (lexerToken (lexerCreate source filename)) ∧
      (∀ k < n, IsRead (lexerToken (lexerCreate source filename) k)) ∧
      ¬ IsRead (lexerToken (lexerCreate source filename) n) := by
  obtain ⟨m, hm, -, haft⟩ := exists_calls_endOfFile (lexerCreate source filename)
  have hex : ∃ n, ¬ IsRead (lexerToken (lexerCreate source filename) n) :=
    ⟨m, fun h => h.1 (haft m (Nat.le_refl m))⟩
  have hle : Nat.find hex ≤ m := Nat.find_min' hex fun h => h.1 (haft m (Nat.le_refl m))
  refine ⟨Nat.find hex, ?_, fun k hk => not_not.mp (Nat.find_min hex hk), Nat.find_spec hex⟩
  exact takeWhile_lexFrom (by omega) (fun k hk => not_not.mp (Nat.find_min hex hk))
    (Nat.find_spec hex)

/-! ### The start of a source -/

theorem skipGap_blanks {b : Text} (hb : ∀ c ∈ b, isBlank c) (l : Text) :
    skipGap (b ++ l) = skipGap l :=
  skipGap_append_whitespace l fun c hc => isWhitespace_of_isBlank (hb c hc)
/-- A source that starts with blanks in front of a byte order mark. -/
def BlankBeforeMark (source : Text) : Prop :=
  ∃ b l, b ≠ [] ∧ (∀ c ∈ b, isBlank c) ∧ source = b ++ (byteOrderMark ++ l)

theorem isPrefixOf_mark_blanks {b : Text} (hb : ∀ c ∈ b, isBlank c) (hne : b ≠ []) (l : Text) :
    byteOrderMark.isPrefixOf (b ++ l) = false := by
  cases b with
  | nil => exact absurd rfl hne
  | cons c b =>
    have hc : (0xEF : UInt8) ≠ c := by
      rintro rfl
      exact absurd (hb _ (mem_cons_self ..)) (by decide)
    rw [cons_append, byteOrderMark, isPrefixOf_cons_cons, Bool.and_eq_false_iff]
    exact .inl (beq_eq_false_iff_ne.mpr hc)

theorem token_mark (l : Text) : (scanToken (byteOrderMark ++ l)).type = .illegal := by
  have hscan : scanToken (byteOrderMark ++ l) = scanUnexpected (byteOrderMark ++ l) := by
    change scanToken (0xEF :: 0xBB :: 0xBF :: l) = scanUnexpected (0xEF :: 0xBB :: 0xBF :: l)
    rw [scanToken, if_neg (cons_ne_nil _ _)]
    simp +decide only [byteAt_zero, if_neg]
    rfl
  rw [hscan]
  unfold scanUnexpected
  dsimp only
  split_ifs <;> rfl

variable {source : Text}

theorem BlankBeforeMark.illegal (h : BlankBeforeMark source)
    (hmax : source.length ≤ intMax) : (nextScan (sourceText source)).type = .illegal := by
  obtain ⟨b, l, hne, hb, rfl⟩ := h
  have hgap : skipGap (b ++ (byteOrderMark ++ l)) = (byteOrderMark ++ l, none) := by
    rw [skipGap_blanks hb]
    exact skipGap_stop (by decide) fun h => absurd h (by decide)
  rw [sourceText, isPrefixOf_mark_blanks hb hne, if_neg Bool.false_ne_true,
    take_of_length_le hmax, nextScan_of_none (by rw [hgap]), hgap]
  exact token_mark l

theorem sourceText_blanks {b l : Text} (hb : ∀ c ∈ b, isBlank c)
    (hmark : byteOrderMark.isPrefixOf l = false) (hmax : (b ++ l).length ≤ intMax) :
    sourceText (b ++ l) = b ++ l := by
  have hnone : byteOrderMark.isPrefixOf (b ++ l) = false := by
    by_cases hne : b = []
    · rwa [hne]
    · exact isPrefixOf_mark_blanks hb hne l
  rw [sourceText, hnone, if_neg Bool.false_ne_true, take_of_length_le hmax]

theorem sourceText_mark {l : Text} (hmax : (byteOrderMark ++ l).length ≤ intMax) :
    sourceText (byteOrderMark ++ l) = l := by
  have hmark : byteOrderMark.isPrefixOf (byteOrderMark ++ l) = true :=
    List.isPrefixOf_iff_prefix.mpr (prefix_append _ _)
  rw [sourceText, if_pos hmark]
  change List.take intMax l = l
  rw [length_append] at hmax
  exact take_of_length_le (by omega)

/-! ### The first line -/

theorem DepthState.closeBrace_depth {s : DepthState} (h : s.depth = 0) :
    s.closeBrace.depth = 0 := by
  unfold DepthState.closeBrace
  split
  · exact h
  · exact (congrArg (· - 1) h).trans (Nat.zero_sub 1)
  · exact (congrArg (· - 1) h).trans (Nat.zero_sub 1)

theorem DepthState.token_lines_of_ne {maximumLine n line : ℕ} (s : DepthState) (type : TokenType)
    (h : line ≠ n) : (s.token maximumLine type line).lines n = s.lines n := by
  unfold DepthState.token
  split_ifs
  · rfl
  · rfl
  all_goals exact Function.update_of_ne (Ne.symm h) _ _

theorem DepthState.token_table {maximumLine n d : ℕ} {s : DepthState}
    (h : (s.lines n).table = some d) (type : TokenType) (line : ℕ) :
    ((s.token maximumLine type line).lines n).table = some d := by
  by_cases hline : line = n
  · subst hline
    unfold DepthState.token
    dsimp only
    split_ifs <;> simp [h]
  · rw [DepthState.token_lines_of_ne s type hline, h]
def tokenLoop (maximumLine : ℕ) (s : DepthState) (tokens : List (TokenType × ℕ)) : DepthState :=
  tokens.foldl (fun s token => s.token maximumLine token.1 token.2) s

theorem tokenLoop_lines_of_ne {maximumLine n : ℕ} {tokens : List (TokenType × ℕ)} (s : DepthState)
    (h : ∀ token ∈ tokens, token.2 ≠ n) : (tokenLoop maximumLine s tokens).lines n = s.lines n := by
  induction tokens generalizing s with
  | nil => rfl
  | cons token tokens ih =>
    exact (ih _ fun t ht => h t (mem_cons_of_mem _ ht)).trans
      (s.token_lines_of_ne token.1 (h token (mem_cons_self ..)))

theorem tokenLoop_table {maximumLine n d : ℕ} {s : DepthState} (h : (s.lines n).table = some d)
    (tokens : List (TokenType × ℕ)) :
    ((tokenLoop maximumLine s tokens).lines n).table = some d := by
  induction tokens generalizing s with
  | nil => exact h
  | cons token tokens ih => exact ih (DepthState.token_table h token.1 token.2)

theorem tokenLoop_first_line {maximumLine : ℕ} {s : DepthState} (hdep : s.depth = 0)
    (htab : (s.lines 1).table = none) {tokens : List (TokenType × ℕ)}
    (hpos : ∀ token ∈ tokens, 1 ≤ token.2) (hsort : tokens.Pairwise fun a b => a.2 ≤ b.2) :
    ((tokenLoop maximumLine s tokens).lines 1).table.getD 0 = 0 := by
  induction tokens generalizing s with
  | nil =>
    change (s.lines 1).table.getD 0 = 0
    rw [htab]
    rfl
  | cons token tokens ih =>
    obtain ⟨hle, hsort⟩ := pairwise_cons.mp hsort
    have hpos' : ∀ t ∈ tokens, 1 ≤ t.2 := fun t ht => hpos t (mem_cons_of_mem _ ht)
    have hfst := hpos token (mem_cons_self ..)
    change ((tokenLoop maximumLine (s.token maximumLine token.1 token.2) tokens).lines 1).table.getD 0
      = 0
    by_cases hline : token.2 = 1
    · by_cases hskip : token.1 = .newline
      · rw [DepthState.token, if_pos hskip]
        exact ih hdep htab hpos' hsort
      · by_cases hmax : token.2 < 1 ∨ token.2 > maximumLine
        · rw [DepthState.token, if_neg hskip, if_pos hmax]
          exact ih (s := { s with previousType := token.1 }) hdep htab hpos' hsort
        · have htab : ((s.token maximumLine token.1 token.2).lines 1).table = some 0 := by
            rw [DepthState.token, if_neg hskip, if_neg hmax, hline]
            dsimp only
            rw [Function.update_self, htab, Option.getD_none]
            have hcl := DepthState.closeBrace_depth hdep
            split_ifs <;> simp [hcl, hdep]
          rw [tokenLoop_table htab]
          rfl
    · rw [tokenLoop_lines_of_ne _ fun t ht => ?_, s.token_lines_of_ne token.1 hline, htab]
      · rfl
      · have := hle t ht
        omega

theorem restAfter_suffix (l : Text) {j k : ℕ} (hjk : j ≤ k) :
    (skipGap (restAfter l k)).1 <:+ (skipGap (restAfter l j)).1 := by
  induction k, hjk using Nat.le_induction with
  | base => exact suffix_rfl
  | succ k hk ih =>
    rw [restAfter_succ]
    exact ((Scan.rest_suffix gapStep () _).trans (drop_suffix _ _)).trans ih

section

variable {input : Text} (hmax : (sourceText input).length + 2 ≤ intMax) (file : Option Text)
include hmax

theorem lexerToken_line_le {j k : ℕ} (hjk : j ≤ k)
    (hj : (skipGap (restAfter (sourceText input) j)).1 ≠ [])
    (hk : (skipGap (restAfter (sourceText input) k)).1 ≠ []) :
    (lexerToken (lexerCreateSized input file) j).line ≤
      (lexerToken (lexerCreateSized input file) k).line := by
  have hst := lexerToken_line hmax file j hj
  have hend := lexerToken_line hmax file k hk
  have hcnt := (restAfter_suffix (sourceText input) hjk).sublist.count_le (byte '\n')
  omega

theorem lexerToken_line_pos (k : ℕ) (h : (skipGap (restAfter (sourceText input) k)).1 ≠ []) :
    1 ≤ (lexerToken (lexerCreateSized input file) k).line := by
  have hline := lexerToken_line hmax file k h
  have hsuf := (restAfter_suffix (sourceText input) (Nat.zero_le k)).trans
    (Scan.rest_suffix gapStep () (sourceText input))
  have hcnt := hsuf.sublist.count_le (byte '\n')
  omega

end

theorem lexerToken_type (input : Text) (file : Option Text) (k : ℕ) :
    (lexerToken (lexerCreateSized input file) k).type =
      (nextScan (restAfter (sourceText input) k)).type :=
  congrArg Prod.fst (stream_create input file k)

theorem skipGap_ne_nil_of_type {l : Text} (hend : (nextScan l).type ≠ .endOfFile)
    (hleg : (nextScan l).type ≠ .illegal) : (skipGap l).1 ≠ [] := by
  intro hnil
  cases hgap : (skipGap l).2 with
  | some error => exact hleg (by rw [nextScan_of_some hgap]; rfl)
  | none => exact hend (by rw [nextScan_of_none hgap, hnil]; rfl)

theorem lexerCreate_of_notMem (h : 0 ∉ source) (file : Option Text) :
    lexerCreate source file = lexerCreateSized source file := by
  rw [lexerCreate, takeWhile_eq_self_iff.mpr fun c hc => ?_]
  rw [bne_iff_ne]
  rintro rfl
  exact h hc

variable (filename : Option Text)

theorem buildDepthTables_depth_one (maximumLine : ℕ)
    (hnul : 0 ∉ source) (hmax : source.length + 2 ≤ intMax) :
    (buildDepthTables source filename maximumLine).depth 1 = 0 := by
  have hlen := sourceText_length_le source
  obtain ⟨n, htoks, hread, -⟩ := depthTokens_eq source filename
  rw [lexerCreate_of_notMem hnul] at htoks hread
  have hgap : ∀ k < n, (skipGap (restAfter (sourceText source) k)).1 ≠ [] := by
    intro k hk
    have h := hread k hk
    rw [IsRead, lexerToken_type] at h
    exact skipGap_ne_nil_of_type h.1 h.2
  rw [buildDepthTables, htoks]
  refine tokenLoop_first_line (s := .start) rfl rfl ?_ ?_
  · intro token htok
    simp only [map_map, mem_map, mem_range] at htok
    obtain ⟨k, hk, rfl⟩ := htok
    exact lexerToken_line_pos (by omega) filename k (hgap k hk)
  · rw [map_map, pairwise_map]
    refine (pairwise_lt_range).imp_of_mem fun hj hk hlt => ?_
    exact lexerToken_line_le (by omega) filename (Nat.le_of_lt hlt)
      (hgap _ (mem_range.mp hj)) (hgap _ (mem_range.mp hk))

theorem leadings_first (hnul : 0 ∉ source)
    (hmax : source.length + 2 ≤ intMax) (h : ((sourceLines source).map leading).headD [] = []) :
    (emittedLeadings source filename).headD [] = [] := by
  have hkept : LineKept source filename (0 + 1) := by
    have hleading : leading (sourceLine source 1) = [] := by
      rw [sourceLine]
      cases hlns : sourceLines source with
      | nil => rfl
      | cons line lines =>
        rw [hlns] at h
        exact h
    rw [LineKept, hleading]
    have hsps : ∀ c ∈ ([] : Text), c = byte ' ' := fun c hc => absurd hc not_mem_nil
    split_ifs with hbody hcom hcontin
    · rfl
    · exact .inr ⟨hsps, .inl rfl⟩
    · exact .inr ⟨hsps, .inl rfl⟩
    · refine .inr ⟨hsps, ?_⟩
      rw [buildDepthTables_depth_one filename _ hnul hmax]
      rfl
  rw [lineKept_iff, ← headD_eq_getD, ← headD_eq_getD, h] at hkept
  exact hkept
/-! ### A source and its formatted text -/

theorem nul_notMem_grayFmtSource (hnul : 0 ∉ source) : 0 ∉ grayFmtSource source filename := by
  obtain ⟨sk, final, hfin, -, -, hmem, -, hemit⟩ := exists_skeleton source
  rw [grayFmtSource, hemit _ (leadings_length source filename)]
  have hblk := blanks_emittedLeadings source filename
  rw [mem_append, not_or]
  exact ⟨fun h => absurd (hblk.headD 0 h) (by decide),
    nul_notMem_indent hfin hblk.tail fun h => hnul (hmem 0 h)⟩

theorem formatted_reindented (hnul : 0 ∉ source)
    (hmax : source.length + 2 ≤ intMax)
    (hmaxf : (grayFmtSource source filename).length + 2 ≤ intMax)
    (hmark : ¬ BlankBeforeMark source) : ∃ final r, IsFinal final ∧
      (sourceText (grayFmtSource source filename)).count (byte '\n') =
        (sourceText source).count (byte '\n') + final.count (byte '\n') ∧
      Reindented ((sourceLines source).map leading).tail (emittedLeadings source filename).tail final
        ((sourceText source).count (byte '\n')) 0 r (sourceText source)
        (sourceText (grayFmtSource source filename)) := by
  obtain ⟨sk, final, hfin, htrim, -, hmem, hsrc, hemit⟩ := exists_skeleton source
  have hform : grayFmtSource source filename = (emittedLeadings source filename).headD [] ++
      indent final (emittedLeadings source filename).tail sk :=
    hemit _ (leadings_length source filename)
  have hfst := leadings_first filename hnul hmax
  have hgs := blanks_leadings source
  have hfs := blanks_emittedLeadings source filename
  generalize (sourceLines source).map leading = gs at *
  generalize emittedLeadings source filename = fs at *
  have hsk : 0 ∉ sk := fun h => hnul (hmem 0 h)
  have hpat : byteOrderMark.any isLineEnd = false := by decide
  have hmarkLeft : byteOrderMark.isPrefixOf (indent [] gs.tail sk) = byteOrderMark.isPrefixOf sk :=
    (sameLine_indent (.inl rfl) sk).isPrefixOf hpat
  have hmarkRight : byteOrderMark.isPrefixOf (indent final fs.tail sk) =
      byteOrderMark.isPrefixOf sk := (sameLine_indent hfin sk).isPrefixOf hpat
  cases hpre : byteOrderMark.isPrefixOf sk with
  | false =>
    rw [hpre] at hmarkLeft hmarkRight
    have hleft : sourceText source = gs.headD [] ++ indent [] gs.tail sk := by
      rw [hsrc, sourceText_blanks hgs.headD hmarkLeft (by rw [← hsrc]; omega)]
    have hrgt : sourceText (grayFmtSource source filename) =
        fs.headD [] ++ indent final fs.tail sk := by
      rw [hform, sourceText_blanks hfs.headD hmarkRight (by rw [← hform]; omega)]
    refine ⟨final, sk, hfin, ?_, hsk, htrim, ?_, ?_, ?_⟩
    · rw [hleft, hrgt, count_append, count_append, count_indent hgs.tail,
        count_indent hfs.tail, lineFeed_count_blanks hgs.headD, lineFeed_count_blanks hfs.headD,
        count_nil, Nat.zero_add, Nat.zero_add, Nat.add_zero]
    · rw [hleft, count_append, count_indent hgs.tail, count_nil, lineFeed_count_blanks hgs.headD]
      rfl
    · rw [ReadsLike, hleft, skipGap_blanks hgs.headD, drop_zero]
    · rw [ReadsLike, hrgt, skipGap_blanks hfs.headD, drop_zero]
  | true =>
    obtain ⟨r, rfl⟩ := List.isPrefixOf_iff_prefix.mp hpre
    have hlns : byte '\n' ∉ byteOrderMark := by decide
    have hnone : gs.headD [] = [] := by
      by_contra hne
      rw [indent_append_of_notMem hlns] at hsrc
      exact hmark ⟨_, _, hne, hgs.headD, hsrc⟩
    rw [hnone, nil_append, indent_append_of_notMem hlns] at hsrc
    rw [hfst hnone, nil_append, indent_append_of_notMem hlns] at hform
    have hleft : sourceText source = indent [] gs.tail r := by
      rw [hsrc, sourceText_mark (by rw [← hsrc]; omega)]
    have hrgt : sourceText (grayFmtSource source filename) = indent final fs.tail r := by
      rw [hform, sourceText_mark (by rw [← hform]; omega)]
    refine ⟨final, r, hfin, ?_, fun h => hsk (mem_append_right _ h), htrim.right, ?_, ?_, ?_⟩
    · rw [hleft, hrgt, count_indent hgs.tail, count_indent hfs.tail, count_nil, Nat.add_zero]
    · rw [hleft, count_indent hgs.tail, count_nil, Nat.zero_add, Nat.add_zero]
    · rw [ReadsLike, hleft, drop_zero]
    · rw [ReadsLike, hrgt, drop_zero]

/-! ### Runs -/

/-- The lines that start inside the token of a call keep their blanks. -/
def KeptInCall (source : Text) (filename : Option Text) (k : ℕ) : Prop :=
  ∀ n, (lexerToken (lexerCreate source filename) k).line < n → n ≤ lineOf ((sourceText source).take
      (lexerRun (lexerCreate source filename) (k + 1)).position) → LineKept source filename n

/-- Where the lexer is in a source and in its formatted text after the same number of calls. -/
def InStep (gs fs : List Text) (final : Text) (total : ℕ) (l l' : Text) : Prop :=
  (∃ n r, Reindented gs fs final total n r l l') ∨ (l = [] ∧ l' = [])

section

variable {source : Text} {filename : Option Text} (hmax : source.length + 2 ≤ intMax)
  (hnul : 0 ∉ source)
include hmax hnul

theorem LegalCall.keptInCall_iff {fs gs : List Text} {final l' : Text} {n m k : ℕ}
    (hgs : gs = ((sourceLines source).map leading).tail)
    (hfs : fs = (emittedLeadings source filename).tail)
    (h : LegalCall gs fs final ((sourceText source).count (byte '\n')) n m
      (restAfter (sourceText source) k) l')
    (hgap : (skipGap (restAfter (sourceText source) k)).1 ≠ []) :
    KeptInCall source filename k ↔ KeptBlanks gs fs n m := by
  have hlen := sourceText_length_le source
  have hline := @lexerToken_line source (by omega) filename k hgap
  have hend := @lineOf_position source (by omega) filename (k + 1)
  have hst := h.start_eq
  have hnext := h.next_eq
  rw [restAfter_succ] at hend
  rw [KeptInCall, lexerCreate_of_notMem hnul]
  have hlineEq : (lexerToken (lexerCreateSized source filename) k).line = n + 1 := by omega
  have hendEq : lineOf ((sourceText source).take
      (lexerRun (lexerCreateSized source filename) (k + 1)).position) = n + m + 1 := by omega
  rw [hlineEq, hendEq]
  have hkept : ∀ j, LineKept source filename (n + j + 2) ↔
      gs.getD (n + j) [] = fs.getD (n + j) [] := by
    intro j
    rw [lineKept_iff, hgs, hfs, tail_getD, tail_getD, eq_comm]
  constructor
  · intro h j hj
    exact (hkept j).mp (h (n + j + 2) (by omega) (by omega))
  · intro h i hi hle
    obtain ⟨j, rfl⟩ : ∃ j, i = n + j + 2 := ⟨i - n - 2, by omega⟩
    exact (hkept j).mpr (h j (by omega))

end

theorem InStep.call {filename : Option Text} (hmax : source.length + 2 ≤ intMax)
    (hnul : 0 ∉ source) {final l' : Text} {k : ℕ} (hfin : IsFinal final)
    (hleg : (nextScan (restAfter (sourceText source) k)).type ≠ .illegal)
    (h : InStep ((sourceLines source).map leading).tail (emittedLeadings source filename).tail final
      ((sourceText source).count (byte '\n')) (restAfter (sourceText source) k) l') :
    (SameToken (restAfter (sourceText source) k) l' ↔
        ((nextScan (restAfter (sourceText source) k)).type ≠ .endOfFile →
          KeptInCall source filename k)) ∧ (SameToken (restAfter (sourceText source) k) l' →
        InStep ((sourceLines source).map leading).tail (emittedLeadings source filename).tail final
          ((sourceText source).count (byte '\n')) (restAfter (sourceText source) (k + 1))
          (nextRest l')) := by
  rw [restAfter_succ]
  rcases h with ⟨n, r, h⟩ | ⟨hl, hl'⟩
  · have hgs := (blanks_leadings source).tail
    have hfs := (blanks_emittedLeadings source filename).tail
    rcases (h.call hgs hfs hfin).legal hgs hfs hleg with
      ⟨hend, hsame, hrest, hrest'⟩ | ⟨n, m, hcall⟩
    · exact ⟨iff_of_true hsame fun h => absurd hend h, fun _ => .inr ⟨hrest, hrest'⟩⟩
    · have hkept := hcall.keptInCall_iff hmax hnul rfl rfl
        (skipGap_ne_nil_of_type hcall.ne_endOfFile hleg)
      refine ⟨?_, fun h => .inl ?_⟩
      · rw [hcall.sameToken_iff, hkept]
        exact ⟨fun h _ => h, fun h => h hcall.ne_endOfFile⟩
      · exact ⟨n + m, hcall.next (hcall.sameToken_iff.mp h)⟩
  · rw [hl, hl']
    exact ⟨iff_of_true ⟨rfl, rfl⟩ fun h => absurd rfl h, fun _ => .inr ⟨rfl, rfl⟩⟩

/-- Two texts with the same lines but for the blanks in front of them and a line feed at the
end. -/
def DifferInBlanks (source formatted : Text) : Prop :=
  ∃ sk final gs fs, IsFinal final ∧ Blanks gs ∧ Blanks fs ∧
    source = gs.headD [] ++ indent [] gs.tail sk ∧ formatted = fs.headD [] ++ indent final fs.tail sk

/-- Formatting a source does not change the program. -/
def FormatPreserves (source : Text) (filename : Option Text) : Prop :=
  tokenStream (lexerCreate (grayFmtSource source filename) filename) =
      tokenStream (lexerCreate source filename) ∧
    DifferInBlanks source (grayFmtSource source filename)

theorem differInBlanks_grayFmtSource (source : Text) (filename : Option Text) :
    DifferInBlanks source (grayFmtSource source filename) := by
  obtain ⟨sk, final, hfin, -, -, -, hsrc, hemit⟩ := exists_skeleton source
  exact ⟨sk, final, _, _, hfin, blanks_leadings source, blanks_emittedLeadings source filename,
    hsrc, hemit _ (leadings_length source filename)⟩

/-- The tokens stay the same exactly when every line that starts inside a token keeps its
blanks. -/
theorem format_preserves_tokens_iff (source : Text) (filename : Option Text) (hnul : 0 ∉ source)
    (hmax : source.length + 2 ≤ intMax)
    (hmaxFormatted : (grayFmtSource source filename).length + 2 ≤ intMax)
    (hlegal : ∀ k, (lexerToken (lexerCreate source filename) k).type ≠ .illegal) :
    FormatPreserves source filename ↔
      ∀ k, (lexerToken (lexerCreate source filename) k).type ≠ .endOfFile →
        KeptInCall source filename k := by
  rw [lexerCreate_of_notMem hnul] at hlegal ⊢
  simp only [lexerToken_type] at hlegal ⊢
  have hmark : ¬ BlankBeforeMark source := fun h => hlegal 0 (h.illegal (by omega))
  obtain ⟨final, r, hfin, -, hst⟩ := formatted_reindented filename hnul hmax hmaxFormatted hmark
  have hsts : (∀ k, SameToken (restAfter (sourceText source) k)
        (restAfter (sourceText (grayFmtSource source filename)) k)) ↔
      ∀ k, (nextScan (restAfter (sourceText source) k)).type ≠ .endOfFile →
        KeptInCall source filename k := by
    -- in both directions, every call leaves the two lexers in step
    have hinStep : ∀ k, (∀ j < k, SameToken (restAfter (sourceText source) j)
          (restAfter (sourceText (grayFmtSource source filename)) j)) →
        InStep ((sourceLines source).map leading).tail (emittedLeadings source filename).tail final
          ((sourceText source).count (byte '\n')) (restAfter (sourceText source) k)
          (restAfter (sourceText (grayFmtSource source filename)) k) := by
      intro k
      induction k with
      | zero => exact fun _ => .inl ⟨0, r, hst⟩
      | succ k ih =>
        intro hsame
        rw [restAfter_succ (sourceText (grayFmtSource source filename))]
        exact ((ih fun j hj => hsame j (by omega)).call hmax hnul hfin (hlegal k)).2
          (hsame k (Nat.lt_succ_self k))
    constructor
    · intro hsame k
      exact ((hinStep k fun j _ => hsame j).call hmax hnul hfin (hlegal k)).1.mp (hsame k)
    · intro hkept k
      induction k using Nat.strongRecOn with
      | ind k ih => exact ((hinStep k ih).call hmax hnul hfin (hlegal k)).1.mpr (hkept k)
  rw [← hsts, FormatPreserves, and_iff_left (differInBlanks_grayFmtSource source filename),
    lexerCreate_of_notMem hnul, lexerCreate_of_notMem (nul_notMem_grayFmtSource filename hnul)]
  constructor
  · intro h k
    have hk := congrFun h k
    rw [stream_create, stream_create] at hk
    exact Prod.mk.inj hk
  · intro h
    funext k
    rw [stream_create, stream_create, (h k).1, (h k).2]
theorem legal_of_restAfter_eq_nil {source : Text} {filename : Option Text} (hnul : 0 ∉ source)
    {n : ℕ} (hnil : restAfter (sourceText source) n = [])
    (h : ∀ k < n, (nextScan (restAfter (sourceText source) k)).type ≠ .illegal) (k : ℕ) :
    (lexerToken (lexerCreate source filename) k).type ≠ .illegal := by
  rw [lexerCreate_of_notMem hnul, lexerToken_type]
  rcases Nat.lt_or_ge k n with hk | hk
  · exact h k hk
  · rw [restAfter_eq_nil hnil k hk]
    decide

/-- A raw string with indented lines is kept. -/
theorem format_preserves_rawString :
    (∀ k, (lexerToken (lexerCreate (bytes " x = \x60a\n  b\x60") none) k).type ≠ .illegal) ∧
      FormatPreserves (bytes " x = \x60a\n  b\x60") none := by
  have hnul : 0 ∉ bytes " x = \x60a\n  b\x60" := by decide
  have hleg : ∀ k, (lexerToken (lexerCreate (bytes " x = \x60a\n  b\x60") none) k).type ≠
      .illegal := legal_of_restAfter_eq_nil hnul (n := 3) (by decide) (by decide)
  refine ⟨hleg, (format_preserves_tokens_iff _ none hnul (by decide) (by decide) hleg).mpr ?_⟩
  intro k hend n hn hle
  match k with
  | 0 =>
    have hline : 1 < n ∧ n ≤ 1 := ⟨hn, hle⟩
    omega
  | 1 =>
    have hline : 1 < n ∧ n ≤ 1 := ⟨hn, hle⟩
    omega
  | 2 =>
    have hline : 1 < n ∧ n ≤ 2 := ⟨hn, hle⟩
    obtain rfl : n = 2 := by omega
    exact (lineKept_iff _ _ 1).mpr (by decide)
  | k + 3 =>
    rw [lexerCreate_of_notMem hnul, lexerToken_type,
      restAfter_eq_nil (n := 3) (by decide) (k + 3) (by omega)] at hend
    exact absurd rfl hend

/-- The blanks of a blank line in a raw string are lost. -/
theorem not_formatPreserves_rawString :
    (∀ k, (lexerToken (lexerCreate (bytes "x = \x60a\n  \n\x60") none) k).type ≠ .illegal) ∧
      ¬ FormatPreserves (bytes "x = \x60a\n  \n\x60") none := by
  refine ⟨legal_of_restAfter_eq_nil (by decide) (n := 3) (by decide) (by decide), fun h => ?_⟩
  exact absurd (congrFun h.1 2) (by decide)

end Grayscale
