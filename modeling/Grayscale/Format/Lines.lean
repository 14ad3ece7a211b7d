import Grayscale.Format.Literals

/-!
# The lines of a source

A source and its formatted text have the same lines but for the blanks in front of them: both are
indentations of one skeleton. This file cuts a source into lines and follows the line loop of the
formatter.
-/

namespace Grayscale

open List

/-! ### Cutting a source into lines -/

theorem sourceLines_of_notMem {u : Text} (hu : byte '\n' ∉ u) (hne : u ≠ []) :
    sourceLines u = [u] := by
  induction u with
  | nil => exact absurd rfl hne
  | cons c u ih =>
    rw [mem_cons, not_or] at hu
    rw [sourceLines, if_neg (Ne.symm hu.1)]
    cases u with
    | nil => rfl
    | cons d u => rw [ih hu.2 (cons_ne_nil d u)]

theorem sourceLines_append {u : Text} (hu : byte '\n' ∉ u) (e : Text) :
    sourceLines (u ++ byte '\n' :: e) = u :: sourceLines e := by
  induction u with
  | nil => rw [nil_append, sourceLines, if_pos rfl]
  | cons c u ih =>
    rw [mem_cons, not_or] at hu
    rw [cons_append, sourceLines, if_neg (Ne.symm hu.1), ih hu.2]

@[elab_as_elim]
theorem line_induction {P : Text → Prop} (nil : P [])
    (last : ∀ u, byte '\n' ∉ u → u ≠ [] → P u)
    (line : ∀ u e, byte '\n' ∉ u → P e → P (u ++ byte '\n' :: e)) (source : Text) : P source := by
  induction hn : source.length using Nat.strongRecOn generalizing source with
  | ind n ih =>
    subst hn
    obtain ⟨u, e, rfl, hu, he⟩ := exists_line source
    cases e with
    | nil =>
      rw [append_nil]
      by_cases hne : u = []
      · rw [hne]
        exact nil
      · exact last u hu hne
    | cons c e =>
      have hc : c = byte '\n' := he.resolve_left (cons_ne_nil c e)
      subst hc
      refine line u e hu (ih _ ?_ e rfl)
      rw [length_append, length_cons]
      omega

theorem lineFeed_notMem_of_mem_sourceLines {source line : Text} (h : line ∈ sourceLines source) :
    byte '\n' ∉ line ∧ ∀ c ∈ line, c ∈ source := by
  induction source using line_induction with
  | nil => exact absurd h (not_mem_nil)
  | last u hu hne =>
    rw [sourceLines_of_notMem hu hne, mem_singleton] at h
    rw [h]
    exact ⟨hu, fun _ hc => hc⟩
  | line u e hu ih =>
    rw [sourceLines_append hu, mem_cons] at h
    rcases h with rfl | h
    · exact ⟨hu, fun c hc => mem_append_left _ hc⟩
    · exact ⟨(ih h).1, fun c hc => mem_append_right _ (mem_cons_of_mem _ ((ih h).2 c hc))⟩

theorem isBlank_content (line : Text) : isBlank (byteAt (content line) 0) = false := by
  cases h : content line with
  | nil => rfl
  | cons c l =>
    have hhead := head_dropWhile_not isBlank (l := line)
      (by rw [show line.dropWhile isBlank = c :: l from h]; exact cons_ne_nil _ _)
    simp only [show line.dropWhile isBlank = c :: l from h, head_cons] at hhead
    exact hhead

theorem leading_append_content (line : Text) : leading line ++ content line = line :=
  takeWhile_append_dropWhile

theorem lineFeed_notMem_content {line : Text} (h : byte '\n' ∉ line) : byte '\n' ∉ content line :=
  fun hmem => h ((dropWhile_suffix isBlank).subset hmem)

theorem emitLines_cons (b line : Text) (bs lines : List Text) :
    emitLines (b :: bs) (line :: lines) = b ++ (content line ++ byte '\n' :: emitLines bs lines) := by
  rw [emitLines, zipWith_cons_cons, flatten_cons, append_assoc, append_assoc]
  rfl

variable (source : Text)

theorem exists_skeleton : ∃ sk final, IsFinal final ∧ Trimmed sk ∧
    isBlank (byteAt sk 0) = false ∧ (∀ c ∈ sk, c ∈ source) ∧
    source = ((sourceLines source).map leading).headD [] ++
      indent [] ((sourceLines source).map leading).tail sk ∧
    ∀ bs : List Text, bs.length = (sourceLines source).length →
      emitLines bs (sourceLines source) = bs.headD [] ++ indent final bs.tail sk := by
  induction source using line_induction with
  | nil =>
    refine ⟨[], [], .inl rfl, trivial, rfl, fun _ h => h, rfl, fun bs hbs => ?_⟩
    rw [eq_nil_of_length_eq_zero hbs]
    rfl
  | last u hu hne =>
    have hbody := lineFeed_notMem_content hu
    refine ⟨content u, [byte '\n'], .inr rfl, ?_, isBlank_content u,
      fun c hc => (dropWhile_suffix isBlank).subset hc, ?_, ?_⟩
    · have := Trimmed.append_of_notMem hbody (e := []) trivial
      rwa [append_nil] at this
    · rw [sourceLines_of_notMem hu hne]
      change u = leading u ++ indent [] [] (content u)
      rw [indent_of_notMem hbody, append_nil, leading_append_content]
    · intro bs hbs
      rw [sourceLines_of_notMem hu hne] at hbs ⊢
      obtain ⟨b, rfl⟩ := length_eq_one_iff.mp hbs
      rw [emitLines_cons]
      change _ = b ++ indent [byte '\n'] [] (content u)
      rw [indent_of_notMem hbody]
      rfl
  | line u e hu ih =>
    obtain ⟨sk, final, hfin, htrim, hbla, hmem, hsrc, hemit⟩ := ih
    have hbody := lineFeed_notMem_content hu
    refine ⟨content u ++ byte '\n' :: sk, final, hfin,
      .append_of_notMem hbody ⟨fun _ => hbla, htrim⟩, ?_, ?_, ?_, ?_⟩
    · cases hu : content u with
      | nil => rfl
      | cons c l =>
        have := isBlank_content u
        rw [hu] at this
        exact this
    · intro c hc
      rcases mem_append.mp hc with hc | hc
      · exact mem_append_left _ ((dropWhile_suffix isBlank).subset hc)
      · rcases mem_cons.mp hc with rfl | hc
        · exact mem_append_right _ (mem_cons_self ..)
        · exact mem_append_right _ (mem_cons_of_mem _ (hmem c hc))
    · rw [sourceLines_append hu, map_cons]
      change _ = leading u ++ indent [] ((sourceLines e).map leading) (content u ++ byte '\n' :: sk)
      rw [indent_append_of_notMem hbody, indent_lineFeed, ← hsrc, ← append_assoc,
        leading_append_content]
    · intro bs hbs
      rw [sourceLines_append hu] at hbs ⊢
      cases bs with
      | nil => cases hbs
      | cons b bs =>
        rw [emitLines_cons, hemit bs (Nat.succ.inj hbs)]
        change _ = b ++ indent final bs (content u ++ byte '\n' :: sk)
        rw [indent_append_of_notMem hbody, indent_lineFeed]

/-! ### The line loop -/

section

variable (source : Text) (tables : DepthTables)

/-- The loop variables of `gray_fmt_source` after a number of lines. -/
def stateBefore (s : FormatState) (lines : List Text) : ℕ → FormatState
  | 0 => s
  | n + 1 => (formatLine source tables (n + 1) (stateBefore s lines n) (lines.getD n [])).2

theorem formatLines_length (n : ℕ) (s : FormatState) (lines : List Text) :
    (formatLines source tables n s lines).length = lines.length := by
  induction lines generalizing n s with
  | nil => rfl
  | cons line lines ih => exact congrArg (· + 1) (ih _ _)

theorem formatLines_getD_add (i : ℕ) (s : FormatState) (lines front : List Text) (n : ℕ)
    (hi : front.length = i) (hn : n < lines.length)
    (hs : stateBefore source tables ⟨false, 0, 0⟩ (front ++ lines) i = s) :
    (formatLines source tables (i + 1) s lines).getD n [] = (formatLine source tables (i + n + 1)
        (stateBefore source tables ⟨false, 0, 0⟩ (front ++ lines) (i + n))
        (lines.getD n [])).1 := by
  induction lines generalizing i s front n with
  | nil => exact absurd hn (Nat.not_lt_zero n)
  | cons line lines ih =>
    have hline : (front ++ line :: lines).getD i [] = line := by
      rw [← hi]
      simp
    cases n with
    | zero =>
      subst hs
      rfl
    | succ n =>
      have hnext := ih (i + 1) (formatLine source tables (i + 1) s line).2 (front ++ [line]) n
        (by simp [hi]) (Nat.lt_of_succ_lt_succ hn)
        (by rw [append_assoc, singleton_append, stateBefore, hs, hline])
      rw [append_assoc, singleton_append, Nat.add_right_comm i 1 n] at hnext
      exact hnext

end

/-- The loop variables in front of line `n` of a source. -/
def lineState (source : Text) (filename : Option Text) (n : ℕ) : FormatState :=
  stateBefore source (buildDepthTables source filename (countLines source)) ⟨false, 0, 0⟩
    (sourceLines source) (n - 1)

/-- Line `n` of a source, without its line feed. -/
def sourceLine (source : Text) (n : ℕ) : Text := (sourceLines source).getD (n - 1) []

variable (filename : Option Text)

theorem leadings_length : (emittedLeadings source filename).length = (sourceLines source).length :=
  formatLines_length _ _ _ _ _

theorem emittedLeadings_getD {n : ℕ}
    (hn : n < (sourceLines source).length) : (emittedLeadings source filename).getD n [] =
      (formatLine source (buildDepthTables source filename (countLines source)) (n + 1)
        (lineState source filename (n + 1)) (sourceLine source (n + 1))).1 := by
  have h := formatLines_getD_add source (buildDepthTables source filename (countLines source)) 0
    ⟨false, 0, 0⟩ (sourceLines source) [] n rfl hn rfl
  simp only [Nat.zero_add, nil_append] at h
  exact h

theorem getD_eq_nil_of_length_le {l : List Text} {n : ℕ} (h : l.length ≤ n) : l.getD n [] = [] := by
  rw [getD_eq_getElem?_getD, getElem?_eq_none h]
  rfl

theorem lines_past_end {source : Text} (filename : Option Text) {n : ℕ}
    (hn : (sourceLines source).length ≤ n) :
    sourceLine source (n + 1) = [] ∧ (emittedLeadings source filename).getD n [] = [] := by
  rw [sourceLine, Nat.add_sub_cancel]
  exact ⟨getD_eq_nil_of_length_le hn, getD_eq_nil_of_length_le (by rwa [leadings_length])⟩

theorem leadings_getD (n : ℕ) :
    ((sourceLines source).map leading).getD n [] = leading (sourceLine source (n + 1)) := by
  rw [sourceLine, Nat.add_sub_cancel, getD_eq_getElem?_getD, getD_eq_getElem?_getD, getElem?_map]
  cases (sourceLines source)[n]? <;> rfl

/-- A line that is moved by `delta` stays where it is; it cannot move to the left of the margin. -/
def KeepsPlace (delta : ℤ) (blanks : Text) : Prop := delta = 0 ∨ (blanks = [] ∧ delta ≤ 0)

/-- A line whose blanks the formatter leaves as they are: a blank line without blanks, a line that
`line_is_in_raw_string` finds inside a raw string, or a line behind spaces only which the delta of
the block comment or continuation it is in does not move, or which stands at its brace depth. -/
def LineKept (source : Text) (filename : Option Text) (n : ℕ) : Prop :=
  let blanks := leading (sourceLine source n)
  let tables := buildDepthTables source filename (countLines source)
  let s := lineState source filename n
  if content (sourceLine source n) = [] then blanks = []
  else lineIsInRawString source n ∨ (∀ c ∈ blanks, c = byte ' ') ∧
    if s.inBlockComment then KeepsPlace s.blockCommentDelta blanks
    else if tables.isContinuation n then KeepsPlace s.continuationDelta blanks
    else blanks.length = tables.depth n * formatIndentWidth

theorem spaces_eq_iff (length : ℤ) (b : Text) :
    spaces length = b ↔ (∀ c ∈ b, c = byte ' ') ∧ length.toNat = b.length := by
  rw [spaces, eq_comm, eq_replicate_iff, and_comm, eq_comm (a := length.toNat)]

theorem keepsPlace_iff (delta : ℤ) (b : Text) :
    KeepsPlace delta b ↔ (b.length + delta).toNat = b.length := by
  rw [KeepsPlace, ← length_eq_zero_iff]
  omega

theorem lineKept_iff (n : ℕ) :
    LineKept source filename (n + 1) ↔ (emittedLeadings source filename).getD n [] =
      ((sourceLines source).map leading).getD n [] := by
  rcases Nat.lt_or_ge n (sourceLines source).length with hn | hn
  · rw [emittedLeadings_getD source filename hn, leadings_getD, LineKept, formatLine]
    by_cases hbody : content (sourceLine source (n + 1)) = []
    · rw [if_pos hbody, if_pos hbody]
      exact eq_comm
    rw [if_neg hbody, if_neg hbody]
    by_cases hraw : lineIsInRawString source (n + 1)
    · rw [if_pos hraw]
      exact iff_of_true (.inl hraw) rfl
    rw [if_neg hraw, or_iff_right hraw, spaces_eq_iff, newLeadingLength]
    refine and_congr_right fun _ => ?_
    split_ifs
    · exact keepsPlace_iff _ _
    · exact keepsPlace_iff _ _
    · exact eq_comm
  · obtain ⟨hline, hemitted⟩ := lines_past_end filename hn
    rw [LineKept, leadings_getD, hline, hemitted]
    exact iff_of_true rfl rfl

theorem isBlank_of_mem_spaces {n : ℤ} {c : UInt8} (h : c ∈ spaces n) : isBlank c := by
  rw [eq_of_mem_replicate h]
  decide

theorem isBlank_of_mem_leading {line : Text} {c : UInt8} (h : c ∈ leading line) : isBlank c :=
  mem_takeWhile_imp h

theorem blanks_leadings : Blanks ((sourceLines source).map leading) := by
  intro b hb c hc
  obtain ⟨line, -, rfl⟩ := mem_map.mp hb
  exact isBlank_of_mem_leading hc

theorem blanks_formatLines (tables : DepthTables) (n : ℕ) (s : FormatState)
    (lines : List Text) : Blanks (formatLines source tables n s lines) := by
  induction lines generalizing n s with
  | nil => exact fun b hb => absurd hb (not_mem_nil)
  | cons line lines ih =>
    intro b hb c hc
    rcases mem_cons.mp hb with rfl | hb
    · change c ∈ (formatLine source tables n s line).1 at hc
      unfold formatLine at hc
      split_ifs at hc
      · exact absurd hc not_mem_nil
      · exact isBlank_of_mem_leading hc
      · exact isBlank_of_mem_spaces hc
    · exact ih _ _ b hb c hc

theorem blanks_emittedLeadings : Blanks (emittedLeadings source filename) :=
  blanks_formatLines _ _ _ _ _

end Grayscale
