import Grayscale.Lexer.Locality

/-!
# The token stream of a text

The kind and literal of a token, and what is left after it, depend on the bytes from the position
of the lexer on only. This file follows the lexer on those bytes alone: one call skips a gap and
scans a token, and a run repeats this.
-/

namespace Grayscale

open List

/-! ### Gaps -/

/-- What is left after the gap in front of a text, and the error the gap leaves. -/
def skipGap (l : Text) : Text × Option LexError :=
  ((Scan.run gapStep () l).rest, gapError (skipWhitespaceAndComments l))

theorem gapError_cons (item : GapItem) (gap : List GapItem) : gapError (item :: gap) =
      if item matches .unclosedComment _ then some unclosedCommentError else gapError gap := by
  unfold gapError
  rw [any_cons]
  cases item <;> simp

variable {l : Text} {c : UInt8}

theorem skipGapText_cons {round : Scan.Round Unit GapItem}
    (h : gapStep () (c :: l) = some round) : skipWhitespaceAndComments (c :: l) =
      round.output :: skipWhitespaceAndComments (l.drop round.extra) := by
  rw [skipWhitespaceAndComments, Scan.run_cons gapStep h, Scan.Result.cons_outputs]
  rfl

theorem skipGap_cons {round : Scan.Round Unit GapItem}
    (h : gapStep () (c :: l) = some round) : skipGap (c :: l) = ((skipGap (l.drop round.extra)).1,
      if round.output matches .unclosedComment _ then some unclosedCommentError
      else (skipGap (l.drop round.extra)).2) := by
  unfold skipGap skipWhitespaceAndComments
  rw [Scan.run_cons gapStep h, Scan.Result.cons_rest, Scan.Result.cons_outputs, gapError_cons]

@[simp] theorem skipGap_nil : skipGap [] = ([], none) := rfl

theorem gapStep_whitespace (l : Text) (hc : isWhitespace c) :
    gapStep () (c :: l) = some ⟨.whitespace c, (), 0⟩ := by
  rw [gapStep, byteAt_zero, if_pos hc]

theorem skipGap_whitespace (l : Text) (hc : isWhitespace c) : skipGap (c :: l) = skipGap l := by
  rw [skipGap_cons (gapStep_whitespace l hc)]
  simp

theorem skipGap_append_whitespace {blanks : Text} (l : Text)
    (hblk : ∀ c ∈ blanks, isWhitespace c) : skipGap (blanks ++ l) = skipGap l := by
  induction blanks with
  | nil => rfl
  | cons c blanks ih =>
    rw [cons_append, skipGap_whitespace _ (hblk c (mem_cons_self ..)),
      ih fun d hd => hblk d (mem_cons_of_mem c hd)]

/-- The end of a line comment: a line feed, a NUL byte, or the end of the text. -/
def EndsComment (l : Text) : Prop := byteAt l 0 = byte '\n' ∨ byteAt l 0 = 0

variable {body : Text}

theorem skipLine_append (hbody : ∀ c ∈ body, c ≠ byte '\n' ∧ c ≠ 0) (hl : EndsComment l) :
    skipLineComment (body ++ l) = body := by
  have hall : ∀ c ∈ body, (c != byte '\n' && c != 0) = true := by
    intro c hc
    obtain ⟨hlf, hnul⟩ := hbody c hc
    rw [Bool.and_eq_true, bne_iff_ne, bne_iff_ne]
    exact ⟨hlf, hnul⟩
  rw [skipLineComment, takeWhile_append_of_pos hall]
  cases l with
  | nil => simp
  | cons c l =>
    rw [takeWhile_cons_of_neg, append_nil]
    rcases hl with h | h <;> rw [byteAt_zero] at h <;> rw [h] <;> decide

theorem not_isWhitespace_slash : ¬ isWhitespace (byteAt (byte '/' :: l) 0) = true :=
  show ¬ isWhitespace (byte '/') = true by decide

theorem gapStep_lineComment (hbody : ∀ c ∈ body, c ≠ byte '\n' ∧ c ≠ 0) (hl : EndsComment l) :
    gapStep () (byte '/' :: byte '/' :: (body ++ l)) =
      some ⟨.lineComment body, (), 1 + body.length⟩ := by
  rw [gapStep, if_neg not_isWhitespace_slash, if_pos ⟨rfl, rfl⟩]
  simp only [drop_succ_cons, drop_zero, skipLine_append hbody hl]

theorem skipGap_lineComment (hbody : ∀ c ∈ body, c ≠ byte '\n' ∧ c ≠ 0) (hl : EndsComment l) :
    skipGap (byte '/' :: byte '/' :: (body ++ l)) = skipGap l := by
  rw [skipGap_cons (gapStep_lineComment hbody hl)]
  simp [Nat.add_comm 1]

theorem gapStep_blockComment
    (hbody : skipBlockComment (body ++ byte '*' :: byte '/' :: l) = (body, true)) :
    gapStep () (byte '/' :: byte '*' :: (body ++ byte '*' :: byte '/' :: l)) =
      some ⟨.blockComment body, (), 3 + body.length⟩ := by
  rw [gapStep, if_neg not_isWhitespace_slash, if_neg (by simp), if_pos ⟨rfl, rfl⟩]
  simp only [drop_succ_cons, drop_zero, hbody]

theorem drop_blockComment (c : UInt8) (body l : Text) :
    (c :: (body ++ byte '*' :: byte '/' :: l)).drop (3 + body.length) = l := by
  rw [show 3 + body.length = (body.length + 2) + 1 by omega, drop_succ_cons, drop_length_add_append]
  rfl

theorem skipGap_blockComment
    (hbody : skipBlockComment (body ++ byte '*' :: byte '/' :: l) = (body, true)) :
    skipGap (byte '/' :: byte '*' :: (body ++ byte '*' :: byte '/' :: l)) = skipGap l := by
  rw [skipGap_cons (gapStep_blockComment hbody), drop_blockComment]
  rfl

theorem gapStep_stop (hc : isWhitespace c = false)
    (hsla : c = byte '/' → byteAt l 0 ≠ byte '/' ∧ byteAt l 0 ≠ byte '*') :
    gapStep () (c :: l) = none := by
  rw [gapStep]
  simp only [byteAt_zero, byteAt_succ, hc]
  rw [if_neg (by simp), if_neg fun h => (hsla h.1).1 h.2, if_neg fun h => (hsla h.1).2 h.2]

theorem skipGap_stop (hc : isWhitespace c = false)
    (hsla : c = byte '/' → byteAt l 0 ≠ byte '/' ∧ byteAt l 0 ≠ byte '*') :
    skipGap (c :: l) = (c :: l, none) := by
  unfold skipGap skipWhitespaceAndComments
  rw [Scan.run_stop gapStep (gapStep_stop hc hsla)]
  rfl

theorem skipGap_of_byteAt_eq_zero (h : byteAt l 0 = 0) : skipGap l = (l, none) := by
  cases l with
  | nil => rfl
  | cons c l =>
    rw [byteAt_zero] at h
    subst h
    exact skipGap_stop (by decide) fun h => absurd h (by decide)

theorem skipGapText_of_byteAt_eq_zero (h : byteAt l 0 = 0) : skipWhitespaceAndComments l = [] := by
  cases l with
  | nil => rfl
  | cons c l =>
    rw [byteAt_zero] at h
    subst h
    rw [skipWhitespaceAndComments,
      Scan.run_stop gapStep (gapStep_stop (by decide) fun h => absurd h (by decide))]

theorem gapStep_unclosed (hbody : skipBlockComment (body ++ l) = (body, false)) :
    gapStep () (byte '/' :: byte '*' :: (body ++ l)) =
      some ⟨.unclosedComment body, (), 1 + body.length⟩ := by
  rw [gapStep, if_neg not_isWhitespace_slash, if_neg (by simp), if_pos ⟨rfl, rfl⟩]
  simp only [drop_succ_cons, drop_zero, hbody]

theorem skipGap_unclosed (hbody : skipBlockComment (body ++ l) = (body, false))
    (hl : byteAt l 0 = 0) :
    skipGap (byte '/' :: byte '*' :: (body ++ l)) = (l, some unclosedCommentError) := by
  rw [skipGap_cons (gapStep_unclosed hbody)]
  simp [Nat.add_comm 1, skipGap_of_byteAt_eq_zero hl]

@[elab_as_elim]
theorem gap_induction {P : Text → Prop} (nil : P [])
    (whitespace : ∀ c l, isWhitespace c → P l → P (c :: l))
    (lineComment : ∀ body l, (∀ c ∈ body, c ≠ byte '\n' ∧ c ≠ 0) → EndsComment l → P l →
      P (byte '/' :: byte '/' :: (body ++ l)))
    (blockComment : ∀ body l,
      skipBlockComment (body ++ byte '*' :: byte '/' :: l) = (body, true) → P l →
        P (byte '/' :: byte '*' :: (body ++ byte '*' :: byte '/' :: l)))
    (unclosedComment : ∀ body l, skipBlockComment (body ++ l) = (body, false) → byteAt l 0 = 0 →
      P (byte '/' :: byte '*' :: (body ++ l)))
    (stop : ∀ c l, isWhitespace c = false →
      (c = byte '/' → byteAt l 0 ≠ byte '/' ∧ byteAt l 0 ≠ byte '*') → P (c :: l))
    (l : Text) : P l := by
  induction hn : l.length using Nat.strongRecOn generalizing l with
  | ind n ih =>
    subst hn
    cases l with
    | nil => exact nil
    | cons c l =>
      by_cases hc : isWhitespace c
      · exact whitespace c l hc (ih l.length (by simp) l rfl)
      · by_cases hline : c = byte '/' ∧ byteAt l 0 = byte '/'
        · obtain ⟨rfl, hl⟩ := hline
          obtain ⟨t, rfl⟩ := cons_of_byteAt hl (by decide)
          have hrnd : gapStep () (byte '/' :: byte '/' :: t) =
              some ⟨.lineComment (skipLineComment t), (), 1 + (skipLineComment t).length⟩ := by
            rw [gapStep, if_neg not_isWhitespace_slash, if_pos ⟨rfl, rfl⟩]
            rfl
          obtain ⟨htext, hbody, hend⟩ := gapStep_spec hrnd
          have ht : t = skipLineComment t ++ t.drop (skipLineComment t).length := by
            rw [skipLineComment, Scan.drop_length_takeWhile, takeWhile_append_dropWhile]
          rw [Nat.add_comm, drop_succ_cons] at hend
          rw [ht]
          refine lineComment _ _ hbody hend (ih _ ?_ _ rfl)
          simp only [length_drop, length_cons]
          omega
        · by_cases hblock : c = byte '/' ∧ byteAt l 0 = byte '*'
          · obtain ⟨rfl, hl⟩ := hblock
            obtain ⟨t, rfl⟩ := cons_of_byteAt hl (by decide)
            rcases skipBlock_text t with ⟨hcls, rest, ht⟩ | ⟨hcls, rest, ht, hrest⟩
            · have hskip : skipBlockComment t = ((skipBlockComment t).1, true) := Prod.ext rfl hcls
              generalize (skipBlockComment t).1 = body at ht hskip
              subst ht
              refine blockComment body rest hskip (ih _ ?_ _ rfl)
              simp only [length_append, length_cons]
              omega
            · have hskip : skipBlockComment t = ((skipBlockComment t).1, false) := Prod.ext rfl hcls
              generalize (skipBlockComment t).1 = body at ht hskip
              subst ht
              exact unclosedComment body rest hskip hrest
          · exact stop c l (by simpa using hc) fun h =>
              ⟨fun hl => hline ⟨h, hl⟩, fun hl => hblock ⟨h, hl⟩⟩

/-! ### Calls -/

/-- The token that a call returns in front of `l`. -/
def nextScan (l : Text) : TokenScan :=
  match skipGap l with
  | (_, some error) => .illegal error 0
  | (rest, none) => scanToken rest

/-- What a call leaves of `l`. -/
def nextRest (l : Text) : Text := (skipGap l).1.drop (nextScan l).length

theorem nextScan_of_none (h : (skipGap l).2 = none) : nextScan l = scanToken (skipGap l).1 := by
  rw [nextScan, ← Prod.eta (skipGap l), h]

theorem nextScan_of_some {error : LexError} (h : (skipGap l).2 = some error) :
    nextScan l = .illegal error 0 := by
  rw [nextScan, ← Prod.eta (skipGap l), h]

/-- What two calls return is the same. -/
def SameToken (l l' : Text) : Prop :=
  (nextScan l').type = (nextScan l).type ∧ (nextScan l').literal = (nextScan l).literal

variable (lexer : Lexer)

theorem nextToken_nextScan : (lexerNextToken lexer).1.type = (nextScan lexer.rest).type ∧
      (lexerNextToken lexer).1.literal = (nextScan lexer.rest).literal ∧
      (lexerNextToken lexer).2.rest = nextRest lexer.rest := by
  have hgap : (skipGap lexer.rest).1 = lexer.afterGap.rest := lexer.afterGap_rest.symm
  cases herr : gapError (skipWhitespaceAndComments lexer.rest) with
  | some error =>
    have hskip : skipGap lexer.rest = (lexer.afterGap.rest, some error) := Prod.ext hgap herr
    rw [nextToken_of_gapError herr, nextRest, nextScan, hskip]
    exact ⟨rfl, rfl, rfl⟩
  | none =>
    have hskip : skipGap lexer.rest = (lexer.afterGap.rest, none) := Prod.ext hgap herr
    rw [nextToken_of_gap herr, nextRest, nextScan, hskip]
    exact ⟨rfl, rfl, Lexer.advance_rest _ _⟩

/-- The kind and literal of the token that the call after `calls` calls returns. -/
def tokenStream (lexer : Lexer) (calls : ℕ) : TokenType × Text :=
  ((lexerToken lexer calls).type, (lexerToken lexer calls).literal)

def restAfter (l : Text) (calls : ℕ) : Text := nextRest^[calls] l

theorem restAfter_succ (l : Text) (calls : ℕ) :
    restAfter l (calls + 1) = nextRest (restAfter l calls) := Function.iterate_succ_apply' _ _ _

theorem restAfter_eq_nil {n : ℕ} (h : restAfter l n = []) (k : ℕ) (hk : n ≤ k) :
    restAfter l k = [] := by
  induction k, hk using Nat.le_induction with
  | base => exact h
  | succ k _ ih =>
    rw [restAfter_succ, ih]
    rfl

theorem lexerRun_rest (calls : ℕ) : (lexerRun lexer calls).rest = restAfter lexer.rest calls := by
  induction calls with
  | zero => rfl
  | succ calls ih =>
    rw [lexerRun_succ, (nextToken_nextScan _).2.2, ih, restAfter_succ]

theorem stream_eq (calls : ℕ) :
    tokenStream lexer calls = ((nextScan (restAfter lexer.rest calls)).type,
      (nextScan (restAfter lexer.rest calls)).literal) := by
  rw [← lexerRun_rest]
  obtain ⟨htype, hlit, -⟩ := nextToken_nextScan (lexerRun lexer calls)
  exact Prod.ext htype hlit

theorem stream_create (input : Text) (file : Option Text) (calls : ℕ) :
    tokenStream (lexerCreateSized input file) calls =
      ((nextScan (restAfter (sourceText input) calls)).type,
        (nextScan (restAfter (sourceText input) calls)).literal) := by
  rw [stream_eq, lexerCreateSized, Lexer.enter_rest]

end Grayscale
