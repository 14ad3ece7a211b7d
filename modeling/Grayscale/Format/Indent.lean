import Grayscale.Lexer.Stream
import Grayscale.Lexer.Strings
import Grayscale.Format.Source

/-!
# Lexing a text under indentation

Two texts that differ only in the blanks at the starts of their lines are both indentations of
one text, their skeleton. This file follows the lexer on a skeleton and on an indentation of it:
gaps and tokens go the same way, and the blanks in front of the lines inside a token become part
of its literal. The one exception is a character literal that starts with a line feed, which holds
one character on the skeleton and more than one under indentation.
-/

namespace Grayscale

open List

/-- The text with the given blanks after its line feeds, in order, and `final` at its end. -/
def indent (final : Text) : List Text → Text → Text
  | _, [] => final
  | bs, c :: l =>
    if c = byte '\n' then c :: (bs.headD [] ++ indent final bs.tail l) else c :: indent final bs l

def Blanks (bs : List Text) : Prop := ∀ b ∈ bs, ∀ c ∈ b, isBlank c

/-- The final part of an indentation: nothing, or a line feed. -/
def IsFinal (final : Text) : Prop := final = [] ∨ final = [byte '\n']

section

variable {final : Text} {bs : List Text}

theorem Blanks.tail (h : Blanks bs) : Blanks bs.tail := fun b hb => h b (mem_of_mem_tail hb)

theorem Blanks.drop (h : Blanks bs) (n : ℕ) : Blanks (bs.drop n) :=
  fun b hb => h b (mem_of_mem_drop hb)

theorem Blanks.headD (h : Blanks bs) : ∀ c ∈ bs.headD [], isBlank c := by
  cases bs with
  | nil => simp
  | cons b bs => exact h b (mem_cons_self ..)

@[simp] theorem indent_nil : indent final bs [] = final := by
  cases bs <;> rfl

@[simp] theorem indent_lineFeed (l : Text) :
    indent final bs (byte '\n' :: l) = byte '\n' :: (bs.headD [] ++ indent final bs.tail l) := by
  rw [indent, if_pos rfl]

theorem indent_cons {c : UInt8} (h : c ≠ byte '\n') (l : Text) :
    indent final bs (c :: l) = c :: indent final bs l := by
  rw [indent, if_neg h]

theorem indent_cons_eq (c : UInt8) (l : Text) : ∃ l', indent final bs (c :: l) = c :: l' := by
  rw [indent]
  split_ifs
  · exact ⟨_, rfl⟩
  · exact ⟨_, rfl⟩

theorem byteAt_indent {l : Text} (h : l ≠ []) : byteAt (indent final bs l) 0 = byteAt l 0 := by
  cases l with
  | nil => exact absurd rfl h
  | cons c l =>
    obtain ⟨l', h⟩ := @indent_cons_eq final bs c l
    rw [h]
    rfl

theorem drop_succ_tail {α : Type*} (l : List α) (n : ℕ) : l.tail.drop n = l.drop (n + 1) := by
  cases l with
  | nil => simp
  | cons a l => rfl

theorem indent_append (u e : Text) : indent final bs (u ++ e) =
    indent [] bs u ++ indent final (bs.drop (u.count (byte '\n'))) e := by
  induction u generalizing bs with
  | nil => simp
  | cons c u ih =>
    by_cases hc : c = byte '\n'
    · subst hc
      rw [cons_append, indent_lineFeed, indent_lineFeed, ih, count_cons_self, drop_succ_tail]
      simp
    · rw [cons_append, indent_cons hc, indent_cons hc, ih, count_cons_of_ne hc]
      rfl

theorem indent_of_notMem {l : Text} (h : byte '\n' ∉ l) : indent final bs l = l ++ final := by
  induction l with
  | nil => simp
  | cons c l ih =>
    rw [mem_cons, not_or] at h
    rw [indent_cons (Ne.symm h.1), ih h.2]
    rfl

theorem indent_append_of_notMem {u : Text} (h : byte '\n' ∉ u) (e : Text) :
    indent final bs (u ++ e) = u ++ indent final bs e := by
  rw [indent_append, indent_of_notMem h, append_nil, count_eq_zero_of_not_mem h, drop_zero]

theorem lineFeed_count_blanks {b : Text} (hb : ∀ c ∈ b, isBlank c) : b.count (byte '\n') = 0 :=
  count_eq_zero_of_not_mem fun h => absurd (hb _ h) (by decide)

theorem count_indent (hbs : Blanks bs) (l : Text) : (indent final bs l).count (byte '\n') =
    l.count (byte '\n') + final.count (byte '\n') := by
  induction l generalizing bs with
  | nil => simp
  | cons c l ih =>
    by_cases hc : c = byte '\n'
    · subst hc
      rw [indent_lineFeed, count_cons_self, count_append,
        lineFeed_count_blanks hbs.headD, ih hbs.tail, count_cons_self]
      omega
    · rw [indent_cons hc, count_cons_of_ne hc, count_cons_of_ne hc, ih hbs]

theorem nul_notMem_indent (hfinal : IsFinal final) (hbs : Blanks bs) {l : Text} (hl : 0 ∉ l) :
    0 ∉ indent final bs l := by
  induction l generalizing bs with
  | nil =>
    rw [indent_nil]
    rcases hfinal with rfl | rfl
    · exact not_mem_nil
    · decide
  | cons c l ih =>
    rw [mem_cons, not_or] at hl
    by_cases hc : c = byte '\n'
    · subst hc
      rw [indent_lineFeed, mem_cons, mem_append, not_or, not_or]
      exact ⟨hl.1, fun h => absurd (hbs.headD 0 h) (by decide), ih hbs.tail hl.2⟩
    · rw [indent_cons hc, mem_cons, not_or]
      exact ⟨hl.1, ih hbs hl.2⟩

theorem isWhitespace_of_isBlank {c : UInt8} (h : isBlank c) : isWhitespace c := by
  simp only [isBlank, isWhitespace, Bool.or_eq_true, beq_iff_eq] at h ⊢
  tauto

variable (hfinal : IsFinal final)
include hfinal

theorem IsFinal.endsWithLineFeed : EndsWithLineFeed final := by
  rcases hfinal with rfl | rfl
  · exact .inl rfl
  · exact .inr rfl

theorem sameLine_indent (l : Text) : SameLine l (indent final bs l) := by
  induction l with
  | nil =>
    rw [indent_nil]
    exact .ends (.inl rfl) (hfinal.endsWithLineFeed.imp_right .inl)
  | cons c l ih =>
    by_cases hc : c = byte '\n'
    · subst hc
      rw [indent_lineFeed]
      exact .ends (.inr (.inl rfl)) (.inr (.inl rfl))
    · rw [indent_cons hc]
      exact .cons c ih

theorem byteAt_indent_of_nil : byteAt (indent final bs []) 0 = 0 ∨
    byteAt (indent final bs []) 0 = byte '\n' := by
  rw [indent_nil]
  rcases hfinal with rfl | rfl
  · exact .inl rfl
  · exact .inr rfl

theorem byteAt_indent_eq_iff {l : Text} {c : UInt8} (hc : c ≠ 0 ∧ isLineEnd c = false) :
    byteAt (indent final bs l) 0 = c ↔ byteAt l 0 = c := (sameLine_indent hfinal l).byteAt_iff hc

end

/-! ### Gaps -/

section

variable {final : Text} {bs : List Text} (hfinal : IsFinal final) (hbs : Blanks bs)

theorem skipBlock_cons_of_ne {c : UInt8} (l : Text) (hc : c ≠ 0 ∧ c ≠ byte '*') :
    skipBlockComment (c :: l) = (c :: (skipBlockComment l).1, (skipBlockComment l).2) := by
  rw [skipBlockComment, if_neg hc.1, if_neg fun h => hc.2 h.1]

theorem skipBlock_blanks {b : Text} (hb : ∀ c ∈ b, isBlank c) (l : Text) :
    skipBlockComment (b ++ l) = (b ++ (skipBlockComment l).1, (skipBlockComment l).2) := by
  induction b with
  | nil => rfl
  | cons c b ih =>
    have hc : c ≠ 0 ∧ c ≠ byte '*' := by
      have := hb c (mem_cons_self ..)
      constructor <;> rintro rfl <;> exact absurd this (by decide)
    rw [cons_append, skipBlock_cons_of_ne _ hc, ih fun d hd => hb d (mem_cons_of_mem c hd)]
    rfl

include hfinal hbs

theorem skipBlock_indent (l : Text) (hnul : 0 ∉ l) :
    (skipBlockComment (indent final bs l)).2 = (skipBlockComment l).2 ∧
      ((skipBlockComment l).2 = true →
        (skipBlockComment (indent final bs l)).1 = indent [] bs (skipBlockComment l).1) := by
  induction l generalizing bs with
  | nil =>
    rw [indent_nil]
    rcases hfinal with rfl | rfl <;> exact ⟨rfl, fun h => absurd h (by decide)⟩
  | cons c l ih =>
    rw [mem_cons, not_or] at hnul
    by_cases hc : c = byte '\n'
    · subst hc
      obtain ⟨hcls, hbody⟩ := ih hbs.tail hnul.2
      rw [indent_lineFeed, skipBlock_cons_of_ne _ (by decide),
        skipBlock_cons_of_ne _ (by decide), skipBlock_blanks hbs.headD]
      refine ⟨hcls, fun h => ?_⟩
      rw [indent_lineFeed]
      dsimp only
      rw [hbody h]
    · obtain ⟨hcls, hbody⟩ := ih hbs hnul.2
      have hsla := @byteAt_indent_eq_iff final bs hfinal l (byte '/') (by decide)
      rw [indent_cons hc, skipBlockComment, skipBlockComment, if_neg (Ne.symm hnul.1),
        if_neg (Ne.symm hnul.1)]
      by_cases hstar : c = byte '*' ∧ byteAt l 0 = byte '/'
      · rw [if_pos hstar, if_pos ⟨hstar.1, hsla.mpr hstar.2⟩]
        exact ⟨rfl, fun _ => by rw [indent_nil]⟩
      · rw [if_neg hstar, if_neg fun h => hstar ⟨h.1, hsla.mp h.2⟩]
        refine ⟨hcls, fun h => ?_⟩
        rw [indent_cons hc]
        dsimp only
        rw [hbody h]

omit hfinal hbs in
theorem skipGap_snd_of_unclosed {l : Text} (h : (skipBlockComment l).2 = false) :
    (skipGap (byte '/' :: byte '*' :: l)).2 = some unclosedCommentError := by
  rcases skipBlock_text l with ⟨hcls, -⟩ | ⟨-, rest, hl, hrest⟩
  · rw [h] at hcls
    cases hcls
  · have hskip : skipBlockComment ((skipBlockComment l).1 ++ rest) =
        ((skipBlockComment l).1, false) := by
      rw [← hl]
      exact Prod.ext rfl h
    conv_lhs => rw [hl, skipGap_unclosed hskip hrest]

/-- The gap in front of an indentation is the one in front of its skeleton. -/
theorem skipGap_indent (l : Text) (hnul : 0 ∉ l) :
    (skipGap (indent final bs l)).2 = (skipGap l).2 ∧ ((skipGap l).2 = none →
      ∃ u, l = u ++ (skipGap l).1 ∧ skipGap (indent final bs l) =
        skipGap (indent final (bs.drop (u.count (byte '\n'))) (skipGap l).1)) := by
  induction l using gap_induction generalizing bs with
  | nil =>
    rw [indent_nil]
    rcases hfinal with rfl | rfl <;> exact ⟨rfl, fun _ => ⟨[], rfl, by simp⟩⟩
  | whitespace c l hc ih =>
    rw [mem_cons, not_or] at hnul
    rw [skipGap_whitespace l hc]
    by_cases hlf : c = byte '\n'
    · subst hlf
      obtain ⟨hsnd, hgap⟩ := ih hbs.tail hnul.2
      rw [indent_lineFeed, skipGap_whitespace _ hc,
        skipGap_append_whitespace _ fun c hc => isWhitespace_of_isBlank (hbs.headD c hc)]
      refine ⟨hsnd, fun h => ?_⟩
      obtain ⟨u, hu, hskip⟩ := hgap h
      refine ⟨byte '\n' :: u, by rw [cons_append, ← hu], ?_⟩
      rw [hskip, drop_succ_tail, count_cons_self]
    · obtain ⟨hsnd, hgap⟩ := ih hbs hnul.2
      rw [indent_cons hlf, skipGap_whitespace _ hc]
      refine ⟨hsnd, fun h => ?_⟩
      obtain ⟨u, hu, hskip⟩ := hgap h
      exact ⟨c :: u, by rw [cons_append, ← hu], by rw [hskip, count_cons_of_ne hlf]⟩
  | lineComment body l hbody hl ih =>
    have hline : byte '\n' ∉ byte '/' :: byte '/' :: body := by
      simp only [mem_cons, not_or]
      exact ⟨by decide, by decide, fun h => (hbody _ h).1 rfl⟩
    have hspl : ∀ l, byte '/' :: byte '/' :: (body ++ l) = (byte '/' :: byte '/' :: body) ++ l :=
      fun _ => rfl
    have hends : EndsComment (indent final bs l) := by
      cases l with
      | nil => exact (byteAt_indent_of_nil hfinal).symm
      | cons c l =>
        rw [EndsComment, byteAt_indent (cons_ne_nil c l)]
        exact hl
    obtain ⟨hsnd, hgap⟩ := ih hbs fun h => hnul (by simp [h])
    rw [skipGap_lineComment hbody hl, hspl, indent_append_of_notMem hline, ← hspl,
      skipGap_lineComment hbody hends]
    refine ⟨hsnd, fun h => ?_⟩
    obtain ⟨u, hu, hskip⟩ := hgap h
    refine ⟨(byte '/' :: byte '/' :: body) ++ u, by rw [append_assoc, ← hu], ?_⟩
    rw [hskip, count_append, count_eq_zero_of_not_mem hline, Nat.zero_add]
  | blockComment body l hbody ih =>
    have hopen : byte '\n' ∉ bytes "/*" := by decide
    have hcl : byte '\n' ∉ bytes "*/" := by decide
    have hspl : ∀ body l : Text, byte '/' :: byte '*' :: (body ++ byte '*' :: byte '/' :: l) =
        bytes "/*" ++ (body ++ (bytes "*/" ++ l)) := fun _ _ => rfl
    have hindent : indent final bs (body ++ byte '*' :: byte '/' :: l) = indent [] bs body ++
        byte '*' :: byte '/' :: indent final (bs.drop (body.count (byte '\n'))) l := by
      rw [indent_append]
      exact congrArg _ (indent_append_of_notMem hcl l)
    have hnul' : 0 ∉ body ++ byte '*' :: byte '/' :: l := fun h =>
      hnul (mem_cons_of_mem _ (mem_cons_of_mem _ h))
    obtain ⟨hcls, htext⟩ := skipBlock_indent hfinal hbs _ hnul'
    rw [hbody, hindent] at hcls htext
    obtain ⟨hsnd, hgap⟩ := ih (hbs.drop (body.count (byte '\n'))) fun h => hnul (by simp [h])
    rw [skipGap_blockComment hbody, hspl, indent_append_of_notMem hopen,
      show body ++ (bytes "*/" ++ l) = body ++ byte '*' :: byte '/' :: l from rfl, hindent]
    have hskip := @skipGap_blockComment (indent final (bs.drop (body.count (byte '\n'))) l)
      (indent [] bs body) (Prod.ext (htext rfl) hcls)
    change (skipGap (byte '/' :: byte '*' :: (indent [] bs body ++ byte '*' :: byte '/' ::
      indent final (bs.drop (body.count (byte '\n'))) l))).2 = _ ∧ _
    rw [hskip]
    refine ⟨hsnd, fun h => ?_⟩
    obtain ⟨u, hu, hrest⟩ := hgap h
    refine ⟨bytes "/*" ++ (body ++ (bytes "*/" ++ u)), ?_, ?_⟩
    · rw [append_assoc, append_assoc, append_assoc, ← hu]
      rfl
    · refine hskip.trans (hrest.trans ?_)
      rw [drop_drop, count_append, count_append, count_append,
        count_eq_zero_of_not_mem hopen, count_eq_zero_of_not_mem hcl, Nat.zero_add, Nat.zero_add]
  | unclosedComment body l hbody hl =>
    have hopen : byte '\n' ∉ bytes "/*" := by decide
    have hspl : ∀ l : Text, byte '/' :: byte '*' :: l = bytes "/*" ++ l := fun _ => rfl
    have hnul' : 0 ∉ body ++ l := fun h =>
      hnul (mem_cons_of_mem _ (mem_cons_of_mem _ h))
    obtain ⟨hcls, -⟩ := skipBlock_indent hfinal hbs _ hnul'
    rw [hbody] at hcls
    rw [hspl (body ++ l), indent_append_of_notMem hopen, ← hspl, ← hspl,
      skipGap_snd_of_unclosed hcls, skipGap_unclosed hbody hl]
    exact ⟨rfl, fun h => absurd h (by simp)⟩
  | stop c l hc hsla =>
    have hlf : c ≠ byte '\n' := by
      rintro rfl
      exact absurd hc (by decide)
    have hbyte : ∀ d, (d ≠ 0 ∧ isLineEnd d = false) → (byteAt (indent final bs l) 0 = d ↔
      byteAt l 0 = d) := fun d hd => byteAt_indent_eq_iff hfinal hd
    rw [skipGap_stop hc hsla, indent_cons hlf, skipGap_stop hc fun h =>
      ⟨mt (hbyte _ (by decide)).mp (hsla h).1, mt (hbyte _ (by decide)).mp (hsla h).2⟩]
    refine ⟨rfl, fun _ => ⟨[], rfl, ?_⟩⟩
    dsimp only
    rw [count_nil, drop_zero, indent_cons hlf, skipGap_stop hc fun h =>
      ⟨mt (hbyte _ (by decide)).mp (hsla h).1, mt (hbyte _ (by decide)).mp (hsla h).2⟩]

end

end Grayscale
