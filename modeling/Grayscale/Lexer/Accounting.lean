import Grayscale.Lexer.Lexer

/-!
# Lexing accounts for every byte

Repeated calls of `lexer_next_token` walk through the source text from left to right. Each call
skips a gap of whitespace and comments and then takes a token; the gaps and tokens are disjoint,
in order, and together are the whole text. The line and column of a token are those of its first
byte.
-/

namespace Grayscale

open List

/-! ### Gaps -/

/-- Where a gap item may end: a line comment in front of a line feed, and any comment that is not
closed in front of a NUL byte or the end of the text. -/
def GapItem.EndsBefore : GapItem → Text → Prop
  | .whitespace c, _ => isWhitespace c
  | .lineComment body, rest =>
    (∀ c ∈ body, c ≠ byte '\n' ∧ c ≠ 0) ∧ (byteAt rest 0 = byte '\n' ∨ byteAt rest 0 = 0)
  | .blockComment body, _ => (∀ c ∈ body, c ≠ 0) ∧ ¬ bytes "*/" <:+: body
  | .unclosedComment body, rest =>
    (∀ c ∈ body, c ≠ 0) ∧ ¬ bytes "*/" <:+: body ∧ byteAt rest 0 = 0

/-- Every item of a gap ends where the lexer ends it, in front of `rest`. -/
def GapEndsBefore : List GapItem → Text → Prop
  | [], _ => True
  | item :: gap, rest => item.EndsBefore (gapText gap ++ rest) ∧ GapEndsBefore gap rest

variable (l : Text)

theorem skipBlock_text : ((skipBlockComment l).2 = true ∧
        ∃ rest, l = (skipBlockComment l).1 ++ byte '*' :: byte '/' :: rest) ∨
      ((skipBlockComment l).2 = false ∧
        ∃ rest, l = (skipBlockComment l).1 ++ rest ∧ byteAt rest 0 = 0) := by
  induction l with
  | nil => exact .inr ⟨rfl, [], rfl, rfl⟩
  | cons c l ih =>
    rw [skipBlockComment]
    split_ifs with hnul hcl
    · exact .inr ⟨rfl, c :: l, rfl, hnul⟩
    · refine .inl ⟨rfl, l.drop 1, ?_⟩
      cases l with
      | nil => simp at hcl
      | cons d l =>
        rw [byteAt_zero] at hcl
        rw [hcl.1, hcl.2]
        rfl
    · rcases ih with ⟨h, rest, hl⟩ | ⟨h, rest, hl, hrest⟩
      · exact .inl ⟨h, rest, by simpa using hl⟩
      · exact .inr ⟨h, rest, by simpa using hl, hrest⟩

theorem skipBlock_body :
    (∀ c ∈ (skipBlockComment l).1, c ≠ 0) ∧ ¬ bytes "*/" <:+: (skipBlockComment l).1 := by
  induction l with
  | nil => exact ⟨by simp [skipBlockComment], by decide⟩
  | cons c l ih =>
    rw [skipBlockComment]
    split_ifs with hnul hcl
    · exact ⟨by simp, by decide⟩
    · exact ⟨by simp, by decide⟩
    · refine ⟨fun d hd => ?_, fun hinfix => ?_⟩
      · rcases mem_cons.mp hd with rfl | hd
        · exact hnul
        · exact ih.1 d hd
      · rcases infix_cons_iff.mp hinfix with hst | hinfix
        · have hcons : byte '*' = c ∧ [byte '/'] <+: (skipBlockComment l).1 :=
            cons_prefix_cons.mp hst
          obtain ⟨hc, tail, htail⟩ := hcons
          refine hcl ⟨hc.symm, ?_⟩
          rcases skipBlock_text l with ⟨-, rest, hl⟩ | ⟨-, rest, hl, -⟩
          · rw [hl, ← htail]
            rfl
          · rw [hl, ← htail]
            rfl
        · exact ih.2 hinfix

/-- A round of the gap loop returns an item for exactly the bytes it took, which ends where it
has to. -/
theorem gapStep_spec {l : Text} {c : UInt8} {s : Unit} {round : Scan.Round Unit GapItem}
    (h : gapStep s (c :: l) = some round) : round.output.text ++ l.drop round.extra = c :: l ∧
      round.output.EndsBefore (l.drop round.extra) := by
  unfold gapStep at h
  split_ifs at h with hsp hline hblock
  · cases h
    exact ⟨rfl, hsp⟩
  · cases h
    cases l with
    | nil => simp at hline
    | cons d l =>
      simp only [byteAt_zero, byteAt_succ] at hline
      obtain ⟨rfl, rfl⟩ := hline
      simp only [drop_succ_cons, drop_zero, Nat.add_comm 1, skipLineComment,
        Scan.drop_length_takeWhile]
      refine ⟨?_, fun d hd => ?_, ?_⟩
      · simp only [GapItem.text, cons_append, takeWhile_append_dropWhile]
      · have hd := mem_takeWhile_imp (p := fun c => c != byte '\n' && c != 0) hd
        simpa using hd
      · cases hrest : l.dropWhile fun c => c != byte '\n' && c != 0 with
        | nil => exact .inr rfl
        | cons d rest =>
          have hd := head_dropWhile_not (fun c => c != byte '\n' && c != 0)
            (l := l) (by rw [hrest]; exact cons_ne_nil _ _)
          simp only [hrest, head_cons, Bool.and_eq_false_iff, bne_eq_false_iff_eq] at hd
          exact hd
  · cases l with
    | nil => simp at hblock
    | cons d l =>
      simp only [byteAt_zero, byteAt_succ] at hblock
      obtain ⟨rfl, rfl⟩ := hblock
      simp only [drop_succ_cons, drop_zero] at h
      have hbody := skipBlock_body l
      rcases skipBlock_text l with ⟨hcls, rest, hl⟩ | ⟨hcls, rest, hl, hrest⟩
      · rcases hskip : skipBlockComment l with ⟨body, closed⟩
        rw [hskip] at h hcls hl hbody
        subst hcls
        cases h
        refine ⟨?_, hbody⟩
        simp only [hl, GapItem.text, cons_append, append_assoc, nil_append,
          drop_succ_cons, drop_zero, show 3 + body.length = body.length + 2 + 1 by omega,
          drop_length_add_append]
      · rcases hskip : skipBlockComment l with ⟨body, closed⟩
        rw [hskip] at h hcls hl hbody
        subst hcls
        cases h
        simp only [hl, GapItem.text, cons_append, drop_succ_cons, Nat.add_comm 1, drop_left]
        exact ⟨trivial, hbody.1, hbody.2, hrest⟩

theorem skipGapText_spec :
    gapText (skipWhitespaceAndComments l) ++ (Scan.run gapStep () l).rest = l ∧
      GapEndsBefore (skipWhitespaceAndComments l) (Scan.run gapStep () l).rest := by
  refine Scan.run_induct gapStep (P := fun _ l r => gapText r.outputs ++ r.rest = l ∧
    GapEndsBefore r.outputs r.rest) (fun _ => ⟨rfl, trivial⟩) (fun _ _ _ _ => ⟨rfl, trivial⟩) ?_ () l
  intro s c l round h ih
  obtain ⟨htext, hends⟩ := gapStep_spec h
  simp only [Scan.Result.cons_outputs, Scan.Result.cons_rest, GapEndsBefore, gapText,
    flatMap_cons, append_assoc] at ih ⊢
  rw [ih.1]
  exact ⟨htext, hends, ih.2⟩

theorem drop_gapText :
    l.drop (gapText (skipWhitespaceAndComments l)).length = (Scan.run gapStep () l).rest := by
  have h := congrArg (List.drop (gapText (skipWhitespaceAndComments l)).length)
    (skipGapText_spec l).1
  rwa [drop_left, eq_comm] at h

theorem gapStep_eq_none {s : Unit} {l : Text} (h : gapStep s l = none) :
    isWhitespace (byteAt l 0) = false := by
  unfold gapStep at h
  by_cases hsp : isWhitespace (byteAt l 0)
  · simp [hsp] at h
  · simpa using hsp

theorem isWhitespace_after_gap : isWhitespace (byteAt (Scan.run gapStep () l).rest 0) = false := by
  rcases Scan.run_rest gapStep () l with h | h
  · rw [h]
    decide
  · exact gapStep_eq_none h

/-! ### Tokens -/

/-- A message that does not start like the one about NUL bytes. -/
def NotNulMessage (message : Text) : Prop := message.head? ≠ some (byte 'N')

instance (message : Text) : Decidable (NotNulMessage message) := inferInstanceAs (Decidable (_ ≠ _))

/-- A scan, at the byte `c`, of a token that is not the end of file, takes at least one byte, and
reports a NUL byte at a NUL byte only. -/
structure TokenScan.Takes (c : UInt8) (scan : TokenScan) : Prop where
  length_pos : 1 ≤ scan.length
  type_ne : scan.type ≠ .endOfFile
  notNulMessage : c ≠ 0 → scan.type = .illegal → NotNulMessage scan.literal

section Takes

variable {c : UInt8} {type : TokenType} {literal : Text} {length : ℕ}

theorem TokenScan.takes_token (htype : type ≠ .endOfFile ∧ type ≠ .illegal)
    (hlen : 1 ≤ length) : (TokenScan.token type literal length).Takes c :=
  ⟨hlen, htype.1, fun _ h => absurd h htype.2⟩

theorem TokenScan.takes_illegal {error : LexError} (herr : NotNulMessage error.message)
    (hlen : 1 ≤ length) : (TokenScan.illegal error length).Takes c :=
  ⟨hlen, by simp [illegal], fun _ _ => herr⟩

theorem TokenScan.takes_ofError {error : Option LexError}
    (htype : type ≠ .endOfFile ∧ type ≠ .illegal)
    (herr : ∀ e, error = some e → NotNulMessage e.message) (hlen : 1 ≤ length) :
    (TokenScan.ofError type literal length error).Takes c := by
  cases error with
  | none => exact takes_token htype hlen
  | some error => exact takes_illegal (herr error rfl) hlen

theorem TokenScan.takes_ite {p : Prop} [Decidable p] {a b : TokenScan} (ha : p → a.Takes c)
    (hb : ¬ p → b.Takes c) : (if p then a else b).Takes c :=
  iteInduction (motive := TokenScan.Takes c) ha hb

theorem of_ite_some {p : Prop} [Decidable p] {error e : LexError} {P : LexError → Prop}
    (h : (if p then some error else none) = some e) (herr : P error) : P e := by
  split_ifs at h
  cases h
  exact herr

theorem digitRun_pos {l : Text} (h : isdigit (byteAt l 0)) : 1 ≤ digitRun l := by
  cases l with
  | nil => simp [isdigit] at h
  | cons c l =>
    rw [byteAt_zero] at h
    simp [digitRun, isDigitOrSeparator, h]

theorem numberFormatError_message {digits : Text} {e : LexError}
    (h : numberFormatError digits = some e) : NotNulMessage e.message := by
  simp only [numberFormatError, Option.orElse_eq_orElse, Option.orElse_eq_or,
    Option.or_eq_some_iff] at h
  rcases h with h | ⟨-, h⟩
  · unfold decimalPointError at h
    dsimp only at h
    split_ifs at h <;> cases h <;> decide
  · split_ifs at h <;> cases h <;> decide

theorem number_takes {l : Text} (h : isdigit (byteAt l 0)) : (readNumber l).Takes c := by
  have hdig := digitRun_pos h
  have hmant : 1 ≤ (readMantissa l).1 := by
    unfold readMantissa
    dsimp only
    split_ifs <;> omega
  unfold readNumber readPrefixedDigits
  refine TokenScan.takes_ite (fun _ => TokenScan.takes_ofError (by decide)
    (fun e h => of_ite_some (P := fun e => NotNulMessage e.message) h
      (by decide)) (by omega)) fun _ => ?_
  refine TokenScan.takes_ite (fun _ => TokenScan.takes_ofError (by decide)
    (fun e h => of_ite_some (P := fun e => NotNulMessage e.message) h
      (by decide)) (by omega)) fun _ => ?_
  refine TokenScan.takes_ite (fun _ => TokenScan.takes_ofError (by decide)
    (fun e h => of_ite_some (P := fun e => NotNulMessage e.message) h
      (by decide)) (by omega)) fun _ => ?_
  exact TokenScan.takes_ofError (by split_ifs <;> decide) (fun e => numberFormatError_message)
    (by omega)

/-- An error of an escape in a string. -/
def IsEscapeMessage (message : Text) : Prop :=
  message.head? = some (byte 'm') ∨ message.head? = some (byte 'i') ∨
    message.head? = some (byte '\'')

instance (message : Text) : Decidable (IsEscapeMessage message) :=
  inferInstanceAs (Decidable (_ ∨ _))

/-- The errors that the loop of `read_string` leaves in its state are those of escapes. -/
def StringState.EscapeErrors (s : StringState) : Prop :=
  ∀ e, s.error = some e → IsEscapeMessage e.message

theorem StringState.escapeErrors_escapeError (s : StringState) {message : String}
    (h : IsEscapeMessage (bytes message)) : (s.escapeError message).EscapeErrors := by
  rintro e he
  cases he
  exact h

theorem escapeRound_escapeErrors {s : StringState} (hs : s.EscapeErrors) (l : Text) :
    (escapeRound s l).state.EscapeErrors := by
  unfold escapeRound unicodeEscapeRound
  dsimp only
  split_ifs
  all_goals first
    | exact hs
    | exact s.escapeErrors_escapeError (by decide)

variable (l : Text)

theorem scanString_escapeErrors : (scanString l).state.EscapeErrors := by
  refine Scan.run_state stringStep (P := StringState.EscapeErrors) ?_ (by simp [StringState.EscapeErrors]) l
  intro s c l round h hs
  unfold stringStep at h
  dsimp only at h
  split_ifs at h
  all_goals first
    | cases h; exact hs
    | cases h; exact escapeRound_escapeErrors hs _

theorem IsEscapeMessage.notNulMessage {message : Text} (h : IsEscapeMessage message) :
    NotNulMessage message := by
  unfold NotNulMessage
  rcases h with h | h | h <;> rw [h] <;> decide

theorem checkUtf8_message {text : Text} {e : LexError} (h : checkLiteralUtf8 text = some e) :
    e = lexError "E1018" "malformed UTF-8 in string literal" := by
  unfold checkLiteralUtf8 at h
  split_ifs at h
  exact (Option.some.inj h).symm

theorem stringError_message {l : Text} {e : LexError} (h : stringError (scanString l) = some e) :
    NotNulMessage e.message := by
  simp only [stringError, Option.orElse_eq_orElse, Option.orElse_eq_or, Option.or_eq_some_iff] at h
  rcases h with h | ⟨-, h⟩
  · split_ifs at h
    · cases h
      decide
    · exact (scanString_escapeErrors l e h).notNulMessage
  · rw [checkUtf8_message h]
    decide

theorem string_takes : (readString l).Takes c := by
  unfold readString
  dsimp only
  refine TokenScan.takes_ite
    (fun _ => TokenScan.takes_ofError (by decide) (fun e => stringError_message) (by omega))
    fun _ => TokenScan.takes_illegal ?_ (by omega)
  cases h : stringError (scanString (l.drop 1)) with
  | none => decide
  | some e => exact stringError_message h

theorem rawString_takes : (readRawString l).Takes c := by
  unfold readRawString
  dsimp only
  refine TokenScan.takes_ite (fun _ => TokenScan.takes_ofError (by decide) (fun e h => ?_) (by omega))
    fun _ => TokenScan.takes_illegal (by decide) (by omega)
  rw [checkUtf8_message h]
  decide

theorem readCharHead_message {l : Text} {e : LexError} (h : (readCharHead l).2 = some e) :
    NotNulMessage e.message := by
  unfold readCharHead readCharEscape at h
  dsimp only at h
  split_ifs at h <;> cases h <;> decide

theorem scanChar_message {text : Text} {e : LexError} (h : (scanCharacter text).2 = some e) :
    NotNulMessage e.message := by
  unfold scanCharacter at h
  split at h
  · next heq =>
    cases h
    exact readCharHead_message (congrArg Prod.snd heq)
  · exact of_ite_some (P := fun e => NotNulMessage e.message) h
      (by decide)

theorem charLiteral_takes : (readCharLiteral l).Takes c := by
  unfold readCharLiteral
  dsimp only
  refine TokenScan.takes_ite
    (fun _ => TokenScan.takes_ofError (by decide) (fun e => scanChar_message) (by omega))
    fun _ => TokenScan.takes_illegal ?_ (by omega)
  cases h : (scanCharacter (l.drop 1)).2 with
  | none => decide
  | some e => exact scanChar_message h

theorem paired_takes {pairedType singleType : TokenType} (l : Text) (second : UInt8)
    (pairedText singleText : String) (hpaired : pairedType ≠ .endOfFile ∧ pairedType ≠ .illegal)
    (hsing : singleType ≠ .endOfFile ∧ singleType ≠ .illegal) :
    (makePairedToken l second pairedType pairedText singleType singleText).Takes c :=
  TokenScan.takes_ite (fun _ => TokenScan.takes_token hpaired (by omega))
    fun _ => TokenScan.takes_token hsing (by omega)

set_option maxRecDepth 20000 in
theorem scanHash_takes : (scanHash l).Takes c := by
  unfold scanHash
  refine TokenScan.takes_ite (fun _ => TokenScan.takes_token (by decide) (by omega)) fun _ => ?_
  split
  · next spelling type h =>
    have hent : ∀ entry ∈ attributeKeywords,
        (entry.2 ≠ .endOfFile ∧ entry.2 ≠ .illegal) ∧ 1 ≤ entry.1.length := by decide
    obtain ⟨htype, hlen⟩ := hent _ (mem_of_find?_eq_some h)
    exact TokenScan.takes_token htype hlen
  · exact TokenScan.takes_illegal (by decide) (by omega)

theorem scanBang_takes : (scanBang l).Takes c :=
  TokenScan.takes_ite (fun _ => TokenScan.takes_token (by decide) (by omega)) fun _ =>
    TokenScan.takes_ite (fun _ => TokenScan.takes_token (by decide) (by omega))
      fun _ => TokenScan.takes_token (by decide) (by omega)

theorem tokenLookupKeyword_mem {identifier keyword : Text} {type : TokenType}
    (h : tokenLookupKeyword identifier = some (type, keyword)) : (keyword, type) ∈ keywords := by
  simp only [tokenLookupKeyword, Option.map_eq_some_iff, Prod.mk.injEq] at h
  obtain ⟨entry, hfind, rfl, rfl⟩ := h
  exact mem_of_find?_eq_some hfind

theorem scanWord_takes {l : Text} (h : isalpha (byteAt l 0) || byteAt l 0 == byte '_') :
    (scanWord l).Takes c := by
  have hspan : 1 ≤ (scanIdentifierSpan l).1.length := by
    cases l with
    | nil => simp [isalpha] at h
    | cons c l =>
      rw [byteAt_zero] at h
      have hc : isIdentifierByte c = true := by simp only [isIdentifierByte, h, Bool.true_or]
      simp [scanIdentifierSpan, hc]
  unfold scanWord
  split
  · next heq =>
    rw [heq] at hspan
    exact TokenScan.takes_illegal (of_ite_some (P := fun e => NotNulMessage e.message)
      (congrArg Prod.snd heq) (by decide)) hspan
  · next heq =>
    rw [heq] at hspan
    split
    · next hkw =>
      have hent : ∀ entry ∈ keywords, entry.2 ≠ .endOfFile ∧ entry.2 ≠ .illegal := by decide
      exact TokenScan.takes_token (hent _ (tokenLookupKeyword_mem hkw)) hspan
    · exact TokenScan.takes_token (by decide) hspan

theorem scanUnexpected_takes : (scanUnexpected l).Takes c := by
  have hmsg : ∀ m : Text, NotNulMessage (bytes "unexpected character '" ++ m) := fun m => by
    change some (byte 'u') ≠ some (byte 'N')
    decide
  unfold scanUnexpected
  dsimp only
  refine TokenScan.takes_ite (fun _ => TokenScan.takes_illegal ?_ (by omega)) fun _ =>
    TokenScan.takes_illegal ?_ (utf8Decode_pos l)
  · change some (byte 'u') ≠ some (byte 'N')
    decide
  · rw [append_assoc]
    exact hmsg _

set_option maxRecDepth 20000 in
theorem token_takes {l : Text} (hl : l ≠ []) : (scanToken l).Takes (byteAt l 0) := by
  unfold scanToken
  rw [if_neg hl]
  have one {type : TokenType} {text : Text} (htype : type ≠ .endOfFile ∧ type ≠ .illegal) :
      (TokenScan.token type text 1).Takes (byteAt l 0) := TokenScan.takes_token htype (by omega)
  have two {type : TokenType} {text : Text} (htype : type ≠ .endOfFile ∧ type ≠ .illegal) :
      (TokenScan.token type text 2).Takes (byteAt l 0) := TokenScan.takes_token htype (by omega)
  have illegal {error : LexError} (herr : NotNulMessage error.message) :
      (TokenScan.illegal error 1).Takes (byteAt l 0) := TokenScan.takes_illegal herr (by omega)
  have paired {second : UInt8} {pairedType singleType : TokenType} {pairedText singleText : String}
      (hpaired : pairedType ≠ .endOfFile ∧ pairedType ≠ .illegal)
      (hsing : singleType ≠ .endOfFile ∧ singleType ≠ .illegal) :
      (makePairedToken l second pairedType pairedText singleType singleText).Takes (byteAt l 0) :=
    paired_takes l second pairedText singleText hpaired hsing
  refine TokenScan.takes_ite (fun h => ⟨Nat.le_refl 1, by decide, fun hne => absurd h hne⟩)
    fun _ => ?_
  refine TokenScan.takes_ite (fun _ => paired (by decide) (by decide)) fun _ => ?_
  refine TokenScan.takes_ite (fun _ => TokenScan.takes_ite (fun _ => two (by decide))
    fun _ => paired (by decide) (by decide)) fun _ => ?_
  refine TokenScan.takes_ite (fun _ => TokenScan.takes_ite (fun _ => two (by decide)) fun _ =>
    TokenScan.takes_ite (fun _ => two (by decide)) fun _ => paired (by decide) (by decide))
    fun _ => ?_
  refine TokenScan.takes_ite (fun _ => scanBang_takes l) fun _ => ?_
  iterate 6 refine TokenScan.takes_ite (fun _ => paired (by decide) (by decide)) fun _ => ?_
  refine TokenScan.takes_ite (fun _ => illegal (by decide)) fun _ => ?_
  refine TokenScan.takes_ite (fun _ => TokenScan.takes_ite (fun _ => two (by decide))
    fun _ => illegal (by decide)) fun _ => ?_
  refine TokenScan.takes_ite (fun _ => scanHash_takes l) fun _ => ?_
  refine TokenScan.takes_ite (fun _ => string_takes l) fun _ => ?_
  refine TokenScan.takes_ite (fun _ => rawString_takes l) fun _ => ?_
  refine TokenScan.takes_ite (fun _ => charLiteral_takes l) fun _ => ?_
  split
  · next type text h =>
    have hent : ∀ entry ∈ singleTokens, entry.2.1 ≠ .endOfFile ∧ entry.2.1 ≠ .illegal := by decide
    obtain ⟨_, _, heq, -⟩ := lookup_eq_some_iff.mp h
    exact one (hent _ (heq ▸ mem_append_right _ (mem_cons_self ..)))
  · exact TokenScan.takes_ite scanWord_takes fun _ =>
      TokenScan.takes_ite number_takes fun _ => scanUnexpected_takes l

end Takes

/-! ### Positions -/

/-- The line of the byte after a part of the text: one more than its line feeds. -/
def lineOf (before : Text) : ℕ := 1 + before.count (byte '\n')

/-- The column of the byte after a part of the text: its offset in its line, from one. -/
def columnOf (before : Text) : ℕ := (before.reverse.takeWhile (· != byte '\n')).length + 1

variable (before : Text)

theorem columnOf_append_lineFeed : columnOf (before ++ [byte '\n']) = 1 := by
  simp [columnOf]

theorem columnOf_append_of_ne {c : UInt8} (h : c ≠ byte '\n') :
    columnOf (before ++ [c]) = columnOf before + 1 := by
  rw [columnOf, reverse_append, reverse_singleton, singleton_append,
    takeWhile_cons_of_pos (by simpa using h)]
  rfl

theorem columnOf_le : columnOf before ≤ before.length + 1 := by
  have h := (List.takeWhile_prefix (l := before.reverse) (· != byte '\n')).length_le
  rw [length_reverse] at h
  exact Nat.succ_le_succ h

theorem lineOf_le : lineOf before ≤ before.length + 1 := by
  have h := count_le_length (a := byte '\n') (l := before)
  rw [lineOf]
  omega

/-- The lexer stands after `before`, at a byte whose line and column it has, except that a line
feed is counted as the start of the next line. -/
structure Lexer.At (before : Text) (lexer : Lexer) : Prop where
  line_eq : lexer.line = lineOf before + if byteAt lexer.rest 0 = byte '\n' then 1 else 0
  column_eq : lexer.column = if byteAt lexer.rest 0 = byte '\n' then 0 else columnOf before

theorem Lexer.At.readCharacter {before : Text} {lexer : Lexer} {c : UInt8} {rest : Text}
    (h : lexer.At before) (hrest : lexer.rest = c :: rest) (hmax : before.length + 3 ≤ intMax) :
    (readCharacter lexer).At (before ++ [c]) := by
  have hline := lineOf_le before
  have hcol := columnOf_le before
  obtain ⟨hl, hc⟩ := h
  rw [hrest, byteAt_zero] at hl hc
  have hnext : (Grayscale.readCharacter lexer).rest = rest := by
    rw [Grayscale.readCharacter, enter_rest, hrest, drop_succ_cons, drop_zero]
  -- the line counts `c` if it is a line feed, whatever the byte after it is
  have hlineOf : lineOf (before ++ [c]) = lexer.line := by
    rw [hl, lineOf, lineOf, count_append, count_singleton]
    simp only [beq_iff_eq]
    omega
  have hcolumnOf : columnOf (before ++ [c]) = lexer.column + 1 := by
    rw [hc]
    split_ifs with h
    · rw [h, columnOf_append_lineFeed]
    · rw [columnOf_append_of_ne before h]
  have hlt : lexer.line < intMax := by
    rw [hl]
    split_ifs <;> omega
  have hlt' : lexer.column < intMax := by
    rw [hc]
    split_ifs <;> omega
  constructor
  · rw [hnext, hlineOf, Grayscale.readCharacter, hrest, byteAt_succ, Lexer.enter]
    split_ifs <;> simp
  · rw [hnext, hcolumnOf, Grayscale.readCharacter, hrest, byteAt_succ, Lexer.enter]
    split_ifs <;> simp

variable {lexer : Lexer}

theorem Lexer.At.advance {before : Text} {n : ℕ} (h : lexer.At before) (hn : n ≤ lexer.rest.length)
    (hmax : before.length + n + 2 ≤ intMax) :
    (lexer.advance n).At (before ++ lexer.rest.take n) := by
  induction n generalizing before lexer with
  | zero => rwa [advance_zero, take_zero, append_nil]
  | succ n ih =>
    cases hrest : lexer.rest with
    | nil =>
      rw [hrest] at hn
      simp at hn
    | cons c rest =>
      rw [advance_succ]
      have hread := h.readCharacter hrest (by omega)
      have hnext : (Grayscale.readCharacter lexer).rest = rest := by
        rw [Grayscale.readCharacter, enter_rest, hrest, drop_succ_cons, drop_zero]
      rw [hrest, length_cons] at hn
      have := ih hread (by rw [hnext]; omega)
        (by rw [length_append, length_singleton]; omega)
      rwa [hnext, append_assoc, singleton_append] at this

/-- The state of the lexer at its position in the text. The position can be one past the end,
where an escape at the end of the text leaves it; there the line and column mean nothing. -/
structure Lexer.Tracks (text : Text) (lexer : Lexer) : Prop where
  rest_eq : lexer.rest = text.drop lexer.position
  at_position : lexer.position ≤ text.length → lexer.At (text.take lexer.position)

variable {text : Text}

theorem Lexer.Tracks.withError (h : lexer.Tracks text) (error : Option LexError) :
    Lexer.Tracks text { lexer with error := error } :=
  ⟨h.rest_eq, fun hle => ⟨(h.at_position hle).line_eq, (h.at_position hle).column_eq⟩⟩

theorem Lexer.Tracks.advance (h : lexer.Tracks text) (hmax : text.length + 2 ≤ intMax)
    (n : ℕ) : (lexer.advance n).Tracks text := by
  obtain ⟨hrest, hat⟩ := h
  refine ⟨by rw [advance_rest, advance_position, hrest, drop_drop], fun hle => ?_⟩
  rw [advance_position] at hle ⊢
  have hlen : (text.take lexer.position).length = lexer.position := by
    rw [length_take]
    omega
  have hadvance := (hat (by omega)).advance (n := n) (by rw [hrest, length_drop]; omega)
    (by rw [hlen]; omega)
  rwa [hrest, ← List.take_add] at hadvance

theorem create_tracks (input : Text) (file : Option Text) :
    (lexerCreateSized input file).Tracks (sourceText input) := by
  refine ⟨by simp [lexerCreateSized], fun _ => ?_⟩
  have hintMax : 1 < intMax ∧ 0 < intMax := by decide
  constructor
  · simp only [lexerCreateSized, Lexer.enter]
    split_ifs <;> simp_all [lineOf]
  · simp only [lexerCreateSized, Lexer.enter]
    split_ifs <;> simp_all [columnOf]

/-! ### Calls -/

/-- What a call of `lexer_next_token` takes. The bytes from the position of the lexer to its
position after the call are a gap and a token span, not both empty. The gap holds whitespace and
comments only, and the line and column of the token are those of the first byte of its span. The
span is empty for an unclosed comment only, which the token reports. -/
structure CallAccount (text : Text) (lexer : Lexer) (gap : List GapItem) (span : Text) : Prop where
  taken : text.take lexer.position ++ (gapText gap ++ span) =
    text.take (lexerNextToken lexer).2.position
  gap_ends : GapEndsBefore gap (text.drop (lexer.position + (gapText gap).length))
  progress : gapText gap ++ span ≠ []
  line_eq : (lexerNextToken lexer).1.line = lineOf (text.take lexer.position ++ gapText gap)
  column_eq : (lexerNextToken lexer).1.column = columnOf (text.take lexer.position ++ gapText gap)
  span_eq_nil : span = [] ↔ ∃ body, GapItem.unclosedComment body ∈ gap
  unclosed : (∃ body, GapItem.unclosedComment body ∈ gap) →
    (lexerNextToken lexer).1.type = .illegal ∧
      (lexerNextToken lexer).1.literal = unclosedCommentError.message

theorem gapError_eq_none {gap : List GapItem} :
    gapError gap = none ↔ ∀ body, GapItem.unclosedComment body ∉ gap := by
  unfold gapError
  split_ifs with h
  · simp only [any_eq_true] at h
    obtain ⟨item, hmem, hitem⟩ := h
    cases item with
    | unclosedComment body => exact iff_of_false (by simp) fun hall => hall body hmem
    | _ => simp at hitem
  · refine iff_of_true rfl fun body hmem => h (any_eq_true.mpr ⟨_, hmem, rfl⟩)

theorem gapError_eq_some {gap : List GapItem} {error : LexError} (h : gapError gap = some error) :
    error = unclosedCommentError ∧ ∃ body, GapItem.unclosedComment body ∈ gap := by
  refine ⟨?_, ?_⟩
  · unfold gapError at h
    split_ifs at h
    exact (Option.some.inj h).symm
  · by_contra hnone
    rw [gapError_eq_none.mpr fun body hmem => hnone ⟨body, hmem⟩] at h
    cases h

def Lexer.afterGap (lexer : Lexer) : Lexer :=
  lexer.advance (gapText (skipWhitespaceAndComments lexer.rest)).length

theorem nextToken_of_gapError {error : LexError}
    (h : gapError (skipWhitespaceAndComments lexer.rest) = some error) : lexerNextToken lexer =
      (⟨.illegal, error.message, lexer.afterGap.line, lexer.afterGap.column, lexer.file,
        !(skipWhitespaceAndComments lexer.rest).isEmpty⟩,
        { lexer.afterGap with error := some error }) := by
  simp only [lexerNextToken, h]
  rfl

theorem nextToken_of_gap (h : gapError (skipWhitespaceAndComments lexer.rest) = none) :
    lexerNextToken lexer =
      (⟨(scanToken lexer.afterGap.rest).type, (scanToken lexer.afterGap.rest).literal,
        lexer.afterGap.line, lexer.afterGap.column, lexer.file,
        !(skipWhitespaceAndComments lexer.rest).isEmpty⟩,
        { lexer.afterGap.advance (scanToken lexer.afterGap.rest).length with
          error := (scanToken lexer.afterGap.rest).error }) := by
  simp only [lexerNextToken, h]
  rfl

theorem Lexer.afterGap_rest (lexer : Lexer) :
    lexer.afterGap.rest = (Scan.run gapStep () lexer.rest).rest := by
  rw [afterGap, advance_rest, drop_gapText]

theorem Lexer.gap_append_rest (lexer : Lexer) :
    gapText (skipWhitespaceAndComments lexer.rest) ++ lexer.afterGap.rest = lexer.rest := by
  rw [afterGap_rest]
  exact (skipGapText_spec lexer.rest).1

theorem Lexer.Tracks.next (h : lexer.Tracks text) (hmax : text.length + 2 ≤ intMax) :
    (lexerNextToken lexer).2.Tracks text := by
  cases hgap : gapError (skipWhitespaceAndComments lexer.rest) with
  | some error =>
    rw [nextToken_of_gapError hgap]
    exact (h.advance hmax _).withError _
  | none =>
    rw [nextToken_of_gap hgap]
    exact ((h.advance hmax _).advance hmax _).withError _

theorem nextToken_endOfFile_iff (lexer : Lexer) : (lexerNextToken lexer).1.type = .endOfFile ↔
      lexer.afterGap.rest = [] ∧ gapError (skipWhitespaceAndComments lexer.rest) = none := by
  cases hgap : gapError (skipWhitespaceAndComments lexer.rest) with
  | some error =>
    rw [nextToken_of_gapError hgap]
    simp
  | none =>
    rw [nextToken_of_gap hgap]
    by_cases hrest : lexer.afterGap.rest = []
    · simp [hrest, scanToken, TokenScan.token]
    · simp [hrest, (token_takes hrest).type_ne]

theorem Lexer.Tracks.take_afterGap (h : lexer.Tracks text) : text.take lexer.afterGap.position =
      text.take lexer.position ++ gapText (skipWhitespaceAndComments lexer.rest) := by
  rw [afterGap, advance_position, List.take_add, ← h.rest_eq]
  congr 1
  conv_lhs => rw [← lexer.gap_append_rest]
  rw [take_left']
  rw [lexer.gap_append_rest]

theorem Lexer.Tracks.token_position (h : lexer.Tracks text)
    (hmax : text.length + 2 ≤ intMax) (hpos : lexer.afterGap.position ≤ text.length) :
    (lexerNextToken lexer).1.line = lineOf (text.take lexer.afterGap.position) ∧
      (lexerNextToken lexer).1.column = columnOf (text.take lexer.afterGap.position) := by
  have haft : lexer.afterGap.Tracks text := h.advance hmax _
  obtain ⟨hline, hcol⟩ := haft.at_position hpos
  -- the byte after the gap is no line feed, so the state is that of a byte inside its line
  have hbyte : byteAt lexer.afterGap.rest 0 ≠ byte '\n' := by
    intro heq
    have hsp := isWhitespace_after_gap lexer.rest
    rw [← lexer.afterGap_rest, heq] at hsp
    exact absurd hsp (by decide)
  rw [if_neg hbyte] at hline hcol
  cases hgap : gapError (skipWhitespaceAndComments lexer.rest) with
  | some error =>
    rw [nextToken_of_gapError hgap]
    exact ⟨hline, hcol⟩
  | none =>
    rw [nextToken_of_gap hgap]
    exact ⟨hline, hcol⟩

theorem nextToken_account (h : lexer.Tracks text)
    (hmax : text.length + 2 ≤ intMax) (htype : (lexerNextToken lexer).1.type ≠ .endOfFile) :
    ∃ gap span, CallAccount text lexer gap span := by
  have hrest : lexer.rest ≠ [] := by
    intro hnil
    refine htype ((nextToken_endOfFile_iff lexer).mpr ?_)
    rw [lexer.afterGap_rest, skipWhitespaceAndComments, hnil]
    exact ⟨rfl, rfl⟩
  have hspl := lexer.gap_append_rest
  have hposition : lexer.afterGap.position ≤ text.length := by
    have hlen := congrArg List.length hspl
    rw [h.rest_eq, length_append, length_drop, ← h.rest_eq] at hlen
    have hlt : 0 < (text.drop lexer.position).length := by
      rw [← h.rest_eq]
      exact length_pos_iff.mpr hrest
    rw [length_drop] at hlt
    rw [Lexer.afterGap, Lexer.advance_position]
    omega
  have haft : lexer.afterGap.Tracks text := h.advance hmax _
  have htake := h.take_afterGap
  have hends : GapEndsBefore (skipWhitespaceAndComments lexer.rest)
      (text.drop (lexer.position + (gapText (skipWhitespaceAndComments lexer.rest)).length)) := by
    have hspec := (skipGapText_spec lexer.rest).2
    rwa [← lexer.afterGap_rest, haft.rest_eq, Lexer.afterGap, Lexer.advance_position] at hspec
  obtain ⟨hline, hcol⟩ := h.token_position hmax hposition
  rw [htake] at hline hcol
  cases hgap : gapError (skipWhitespaceAndComments lexer.rest) with
  | some error =>
    obtain ⟨rfl, hbody⟩ := gapError_eq_some hgap
    refine ⟨_, [], ?_, hends, ?_, hline, hcol, iff_of_true rfl hbody, fun _ => ?_⟩
    · rw [nextToken_of_gapError hgap, append_nil, ← htake]
    · obtain ⟨body, hmem⟩ := hbody
      intro hnil
      rw [append_nil, gapText, flatMap_eq_nil_iff] at hnil
      exact absurd (hnil _ hmem) (cons_ne_nil _ _)
    · rw [nextToken_of_gapError hgap]
      exact ⟨rfl, rfl⟩
  | none =>
    have hleft : lexer.afterGap.rest ≠ [] := fun hnil =>
      htype ((nextToken_endOfFile_iff lexer).mpr ⟨hnil, hgap⟩)
    have hspan : lexer.afterGap.rest.take (scanToken lexer.afterGap.rest).length ≠ [] := by
      have hpos := (token_takes hleft).length_pos
      simp only [ne_eq, take_eq_nil_iff, hleft, or_false]
      omega
    have hnone := gapError_eq_none.mp hgap
    refine ⟨_, _, ?_, hends, fun hnil => hspan (append_eq_nil_iff.mp hnil).2, hline, hcol,
      iff_of_false hspan fun ⟨body, hmem⟩ => hnone body hmem,
      fun ⟨body, hmem⟩ => absurd hmem (hnone body)⟩
    rw [nextToken_of_gap hgap, ← append_assoc, ← htake, haft.rest_eq]
    exact (List.take_add ..).symm.trans (by rw [Lexer.advance_position])

/-! ### Runs -/

theorem lexerRun_succ (lexer : Lexer) (calls : ℕ) :
    lexerRun lexer (calls + 1) = (lexerNextToken (lexerRun lexer calls)).2 :=
  Function.iterate_succ_apply' _ _ _

theorem lexerRun_succ' (lexer : Lexer) (calls : ℕ) :
    lexerRun lexer (calls + 1) = lexerRun (lexerNextToken lexer).2 calls :=
  Function.iterate_succ_apply _ _ _

theorem Lexer.Tracks.run (h : lexer.Tracks text) (hmax : text.length + 2 ≤ intMax)
    (calls : ℕ) : (lexerRun lexer calls).Tracks text := by
  induction calls with
  | zero => exact h
  | succ calls ih =>
    rw [lexerRun_succ]
    exact ih.next hmax

theorem nextToken_rest_length (htype : (lexerNextToken lexer).1.type ≠ .endOfFile) :
    (lexerNextToken lexer).2.rest.length < lexer.rest.length := by
  have hlen := congrArg List.length lexer.gap_append_rest
  rw [length_append] at hlen
  cases hgap : gapError (skipWhitespaceAndComments lexer.rest) with
  | some error =>
    obtain ⟨-, body, hmem⟩ := gapError_eq_some hgap
    rw [nextToken_of_gapError hgap]
    have hpos : 0 < (gapText (skipWhitespaceAndComments lexer.rest)).length := by
      rw [length_pos_iff, gapText, ne_eq, flatMap_eq_nil_iff]
      exact fun hnil => absurd (hnil _ hmem) (cons_ne_nil _ _)
    change lexer.afterGap.rest.length < _
    omega
  | none =>
    have hleft : lexer.afterGap.rest ≠ [] := fun hnil =>
      htype ((nextToken_endOfFile_iff lexer).mpr ⟨hnil, hgap⟩)
    have hpos := (token_takes hleft).length_pos
    have hlt := length_pos_iff.mpr hleft
    rw [nextToken_of_gap hgap]
    change (lexer.afterGap.advance _).rest.length < _
    rw [Lexer.advance_rest, length_drop]
    omega

theorem nextToken_endOfFile_next (htype : (lexerNextToken lexer).1.type = .endOfFile) :
    (lexerNextToken (lexerNextToken lexer).2).1.type = .endOfFile := by
  obtain ⟨hrest, hgap⟩ := (nextToken_endOfFile_iff lexer).mp htype
  have hnext : (lexerNextToken lexer).2.rest = [] := by
    rw [nextToken_of_gap hgap]
    change (lexer.afterGap.advance _).rest = []
    rw [Lexer.advance_rest, hrest, drop_nil]
  rw [nextToken_endOfFile_iff, Lexer.afterGap_rest, skipWhitespaceAndComments, hnext]
  exact ⟨rfl, rfl⟩

theorem exists_calls_endOfFile (lexer : Lexer) :
    ∃ n ≤ lexer.rest.length, (∀ k < n, (lexerToken lexer k).type ≠ .endOfFile) ∧
      ∀ k ≥ n, (lexerToken lexer k).type = .endOfFile := by
  induction hn : lexer.rest.length using Nat.strongRecOn generalizing lexer with
  | ind n ih =>
    subst hn
    by_cases htype : (lexerNextToken lexer).1.type = .endOfFile
    · refine ⟨0, Nat.zero_le _, fun k hk => absurd hk (Nat.not_lt_zero k), fun k _ => ?_⟩
      induction k with
      | zero => exact htype
      | succ k ihk =>
        rw [lexerToken, lexerRun_succ]
        exact nextToken_endOfFile_next (ihk (Nat.zero_le k))
    · have hlt := nextToken_rest_length htype
      obtain ⟨n, hn, hbef, haft⟩ := ih _ hlt (lexerNextToken lexer).2 rfl
      refine ⟨n + 1, by omega, fun k hk => ?_, fun k hk => ?_⟩
      · cases k with
        | zero => exact htype
        | succ k =>
          rw [lexerToken, lexerRun_succ']
          exact hbef k (by omega)
      · obtain ⟨k, rfl⟩ : ∃ j, k = j + 1 := ⟨k - 1, by omega⟩
        rw [lexerToken, lexerRun_succ']
        exact haft k (by omega)

theorem sourceText_length_le (input : Text) : (sourceText input).length ≤ input.length := by
  unfold sourceText
  rw [length_take]
  split_ifs
  · rw [length_drop]
    omega
  · omega

/-- The calls up to the end of file account for the source text: they are at most as many as its
bytes; each takes a gap and a token span from where the call before it stopped; what is left
after the last of them is a gap; and every later call returns the end of file. -/
theorem lexing_accounts_for_source (input : Text) (file : Option Text)
    (hmax : input.length + 2 ≤ intMax) : (lexerCreateSized input file).position = 0 ∧
      ∃ n ≤ (sourceText input).length,
        (∀ k < n, (lexerToken (lexerCreateSized input file) k).type ≠ .endOfFile ∧ ∃ gap span,
            CallAccount (sourceText input) (lexerRun (lexerCreateSized input file) k) gap span) ∧
        (∀ k ≥ n, (lexerToken (lexerCreateSized input file) k).type = .endOfFile) ∧
        ∃ gap, GapEndsBefore gap [] ∧
          (sourceText input).take (lexerRun (lexerCreateSized input file) n).position ++
            gapText gap = sourceText input := by
  have hlen := sourceText_length_le input
  have htracks := create_tracks input file
  have hst : (lexerCreateSized input file).rest = sourceText input := by
    simp [lexerCreateSized]
  refine ⟨by simp [lexerCreateSized], ?_⟩
  obtain ⟨n, hn, hbef, haft⟩ := exists_calls_endOfFile (lexerCreateSized input file)
  rw [hst] at hn
  refine ⟨n, hn, fun k hk => ⟨hbef k hk, ?_⟩, haft, ?_⟩
  · exact nextToken_account (htracks.run (by omega) k) (by omega) (hbef k hk)
  · have hrun := htracks.run (by omega) n
    obtain ⟨hnil, -⟩ := (nextToken_endOfFile_iff _).mp (haft n (Nat.le_refl n))
    have hspec := skipGapText_spec (lexerRun (lexerCreateSized input file) n).rest
    rw [← Lexer.afterGap_rest, hnil, append_nil] at hspec
    refine ⟨_, hspec.2, ?_⟩
    rw [hspec.1, hrun.rest_eq, take_append_drop]

theorem lexing_accounts_for_source_comment : (bytes "a/*").length + 2 ≤ intMax ∧
      ∃ n ≤ (sourceText (bytes "a/*")).length,
        ∀ k < n, ∃ gap span, CallAccount (sourceText (bytes "a/*"))
          (lexerRun (lexerCreateSized (bytes "a/*") none) k) gap span := by
  have hmax : (bytes "a/*").length + 2 ≤ intMax := by decide
  obtain ⟨-, n, hn, hcalls, -⟩ := lexing_accounts_for_source (bytes "a/*") none hmax
  exact ⟨hmax, n, hn, fun k hk => (hcalls k hk).2⟩

/-- A gap item as the language defines it: whitespace, or a comment that is closed. -/
def GapItem.Complete : GapItem → Prop
  | .whitespace c => isWhitespace c
  | .lineComment body => byte '\n' ∉ body
  | .blockComment body => ¬ bytes "*/" <:+: body
  | .unclosedComment _ => False

/-- Every call before the end of file takes complete gap items and a token span from the input,
and its token starts where the span does. -/
def AccountsForInput (input : Text) (file : Option Text) : Prop := ∃ n ≤ input.length,
    (∀ k ≥ n, (lexerToken (lexerCreateSized input file) k).type = .endOfFile) ∧
    ∀ k < n, (lexerToken (lexerCreateSized input file) k).type ≠ .endOfFile ∧
      ∃ gap span, (∀ item ∈ gap, GapItem.Complete item) ∧ gapText gap ++ span ≠ [] ∧
        input.take (lexerRun (lexerCreateSized input file) k).position ++ (gapText gap ++ span) =
          input.take (lexerRun (lexerCreateSized input file) (k + 1)).position ∧
        (lexerToken (lexerCreateSized input file) k).line = lineOf
          (input.take (lexerRun (lexerCreateSized input file) k).position ++ gapText gap) ∧
        (lexerToken (lexerCreateSized input file) k).column = columnOf
          (input.take (lexerRun (lexerCreateSized input file) k).position ++ gapText gap)

/-- The token of an unclosed comment stands after the comment, which is no complete gap item. -/
theorem not_accountsForInput_unclosed_comment : ¬ AccountsForInput (bytes "a/*") none := by
  rintro ⟨n, -, haft, hbef⟩
  have hn : 1 < n := by
    by_contra hle
    exact absurd (haft 1 (by omega)) (by decide)
  obtain ⟨-, gap, span, hcompl, -, htaken, -, hcol⟩ := hbef 1 hn
  have hpos : (lexerRun (lexerCreateSized (bytes "a/*") none) 1).position = 1 := by decide
  have hnext : (lexerRun (lexerCreateSized (bytes "a/*") none) 2).position = 3 := by decide
  have htok : (lexerToken (lexerCreateSized (bytes "a/*") none) 1).column = 4 := by decide
  rw [hpos, hnext] at htaken
  rw [hpos, htok] at hcol
  have hspan : gapText gap ++ span = bytes "/*" :=
    append_cancel_left (show [byte 'a'] ++ (gapText gap ++ span) = [byte 'a'] ++ bytes "/*"
      from htaken)
  have hlen : 2 ≤ (gapText gap).length := by
    have hle := columnOf_le ((bytes "a/*").take 1 ++ gapText gap)
    rw [← hcol, length_append] at hle
    have hone : ((bytes "a/*").take 1).length = 1 := by decide
    omega
  have hgap : gapText gap = bytes "/*" := by
    have htot := congrArg List.length hspan
    have htwo : (bytes "/*").length = 2 := by decide
    rw [length_append] at htot
    have hnil : span = [] := length_eq_zero_iff.mp (by omega)
    rwa [hnil, append_nil] at hspan
  cases gap with
  | nil => exact absurd hgap (by decide)
  | cons item gap =>
    have hitem := hcompl item (mem_cons_self ..)
    have hlens := congrArg List.length hgap
    rw [gapText, flatMap_cons] at hgap hlens
    cases item with
    | whitespace c =>
      have hc : c = byte '/' := (List.cons.inj hgap).1
      rw [hc] at hitem
      exact absurd (show isWhitespace (byte '/') = true from hitem) (by decide)
    | lineComment body =>
      have hc : byte '/' = byte '*' := (List.cons.inj (List.cons.inj hgap).2).1
      exact absurd hc (by decide)
    | blockComment body =>
      have htwo : (bytes "/*").length = 2 := by decide
      rw [htwo] at hlens
      simp only [GapItem.text, length_append, length_cons] at hlens
      omega
    | unclosedComment body => exact hitem

end Grayscale
