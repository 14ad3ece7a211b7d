import Grayscale.Lexer.Strings

/-!
# Interpolated strings

The parser scans the text of a string literal once more. `string_has_interpolation` looks for the
first dollar sign in front of a brace, and `parse_interpolated_string` cuts the text into segments
and bodies. In a body the parser reads a backslash as any other byte; `read_string` of the lexer
takes the byte behind it as well.
-/

namespace Grayscale.Interpolation

open List

/-! ### The parser -/

/-- `string_has_interpolation`, entered behind a backslash or at any other byte. -/
def stringHasInterpolation : Bool → Text → Bool
  | _, [] => false
  | true, _ :: l => stringHasInterpolation false l
  | false, c :: l =>
    if c = byte '$' ∧ byteAt l 0 = byte '\x7b' then true
    else stringHasInterpolation (c == byte '\\') l

/-- One round of the loops of `parse_interpolated_string`: the outer one at depth zero, and the one
that looks for the brace that closes a body. -/
def interpolationStep (depth : ℕ) (l : Text) : Option (Scan.Round ℕ (List StringItem)) :=
  let c := byteAt l 0
  if c = 0 then none
  else if depth = 0 then
    if c = byte '\\' ∧ byteAt l 1 ≠ 0 then some ⟨[.text c, .text (byteAt l 1)], 0, 1⟩
    else if c = byte '$' ∧ byteAt l 1 = byte '\x7b' then some ⟨[.openBody], 1, 1⟩
    else some ⟨[.text c], 0, 0⟩
  else if c = byte '"' ∨ c = byte '\'' then
    let nested := nestedLiteral c false (l.drop 1)
    some ⟨(c :: nested).map .body, depth, nested.length⟩
  else if c = byte '\x7b' then some ⟨[.body c], depth + 1, 0⟩
  else if c = byte '\x7d' then
    some ⟨if depth = 1 then [.closeBody] else [.body c], depth - 1, 0⟩
  else some ⟨[.body c], depth, 0⟩

/-- The loops of `parse_interpolated_string`; the state is the depth at the end of the text. -/
def scanInterpolation (depth : ℕ) (l : Text) : Scan.Result UInt8 ℕ (List StringItem) :=
  Scan.run interpolationStep depth l

/-- The bytes of the bodies, with those of the body that is open. -/
def bodyTexts : Text → List StringItem → List Text
  | _, [] => []
  | open_, .body c :: l => bodyTexts (open_ ++ [c]) l
  | open_, .closeBody :: l => open_ :: bodyTexts [] l
  | _, _ :: l => bodyTexts [] l

/-- `parse_interpolated_string`, up to the parser of the bodies, which are 65536 bytes at most. -/
def parseInterpolatedString (l : Text) : Option (List StringItem) :=
  let items := (scanInterpolation 0 l).outputs.flatten
  if (bodyTexts [] items).any fun body => 65536 < body.length then none else some items

/-! ### Passing over text -/

/-- The parser passes over a text at the depth `d`, and is at the depth `d'` behind it. -/
def Passes (d : ℕ) (text : Text) (d' : ℕ) (items : List StringItem) (rest : Text) : Prop :=
  ∃ outputs : List (List StringItem), outputs.flatten = items ∧ scanInterpolation d (text ++ rest) =
      ⟨outputs ++ (scanInterpolation d' rest).outputs, (scanInterpolation d' rest).state,
        (scanInterpolation d' rest).rest⟩

section Passes

variable {d d' d'' : ℕ} {text text' rest : Text} {items items' : List StringItem}

theorem Passes.nil : Passes d [] d [] rest := ⟨[], rfl, rfl⟩

theorem Passes.append (h : Passes d text d' items (text' ++ rest))
    (h' : Passes d' text' d'' items' rest) :
    Passes d (text ++ text') d'' (items ++ items') rest := by
  obtain ⟨outputs, rfl, hscan⟩ := h
  obtain ⟨outputs', rfl, hscan'⟩ := h'
  refine ⟨outputs ++ outputs', flatten_append, ?_⟩
  rw [append_assoc, hscan, hscan', append_assoc]

variable {c : UInt8}

theorem Passes.round {round : Scan.Round ℕ (List StringItem)}
    (h : interpolationStep d (c :: (text ++ rest)) = some round)
    (hextra : round.extra = text.length) : Passes d (c :: text) round.state round.output rest := by
  refine ⟨[round.output], flatten_singleton, ?_⟩
  have hdrop : (text ++ rest).drop round.extra = rest := by rw [hextra, drop_left]
  rw [scanInterpolation, cons_append, Scan.run_cons _ h, hdrop]
  rfl

theorem passes_text (hnul : c ≠ 0) (hesc : c ≠ byte '\\')
    (hopen : ¬ (c = byte '$' ∧ byteAt rest 0 = byte '\x7b')) : Passes 0 [c] 0 [.text c] rest := by
  refine @Passes.round 0 [] rest c ⟨[.text c], 0, 0⟩ ?_ rfl
  rw [interpolationStep, nil_append]
  dsimp only
  rw [byteAt_zero, byteAt_succ, if_neg hnul, if_pos rfl, if_neg fun h => hesc h.1, if_neg hopen]

theorem passes_escape (hnul : c ≠ 0) :
    Passes 0 [byte '\\', c] 0 [.text (byte '\\'), .text c] rest := by
  refine @Passes.round 0 [c] rest (byte '\\') ⟨[.text (byte '\\'), .text c], 0, 1⟩ ?_ rfl
  rw [interpolationStep, singleton_append]
  dsimp only
  rw [byteAt_zero, byteAt_succ, byteAt_zero, if_neg (by decide), if_pos rfl, if_pos ⟨rfl, hnul⟩]

theorem passes_open : Passes 0 [byte '$', byte '\x7b'] 1 [.openBody] rest :=
  @Passes.round 0 [byte '\x7b'] rest (byte '$') ⟨[.openBody], 1, 1⟩ rfl rfl

theorem passes_body (hdepth : 0 < d) (hnul : c ≠ 0) (hq : c ≠ byte '"')
    (hchar : c ≠ byte '\'') (hopen : c ≠ byte '\x7b') (hcl : c ≠ byte '\x7d') :
    Passes d [c] d [.body c] rest := by
  refine @Passes.round d [] rest c ⟨[.body c], d, 0⟩ ?_ rfl
  rw [interpolationStep, nil_append]
  dsimp only
  rw [byteAt_zero, if_neg hnul, if_neg (by omega), if_neg fun h => h.elim hq hchar,
    if_neg hopen, if_neg hcl]

theorem passes_openBrace (hdepth : 0 < d) :
    Passes d [byte '\x7b'] (d + 1) [.body (byte '\x7b')] rest := by
  refine @Passes.round d [] rest (byte '\x7b') ⟨[.body (byte '\x7b')], d + 1, 0⟩ ?_ rfl
  rw [interpolationStep, nil_append]
  dsimp only
  rw [byteAt_zero, if_neg (by decide), if_neg (by omega), if_neg (by decide), if_pos rfl]

theorem passes_closeBrace (hdepth : 0 < d) : Passes d [byte '\x7d'] (d - 1)
      (if d = 1 then [.closeBody] else [.body (byte '\x7d')]) rest := by
  refine @Passes.round d [] rest (byte '\x7d')
    ⟨if d = 1 then [.closeBody] else [.body (byte '\x7d')], d - 1, 0⟩ ?_ rfl
  rw [interpolationStep, nil_append]
  dsimp only
  rw [byteAt_zero, if_neg (by decide), if_neg (by omega), if_neg (by decide),
    if_neg (by decide), if_pos rfl]

theorem passes_nested {quote : UInt8} {nested : Text} (hdepth : 0 < d)
    (hq : quote = byte '"' ∨ quote = byte '\'')
    (hnest : nestedLiteral quote false (nested ++ rest) = nested) :
    Passes d (quote :: nested) d ((quote :: nested).map .body) rest := by
  refine @Passes.round d nested rest quote ⟨(quote :: nested).map .body, d, nested.length⟩ ?_ rfl
  have hnul : quote ≠ 0 := by rcases hq with rfl | rfl <;> decide
  rw [interpolationStep]
  dsimp only
  rw [byteAt_zero, if_neg hnul, if_neg (by omega), if_pos hq, drop_one, tail_cons, hnest]

theorem passes_digits (hdig : ∀ c ∈ text, isxdigit c = true) (s : StringState) :
    Passes s.braceDepth text s.braceDepth (text.map s.byteItem) rest := by
  have hpl : ∀ c : UInt8, isxdigit c = true → c ≠ 0 ∧ c ≠ byte '\\' ∧ c ≠ byte '$' ∧
      c ≠ byte '"' ∧ c ≠ byte '\'' ∧ c ≠ byte '\x7b' ∧ c ≠ byte '\x7d' := by
    intro c hc
    refine ⟨?_, ?_, ?_, ?_, ?_, ?_, ?_⟩ <;>
    · rintro rfl
      revert hc
      decide
  induction text with
  | nil => exact .nil
  | cons c text ih =>
    obtain ⟨h0, hesc, hdollar, hq, hchar, hopen, hcl⟩ := hpl c (hdig c mem_cons_self)
    have hrest := ih fun c hc => hdig c (mem_cons_of_mem _ hc)
    refine @Passes.append _ _ _ [c] text rest [s.byteItem c] _ ?_ hrest
    rcases Nat.eq_zero_or_pos s.braceDepth with hdepth | hdepth
    · rw [StringState.byteItem, if_pos hdepth, hdepth]
      exact passes_text h0 hesc fun h => hdollar h.1
    · rw [StringState.byteItem, if_neg (by omega)]
      exact passes_body hdepth h0 hq hchar hopen hcl

theorem passes_hexEscapes (l : Text) :
    Passes 0 (l.flatMap hexEscape) 0 ((l.flatMap hexEscape).map .text) rest := by
  have hdigit : ∀ n < 16, isxdigit (hexDigit n) = true := by decide
  induction l with
  | nil => exact .nil
  | cons c l ih =>
    have hdig : ∀ digit ∈ [hexDigit (c.toNat / 16), hexDigit (c.toNat % 16)],
        isxdigit digit = true := by
      intro digit hmem
      have hlt := c.toNat_lt
      rcases mem_pair.mp hmem with rfl | rfl <;> exact hdigit _ (by omega)
    have hfst : Passes 0 (hexEscape c) 0 ((hexEscape c).map .text)
        (l.flatMap hexEscape ++ rest) :=
      @Passes.append _ _ _ [byte '\\', byte 'x'] _ _ _ _ (passes_escape (by decide))
        (passes_digits hdig ⟨0, none⟩)
    rw [flatMap_cons, map_append]
    exact hfst.append ih

end Passes

/-! ### The rounds of the lexer -/

theorem nested_append {quote : UInt8} {l rest : Text} (hnul : (0 : UInt8) ∉ l) :
    ∀ escaped, l.drop (nestedLiteral quote escaped l).length ≠ [] →
      nestedLiteral quote escaped (nestedLiteral quote escaped l ++ rest) =
        nestedLiteral quote escaped l := by
  induction l with
  | nil => exact fun escaped h => absurd (drop_nil) h
  | cons c l ih =>
    have hc : c ≠ 0 := fun h => hnul (h ▸ mem_cons_self)
    have ih := ih fun h => hnul (mem_cons_of_mem _ h)
    rintro (_ | _) hdrop
    · rw [nestedLiteral, if_neg hc] at hdrop ⊢
      by_cases hq : c = quote
      · rw [if_pos hq, singleton_append, nestedLiteral, if_neg hc, if_pos hq]
      · rw [if_neg hq] at hdrop ⊢
        rw [length_cons, drop_succ_cons] at hdrop
        have hrest := ih _ hdrop
        rw [cons_append, nestedLiteral, if_neg hc, if_neg hq]
        by_cases hesc : c = byte '\\'
        · -- The byte behind a backslash is the first one of what follows.
          cases l with
          | nil => exact absurd drop_nil hdrop
          | cons c' l =>
            have hc' : c' ≠ 0 := fun h =>
              hnul (h ▸ mem_cons_of_mem _ mem_cons_self)
            have hflag : (c == byte '\\' && byteAt (c' :: l) 0 != 0) = true := by
              rw [hesc, byteAt_zero, bne_iff_ne.mpr hc']
              rfl
            rw [hflag] at hrest ⊢
            have hflag' : (c == byte '\\' &&
                byteAt (nestedLiteral quote true (c' :: l) ++ rest) 0 != 0) = true := by
              rw [hesc, nestedLiteral, cons_append, byteAt_zero, bne_iff_ne.mpr hc']
              rfl
            rw [hflag', hrest]
        · have hflag : ∀ flag, (c == byte '\\' && flag) = false := fun flag => by
            rw [beq_eq_false_iff_ne.mpr hesc, Bool.false_and]
          rw [hflag] at hrest ⊢
          rw [hflag, hrest]
    · rw [nestedLiteral, length_cons, drop_succ_cons] at hdrop
      rw [nestedLiteral, cons_append, nestedLiteral, ih false hdrop]

section Rounds

variable {s : StringState} {c : UInt8} {l : Text}

/-- An escape without an error: a `\u` escape in a segment, or a backslash, a byte that is no brace,
and hexadecimal digits behind an `x`. -/
theorem escapeRound_cases (hne : l ≠ []) (hnul : (0 : UInt8) ∉ l)
    (herr : (escapeRound s (byte '\\' :: l)).state.error = none) :
    (s.braceDepth = 0 ∧ ∃ source codepoint, escapeRound s (byte '\\' :: l) =
      ⟨[.unicodeEscape source codepoint], s, source.length - 1⟩) ∨
    ∃ c digits, escapeRound s (byte '\\' :: l) = s.bytesRound s (byte '\\' :: c :: digits) ∧
      byteAt l 0 = c ∧ (isStringEscape c = true ∨ c = byte 'x') ∧
        ∀ digit ∈ digits, isxdigit digit = true := by
  obtain ⟨c, l, rfl⟩ := exists_cons_of_ne_nil hne
  have hc : c ≠ 0 := fun h => hnul (h ▸ mem_cons_self)
  have hbad : ∀ {message source}, ¬ (s.bytesRound (s.escapeError message) source).state.error =
      none := fun h => by cases h
  unfold escapeRound at herr ⊢
  dsimp only at herr ⊢
  rw [byteAt_succ, byteAt_zero] at herr ⊢
  by_cases hunicode : c = byte 'u' ∧ s.braceDepth = 0
  · rw [if_pos hunicode] at herr ⊢
    left
    refine ⟨hunicode.2, ?_⟩
    unfold unicodeEscapeRound at herr ⊢
    dsimp only at herr ⊢
    split_ifs at herr ⊢ with h1 h2 h3 h4
    · exact absurd herr hbad
    · exact absurd herr hbad
    · exact absurd herr hbad
    · exact absurd herr hbad
    · exact ⟨_, _, rfl⟩
  right
  rw [if_neg hunicode] at herr ⊢
  by_cases hhex : c = byte 'x'
  · rw [if_pos hhex] at herr ⊢
    split_ifs at herr ⊢ with h1 h2
    · exact absurd herr hbad
    · exact absurd herr hbad
    · rw [Bool.not_eq_true, Bool.not_eq_false'] at h1 h2
      obtain ⟨a, l, rfl⟩ : ∃ a l', l = a :: l' := by
        cases l with
        | nil => exact absurd h1 (by simp [isxdigit, isdigit])
        | cons a l => exact ⟨a, l, rfl⟩
      obtain ⟨b, l, rfl⟩ : ∃ b l', l = b :: l' := by
        cases l with
        | nil => exact absurd h2 (by simp [isxdigit, isdigit])
        | cons b l => exact ⟨b, l, rfl⟩
      refine ⟨c, [a, b], rfl, rfl, .inr hhex, fun digit hmem => ?_⟩
      rcases mem_pair.mp hmem with rfl | rfl
      · simpa using h1
      · simpa using h2
  · rw [if_neg hhex, if_neg hc] at herr ⊢
    split_ifs at herr ⊢ with hesc
    · exact absurd herr hbad
    · rw [Bool.not_eq_true, Bool.not_eq_false'] at hesc
      exact ⟨c, [], rfl, rfl, .inl hesc, forall_mem_nil _⟩

theorem error_of_run (s : StringState) (l : Text)
    (h : (Scan.run stringStep s l).state.error = none) : s.error = none := by
  by_contra hne
  refine absurd h (Scan.run_state stringStep (P := fun s => s.error ≠ none) ?_ hne l)
  intro s c l round hrnd hs
  cases stringStep_cases hrnd with
  | escape =>
    unfold escapeRound unicodeEscapeRound
    dsimp only
    split_ifs <;> first | exact hs | exact Option.some_ne_none _
  | openBody | nested | openBrace | closeBrace | plain => exact hs

end Rounds

/-! ### Both scanners -/

/-- A quote behind a backslash, in a body. -/
def escapesQuote (s : StringState) (l : Text) : Prop :=
  0 < s.braceDepth ∧ byteAt l 0 = byte '\\' ∧ (byteAt l 1 = byte '"' ∨ byteAt l 1 = byte '\'')

/-- No round of the loop of `read_string` takes a quote behind a backslash in a body. -/
inductive Quiet : StringState → Text → Prop
  | nil (s : StringState) : Quiet s []
  | stop {s : StringState} {c : UInt8} {l : Text} (h : stringStep s (c :: l) = none) :
    Quiet s (c :: l)
  | round {s : StringState} {c : UInt8} {l : Text}
    {round : Scan.Round StringState (List StringItem)} (h : stringStep s (c :: l) = some round)
    (quiet : ¬ escapesQuote s (c :: l)) (rest : Quiet round.state (l.drop round.extra)) :
    Quiet s (c :: l)

/-- An item, as the parser reads it from the literal. -/
def expand : StringItem → List StringItem
  | .unicodeEscape _ codepoint => ((utf8Encode codepoint).flatMap hexEscape).map .text
  | item => [item]

/-- The loop ends at the quote that closes the string, without an error. -/
def Accepts (s : StringState) (l : Text) : Prop :=
  (Scan.run stringStep s l).state.error = none ∧ byteAt (Scan.run stringStep s l).rest 0 = byte '"'

section Agreement

variable {s : StringState} {c : UInt8} {l : Text}

theorem Accepts.of_round {round : Scan.Round StringState (List StringItem)}
    (h : Accepts s (c :: l)) (hrnd : stringStep s (c :: l) = some round) :
    Accepts round.state (l.drop round.extra) ∧ round.state.error = none ∧
      l.drop round.extra ≠ [] := by
  rw [Accepts, Scan.run_cons _ hrnd] at h
  refine ⟨h, error_of_run _ _ h.1, fun hnil => ?_⟩
  have hq := h.2
  rw [hnil, Scan.Result.cons_rest, Scan.run_nil, byteAt_nil] at hq
  exact absurd hq (by decide)

@[simp] theorem flatMap_expand_byteItem (s : StringState) (l : Text) :
    (l.map s.byteItem).flatMap expand = l.map s.byteItem := by
  induction l with
  | nil => rfl
  | cons c l ih =>
    have hitem : expand (s.byteItem c) = [s.byteItem c] := by
      rw [StringState.byteItem]
      split_ifs <;> rfl
    rw [map_cons, flatMap_cons, hitem, ih]
    rfl

@[simp] theorem flatMap_expand_body (l : Text) :
    (l.map StringItem.body).flatMap expand = l.map .body := by
  induction l with
  | nil => rfl
  | cons c l ih => exact congrArg (.body c :: ·) ih

theorem byteAt_literal_ne (hnul : (0 : UInt8) ∉ l) (hacc : Accepts s l)
    (hne : byteAt l 0 ≠ byte '\x7b') :
    byteAt (itemsLiteral (Scan.run stringStep s l).outputs.flatten) 0 ≠ byte '\x7b' := by
  cases l with
  | nil => simp [itemsLiteral]
  | cons c l =>
    cases hstep : stringStep s (c :: l) with
    | none => simp [Scan.run_stop _ hstep, itemsLiteral]
    | some round =>
      obtain ⟨-, herr, hdrop⟩ := hacc.of_round hstep
      rw [Scan.run_cons _ hstep, Scan.Result.cons_outputs, flatten_cons, literal_append]
      cases stringStep_cases hstep with
      | escape =>
        have hl : l ≠ [] := fun h => hdrop (by rw [h, drop_nil])
        rcases escapeRound_cases hl (fun h => hnul (mem_cons_of_mem _ h)) herr with
          ⟨-, source, codepoint, hrnd⟩ | ⟨c, digits, hrnd, -⟩
        · have hhead : ∃ t, (utf8Encode codepoint).flatMap hexEscape = byte '\\' :: t := by
            rw [utf8Encode]
            split_ifs <;> exact ⟨_, rfl⟩
          obtain ⟨t, ht⟩ := hhead
          rw [hrnd]
          change byteAt ((((utf8Encode codepoint).flatMap hexEscape) ++ []) ++ _) 0 ≠ _
          rw [ht, append_nil, cons_append, byteAt_zero]
          decide
        · rw [hrnd]
          change byteAt (itemsLiteral ((byte '\\' :: c :: digits).map s.byteItem) ++ _) 0 ≠ _
          rw [literal_map_byteItem, cons_append, byteAt_zero]
          decide
      | openBody _ h =>
        dsimp only
        split_ifs <;> exact (by decide : byte '$' ≠ byte '\x7b')
      | nested _ _ hq hdepth =>
        dsimp only
        rw [literal_map_body]
        rwa [byteAt_zero] at hne
      | openBrace => exact absurd rfl hne
      | closeBrace =>
        dsimp only
        split_ifs <;> exact (by decide : byte '\x7d' ≠ byte '\x7b')
      | plain =>
        have hlit := literal_map_byteItem s [c]
        rw [map_singleton] at hlit
        dsimp only
        rw [hlit, singleton_append, byteAt_zero]
        rwa [byteAt_zero] at hne

theorem passes_round {round : Scan.Round StringState (List StringItem)}
    (hnul : (0 : UInt8) ∉ c :: l) (hrnd : stringStep s (c :: l) = some round)
    (hacc : Accepts s (c :: l)) (hquiet : ¬ escapesQuote s (c :: l)) :
    Passes s.braceDepth (itemsLiteral round.output) round.state.braceDepth
      (round.output.flatMap expand)
      (itemsLiteral (Scan.run stringStep round.state (l.drop round.extra)).outputs.flatten) := by
  have hl : (0 : UInt8) ∉ l := fun h => hnul (mem_cons_of_mem _ h)
  obtain ⟨hrest, herr, hdrop⟩ := hacc.of_round hrnd
  cases stringStep_cases hrnd with
  | escape =>
    have hne : l ≠ [] := fun h => hdrop (by rw [h, drop_nil])
    rcases escapeRound_cases hne hl herr with
      ⟨hdepth, source, codepoint, hesc⟩ | ⟨c, digits, hesc, hfst, hkind, hdig⟩
    · rw [hesc, hdepth]
      change Passes 0 (((utf8Encode codepoint).flatMap hexEscape) ++ []) 0
        ((((utf8Encode codepoint).flatMap hexEscape).map .text) ++ []) _
      rw [append_nil, append_nil]
      exact passes_hexEscapes _
    · rw [hesc]
      change Passes s.braceDepth (itemsLiteral ((byte '\\' :: c :: digits).map s.byteItem))
        s.braceDepth (((byte '\\' :: c :: digits).map s.byteItem).flatMap expand) _
      rw [literal_map_byteItem, flatMap_expand_byteItem]
      have hc : c ≠ 0 ∧ c ≠ byte '\x7b' ∧ c ≠ byte '\x7d' := by
        refine ⟨?_, ?_, ?_⟩ <;>
        · rintro rfl
          revert hkind
          decide
      refine @Passes.append _ _ _ [byte '\\', c] digits _ ([byte '\\', c].map s.byteItem) _ ?_
        (passes_digits hdig s)
      rcases Nat.eq_zero_or_pos s.braceDepth with hdepth | hdepth
      · have hitem : ∀ c, s.byteItem c = .text c := fun c => if_pos hdepth
        rw [hdepth, map_cons, map_singleton, hitem, hitem]
        exact passes_escape hc.1
      · have hitem : ∀ c, s.byteItem c = .body c := fun c => if_neg (by omega)
        have hquotes : c ≠ byte '"' ∧ c ≠ byte '\'' := by
          constructor
          · rintro rfl
            exact hquiet ⟨hdepth, rfl, .inl hfst⟩
          · rintro rfl
            exact hquiet ⟨hdepth, rfl, .inr hfst⟩
        rw [map_cons, map_singleton, hitem, hitem]
        exact @Passes.append _ _ _ [byte '\\'] [c] _ [.body (byte '\\')] [.body c]
          (passes_body hdepth (by decide) (by decide) (by decide) (by decide) (by decide))
          (passes_body hdepth hc.1 hquotes.1 hquotes.2 hc.2.1 hc.2.2)
  | openBody _ h =>
    rcases Nat.eq_zero_or_pos s.braceDepth with hdepth | hdepth
    · dsimp only
      rw [if_pos hdepth, hdepth]
      exact passes_open
    · dsimp only
      rw [if_neg (by omega)]
      exact @Passes.append _ _ _ [byte '$'] [byte '\x7b'] _ [.body (byte '$')]
        [.body (byte '\x7b')]
        (passes_body hdepth (by decide) (by decide) (by decide) (by decide) (by decide))
        (passes_openBrace hdepth)
  | nested _ _ hq hdepth =>
    dsimp only at hdrop ⊢
    rw [literal_map_body, flatMap_expand_body]
    exact passes_nested hdepth hq (nested_append hl false hdrop)
  | openBrace _ hdepth => exact passes_openBrace hdepth
  | closeBrace _ hdepth =>
    have hits : itemsLiteral (if s.braceDepth = 1 then [StringItem.closeBody]
        else [.body (byte '\x7d')]) = [byte '\x7d'] ∧
        (if s.braceDepth = 1 then [StringItem.closeBody] else [.body (byte '\x7d')]).flatMap
          expand = if s.braceDepth = 1 then [.closeBody] else [.body (byte '\x7d')] := by
      split_ifs <;> exact ⟨rfl, rfl⟩
    dsimp only
    rw [hits.1, hits.2]
    exact passes_closeBrace hdepth
  | plain _ _ h =>
    have hlit := literal_map_byteItem s [c]
    have hexpand := flatMap_expand_byteItem s [c]
    rw [map_singleton] at hlit hexpand
    dsimp only
    rw [hlit, hexpand]
    rcases Nat.eq_zero_or_pos s.braceDepth with hdepth | hdepth
    · rw [StringState.byteItem, if_pos hdepth, hdepth]
      refine passes_text h.ne_nul h.ne_backslash fun hopen => ?_
      exact byteAt_literal_ne hl hrest (fun hbr => h.not_open ⟨hopen.1, hbr⟩) hopen.2
    · obtain ⟨hq, hchar, hopen, hcl⟩ := h.inside hdepth
      rw [StringState.byteItem, if_neg (by omega)]
      exact passes_body hdepth h.ne_nul hq hchar hopen hcl

theorem scanInterpolation_run (hquiet : Quiet s l) (hnul : (0 : UInt8) ∉ l)
    (hacc : Accepts s l) :
    let items := (Scan.run stringStep s l).outputs.flatten
    let scan := scanInterpolation s.braceDepth (itemsLiteral items)
    scan.outputs.flatten = items.flatMap expand ∧ scan.state = 0 ∧ scan.rest = [] := by
  induction hquiet with
  | nil s => exact absurd hacc.2 (by rw [Scan.run_nil, byteAt_nil]; decide)
  | @stop s c l h =>
    have hq := hacc.2
    rw [Scan.run_stop _ h, byteAt_zero] at hq
    have hdepth : s.braceDepth = 0 := by
      rcases stringStep_eq_none.mp h with hc | hstop
      · exact absurd (hc.symm.trans hq) (by decide)
      · exact hstop.1
    rw [Scan.run_stop _ h]
    exact ⟨rfl, hdepth, rfl⟩
  | @round s c l round h quiet rest ih =>
    obtain ⟨hrest, -, -⟩ := hacc.of_round h
    obtain ⟨hits, hsta, hend⟩ :=
      ih (fun hmem => hnul (mem_cons_of_mem _ (mem_of_mem_drop hmem))) hrest
    obtain ⟨outputs, houtputs, hscan⟩ := passes_round hnul h hacc quiet
    dsimp only
    rw [Scan.run_cons _ h, Scan.Result.cons_outputs, flatten_cons, literal_append, hscan]
    refine ⟨?_, hsta, hend⟩
    rw [flatten_append, houtputs, flatMap_append, hits]

end Agreement

/-! ### The cut -/

theorem interpolationStep_zero {c : UInt8} {l : Text} (hc : c ≠ 0) : interpolationStep 0 (c :: l) =
      if c = byte '\\' ∧ byteAt l 0 ≠ 0 then some ⟨[.text c, .text (byteAt l 0)], 0, 1⟩
      else if c = byte '$' ∧ byteAt l 0 = byte '\x7b' then some ⟨[.openBody], 1, 1⟩
      else some ⟨[.text c], 0, 0⟩ := by
  rw [interpolationStep]
  dsimp only
  rw [byteAt_zero, byteAt_succ, if_neg hc, if_pos rfl]

theorem hasInterpolation_iff {l : Text} (hnul : (0 : UInt8) ∉ l) :
    stringHasInterpolation false l = true ↔
      .openBody ∈ (scanInterpolation 0 l).outputs.flatten := by
  refine Scan.run_induct interpolationStep (P := fun depth l r => depth = 0 → (0 : UInt8) ∉ l →
    (stringHasInterpolation false l = true ↔ .openBody ∈ r.outputs.flatten)) ?_ ?_ ?_ 0 l rfl hnul
  · exact fun _ _ _ => by simp [stringHasInterpolation]
  · rintro _ c l hstop rfl hnul
    have hc : c ≠ 0 := fun h => hnul (h ▸ mem_cons_self)
    rw [interpolationStep_zero hc] at hstop
    split_ifs at hstop
  · rintro _ c l round hrnd ih rfl hnul
    have hc : c ≠ 0 := fun h => hnul (h ▸ mem_cons_self)
    have hrest := fun hsta => ih hsta fun h =>
      hnul (mem_cons_of_mem _ (mem_of_mem_drop h))
    rw [Scan.Result.cons_outputs, flatten_cons, mem_append, stringHasInterpolation]
    rw [interpolationStep_zero hc] at hrnd
    split_ifs at hrnd with hesc hopen <;> cases hrnd
    · have hnot : ¬ (c = byte '$' ∧ byteAt l 0 = byte '\x7b') := fun h =>
        absurd (hesc.1.symm.trans h.1) (by decide)
      have hskip : stringHasInterpolation true l = stringHasInterpolation false (l.drop 1) := by
        cases l <;> rfl
      rw [if_neg hnot, hesc.1, beq_self_eq_true, hskip, hrest rfl]
      simp
    · simp [hopen]
    · rw [if_neg hopen]
      by_cases hback : c = byte '\\'
      · -- Nothing follows the backslash.
        have hl : l = [] := by
          cases l with
          | nil => rfl
          | cons c' l =>
            have hzero : c' = 0 := by simpa [hback] using hesc
            exact absurd (hzero ▸ mem_cons_of_mem _ mem_cons_self) hnul
        rw [hl, drop_nil, Scan.run_nil]
        simp [stringHasInterpolation]
      · rw [beq_eq_false_iff_ne.mpr hback]
        have hdrop := hrest rfl
        rw [drop_zero] at hdrop ⊢
        rw [hdrop]
        simp

/-! ### Agreement -/

section Expand

theorem bodyTexts_map_text (l : Text) (items : List StringItem) :
    bodyTexts [] (l.map .text ++ items) = bodyTexts [] items := by
  induction l with
  | nil => rfl
  | cons c l ih => exact ih

theorem hexEscapes_ne_nil (codepoint : ℕ) : (utf8Encode codepoint).flatMap hexEscape ≠ [] := by
  rw [utf8Encode]
  split_ifs <;> exact cons_ne_nil _ _

theorem bodyTexts_expand (open_ : Text) (items : List StringItem) :
    bodyTexts open_ (items.flatMap expand) = bodyTexts open_ items := by
  induction items generalizing open_ with
  | nil => rfl
  | cons item items ih =>
    rw [flatMap_cons]
    cases item with
    | unicodeEscape source codepoint =>
      obtain ⟨c, l, hcons⟩ := exists_cons_of_ne_nil (hexEscapes_ne_nil codepoint)
      rw [expand, hcons]
      exact (bodyTexts_map_text l _).trans (ih [])
    | text c => exact ih []
    | openBody => exact ih []
    | body c => exact ih _
    | closeBody => exact congrArg (open_ :: ·) (ih [])

theorem openBody_mem_expand (items : List StringItem) :
    .openBody ∈ items.flatMap expand ↔ .openBody ∈ items := by
  rw [mem_flatMap]
  constructor
  · rintro ⟨item, hitem, hmem⟩
    cases item with
    | openBody => exact hitem
    | unicodeEscape source codepoint =>
      rw [expand, mem_map] at hmem
      obtain ⟨_, -, h⟩ := hmem
      cases h
    | text c | body c | closeBody =>
      cases mem_singleton.mp hmem
  · exact fun h => ⟨_, h, mem_singleton_self _⟩

theorem source_expand (items : List StringItem) :
    itemsSource (items.flatMap expand) = itemsLiteral items := by
  have htext : ∀ l : Text, itemsSource (l.map .text) = l := by
    intro l
    induction l with
    | nil => rfl
    | cons c l ih => exact congrArg (c :: ·) ih
  induction items with
  | nil => rfl
  | cons item items ih =>
    have hitem : itemsSource (expand item) = item.literal := by
      cases item with
      | unicodeEscape source codepoint => exact htext _
      | text c | openBody | body c | closeBody => rfl
    rw [flatMap_cons, source_append, ih, hitem]
    rfl

theorem zero_notMem_literal {items : List StringItem}
    (h : (0 : UInt8) ∉ itemsSource items) : (0 : UInt8) ∉ itemsLiteral items := by
  have hdig : ∀ n < 16, hexDigit n ≠ 0 := by decide
  intro hmem
  obtain ⟨item, hitem, hzero⟩ := mem_flatMap.mp hmem
  have hsrc : (0 : UInt8) ∉ item.source := fun hsrc =>
    h (mem_flatMap.mpr ⟨item, hitem, hsrc⟩)
  cases item with
  | unicodeEscape source codepoint =>
    obtain ⟨c, -, hc⟩ := mem_flatMap.mp hzero
    have hlt := c.toNat_lt
    simp only [hexEscape, mem_cons, not_mem_nil, or_false] at hc
    rcases hc with hc | hc | hc | hc
    · exact absurd hc (by decide)
    · exact absurd hc (by decide)
    · exact hdig _ (by omega) hc.symm
    · exact hdig _ (by omega) hc.symm
  | text c | openBody | body c | closeBody => exact hsrc hzero

end Expand

theorem accepts_of_string {l : Text} (h : (readString (byte '"' :: l)).type = .string) :
    Accepts ⟨0, none⟩ l ∧
      (readString (byte '"' :: l)).literal = itemsLiteral (scanString l).outputs.flatten := by
  rw [string_cons] at h ⊢
  split_ifs at h ⊢ with hq
  · cases herr : stringError (scanString l) with
    | some error =>
      rw [herr] at h
      cases h
    | none =>
      rw [stringError, if_neg (by rw [hq]; decide)] at herr
      have hnone : (scanString l).state.error = none := by
        cases hsta : (scanString l).state.error with
        | none => rfl
        | some error =>
          rw [hsta] at herr
          cases herr
      exact ⟨⟨hnone, hq⟩, rfl⟩
  · cases h

theorem quiet_of_notMem (s : StringState) {l : Text} (h : byte '\\' ∉ l) : Quiet s l := by
  refine Scan.run_induct stringStep (P := fun s l _ => byte '\\' ∉ l → Quiet s l) ?_ ?_ ?_ s l h
  · exact fun s _ => .nil s
  · exact fun s c l hstop _ => .stop hstop
  · intro s c l round hrnd ih hmem
    refine .round hrnd (fun hesc => hmem ?_) (ih fun hrest => hmem ?_)
    · exact hesc.2.1 ▸ mem_cons_self
    · exact mem_cons_of_mem _ (mem_of_mem_drop hrest)

section Long

theorem checkUtf8_ascii {l : Text} (h : ∀ c ∈ l, c < 0x80) : checkLiteralUtf8 l = none := by
  have hrest : (Scan.run utf8Step () l).rest = [] := by
    induction l with
    | nil => rfl
    | cons c l ih =>
      have hc := h c mem_cons_self
      have hdec : grayUtf8Decode (c :: l) = (c.toNat, 1) := if_pos hc
      have hne : ¬ (c.toNat = replacementCodepoint ∧ 1 = 1) := fun heq => by
        have hlt : c.toNat < 128 := hc
        rw [heq.1] at hlt
        exact absurd hlt (by decide)
      have hstep : utf8Step () (c :: l) = some ⟨(), (), 0⟩ := by
        rw [utf8Step, hdec]
        exact if_neg hne
      rw [Scan.run_cons _ hstep]
      exact ih fun c hc => h c (mem_cons_of_mem _ hc)
  rw [checkLiteralUtf8, if_pos hrest]

theorem run_letters (n : ℕ) : Scan.run stringStep ⟨1, none⟩
    (replicate n (byte 'a') ++ [byte '\x7d', byte '"']) =
      ⟨replicate n [.body (byte 'a')] ++ [[.closeBody]], ⟨0, none⟩, [byte '"']⟩ := by
  induction n with
  | zero => rfl
  | succ n ih =>
    have hstep : ∀ l, stringStep ⟨1, none⟩ (byte 'a' :: l) =
        some ⟨[.body (byte 'a')], ⟨1, none⟩, 0⟩ := fun l => rfl
    rw [replicate_succ, cons_append, Scan.run_cons _ (hstep _)]
    dsimp only
    rw [drop_zero, ih]
    rfl

/-- The source of a string whose body has `n` letters, behind its first quote. -/
def letters (n : ℕ) : Text :=
  byte '$' :: byte '\x7b' :: (replicate n (byte 'a') ++ [byte '\x7d', byte '"'])

theorem mem_letters {n : ℕ} {c : UInt8} (h : c ∈ letters n) :
    c ∈ [byte '$', byte '\x7b', byte 'a', byte '\x7d', byte '"'] := by
  simp only [letters, mem_cons, mem_append, mem_replicate, not_mem_nil, or_false] at h ⊢
  tauto

theorem scanString_letters (n : ℕ) : scanString (letters n) =
    ⟨[.openBody] :: (replicate n [.body (byte 'a')] ++ [[.closeBody]]), ⟨0, none⟩, [byte '"']⟩ := by
  have hstep : ∀ l, stringStep ⟨0, none⟩ (byte '$' :: byte '\x7b' :: l) =
      some ⟨[.openBody], ⟨1, none⟩, 1⟩ := fun l => rfl
  rw [scanString, letters, Scan.run_cons _ (hstep _)]
  dsimp only
  rw [drop_one, tail_cons, run_letters]
  rfl

theorem parseInterpolatedString_letters {n : ℕ} (h : 65536 < n) :
    (readString (byte '"' :: letters n)).type = .string ∧
      parseInterpolatedString (readString (byte '"' :: letters n)).literal = none := by
  have hits : (scanString (letters n)).outputs.flatten =
      .openBody :: (replicate n (.body (byte 'a')) ++ [.closeBody]) := by
    rw [scanString_letters, flatten_cons, flatten_append]
    have hflat : (replicate n [StringItem.body (byte 'a')]).flatten =
        replicate n (.body (byte 'a')) := by
      rw [flatten_replicate_singleton]
    rw [hflat]
    rfl
  have hascii : ∀ c ∈ itemsSource (scanString (letters n)).outputs.flatten, c < 0x80 := by
    intro c hc
    rw [hits] at hc
    obtain ⟨item, hitem, hmem⟩ := mem_flatMap.mp hc
    rcases mem_cons.mp hitem with rfl | hitem
    · rcases mem_pair.mp hmem with rfl | rfl <;> decide
    · rcases mem_append.mp hitem with hitem | hitem
      · obtain rfl := eq_of_mem_replicate hitem
        obtain rfl := mem_singleton.mp hmem
        decide
      · obtain rfl := mem_singleton.mp hitem
        obtain rfl := mem_singleton.mp hmem
        decide
  have hnone : stringError (scanString (letters n)) = none := by
    have hutf8 := checkUtf8_ascii hascii
    rw [scanString_letters] at hutf8 ⊢
    exact hutf8
  have hcls : byteAt (scanString (letters n)).rest 0 = byte '"' := by
    rw [scanString_letters]
    rfl
  have htype : (readString (byte '"' :: letters n)).type = .string := by
    rw [string_cons, if_pos hcls, hnone]
    rfl
  refine ⟨htype, ?_⟩
  obtain ⟨hacc, hlit⟩ := accepts_of_string htype
  have hquiet : Quiet ⟨0, none⟩ (letters n) :=
    quiet_of_notMem _ fun hmem => absurd (mem_letters hmem) (by decide)
  have hnul : (0 : UInt8) ∉ letters n := fun hmem => absurd (mem_letters hmem) (by decide)
  have hrun :
      (scanInterpolation 0 (itemsLiteral (scanString (letters n)).outputs.flatten)).outputs.flatten =
        (scanString (letters n)).outputs.flatten.flatMap expand :=
    (scanInterpolation_run hquiet hnul hacc).1
  have hbodies : ∀ (open_ : Text) (k : ℕ), bodyTexts open_
      (replicate k (.body (byte 'a')) ++ [.closeBody]) = [open_ ++ replicate k (byte 'a')] := by
    intro open_ k
    induction k generalizing open_ with
    | zero => exact congrArg ([·]) (append_nil open_).symm
    | succ k ih =>
      change bodyTexts (open_ ++ [byte 'a'])
        (replicate k (.body (byte 'a')) ++ [.closeBody]) = _
      rw [ih, replicate_succ, append_assoc, singleton_append]
  have hlong : (bodyTexts [] (scanString (letters n)).outputs.flatten).any
      (fun body => 65536 < body.length) = true := by
    rw [hits]
    change (bodyTexts [] (replicate n (.body (byte 'a')) ++ [.closeBody])).any _ = true
    rw [hbodies, any_eq_true]
    refine ⟨_, mem_singleton_self _, ?_⟩
    rw [nil_append, length_replicate]
    exact decide_eq_true h
  rw [hlit, parseInterpolatedString, hrun, bodyTexts_expand]
  exact if_pos hlong

end Long

end Grayscale.Interpolation
