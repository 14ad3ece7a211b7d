import Grayscale.Lexer.Locality

/-!
# The rounds of `read_string`

Every round of the loop of `read_string` returns items for exactly the bytes it takes, but for a
backslash at the end of the text: there the loop takes the terminating NUL for an escaped byte.
-/

namespace Grayscale

open List

def itemsSource (items : List StringItem) : Text := items.flatMap StringItem.source

@[simp] theorem source_nil : itemsSource [] = [] := rfl

@[simp] theorem source_append (a b : List StringItem) :
    itemsSource (a ++ b) = itemsSource a ++ itemsSource b := flatMap_append

@[simp] theorem source_map_body (l : Text) : itemsSource (l.map .body) = l := by
  induction l with
  | nil => rfl
  | cons c l ih => exact congrArg (c :: ·) ih

@[simp] theorem StringState.byteItem_source (s : StringState) (c : UInt8) :
    (s.byteItem c).source = [c] := by
  unfold byteItem
  split_ifs <;> rfl

@[simp] theorem source_map_byteItem (s : StringState) (l : Text) :
    itemsSource (l.map s.byteItem) = l := by
  induction l with
  | nil => rfl
  | cons c l ih =>
    rw [map_cons, itemsSource, flatMap_cons, s.byteItem_source]
    exact congrArg (c :: ·) ih

def itemsLiteral (items : List StringItem) : Text := items.flatMap StringItem.literal

@[simp] theorem literal_append (a b : List StringItem) :
    itemsLiteral (a ++ b) = itemsLiteral a ++ itemsLiteral b := flatMap_append

@[simp] theorem literal_map_body (l : Text) : itemsLiteral (l.map .body) = l := by
  induction l with
  | nil => rfl
  | cons c l ih => exact congrArg (c :: ·) ih

@[simp] theorem literal_map_byteItem (s : StringState) (l : Text) :
    itemsLiteral (l.map s.byteItem) = l := by
  induction l with
  | nil => rfl
  | cons c l ih =>
    have hitem : (s.byteItem c).literal = [c] := by
      unfold StringState.byteItem
      split_ifs <;> rfl
    rw [map_cons, itemsLiteral, flatMap_cons, hitem]
    exact congrArg (c :: ·) ih

variable (quote : UInt8)

theorem nested_beginning (escaped : Bool) (l : Text) : nestedLiteral quote escaped l <+: l := by
  induction l generalizing escaped with
  | nil => cases escaped <;> exact prefix_rfl
  | cons c l ih =>
    cases escaped with
    | true => exact cons_prefix_cons.mpr ⟨rfl, ih false⟩
    | false =>
      rw [nestedLiteral]
      split_ifs
      · exact List.nil_prefix
      · exact ⟨l, rfl⟩
      · exact cons_prefix_cons.mpr ⟨rfl, ih _⟩

/-- A round that takes bytes of `l`, and returns the items of exactly these. -/
structure Scan.Round.Takes (round : Scan.Round StringState (List StringItem)) (l : Text) : Prop where
  source_eq : itemsSource round.output = l.take (round.extra + 1)
  extra_lt : round.extra < l.length

variable {l : Text} {s : StringState}

theorem Scan.Round.takes_of_prefix {source : Text} {items : List StringItem} (h : source <+: l)
    (hsrc : source ≠ []) (hits : itemsSource items = source) :
    Scan.Round.Takes ⟨items, s, source.length - 1⟩ l := by
  have hpos := length_pos_iff.mpr hsrc
  have hle := h.length_le
  refine ⟨?_, by dsimp only; omega⟩
  dsimp only
  rw [Nat.sub_add_cancel hpos, hits]
  exact prefix_iff_eq_take.mp h

theorem bytesRound_takes (s next : StringState) {source : Text} (h : source <+: l)
    (hsrc : source ≠ []) : (s.bytesRound next source).Takes l :=
  Scan.Round.takes_of_prefix h hsrc (source_map_byteItem s source)

theorem unicodeRound_takes (s : StringState) (hl : l ≠ []) : (unicodeEscapeRound s l).Takes l := by
  have htake : ∀ n, 1 ≤ n → l.take n ≠ [] := by
    intro n hn
    rw [ne_eq, take_eq_nil_iff]
    rintro (h | h)
    · omega
    · exact hl h
  have hrnd : ∀ next n, 1 ≤ n → (s.bytesRound next (l.take n)).Takes l :=
    fun next n hn => bytesRound_takes s next (List.take_prefix n l) (htake n hn)
  unfold unicodeEscapeRound
  dsimp only
  split_ifs
  · exact hrnd _ _ (by omega)
  · exact hrnd _ _ (by omega)
  · exact hrnd _ _ (by omega)
  · exact hrnd _ _ (by omega)
  · exact Scan.Round.takes_of_prefix (List.take_prefix _ l) (htake _ (by omega)) (by simp [itemsSource, StringItem.source])

/-- The round of a backslash that nothing follows: it takes the NUL that ends the text. -/
def escapeAtEnd (s : StringState) : Scan.Round StringState (List StringItem) :=
  ⟨[s.byteItem (byte '\\'), s.byteItem 0], s, 0⟩

theorem escapeRound_takes (s : StringState) (b : UInt8) (l : Text) :
    (escapeRound s (byte '\\' :: b :: l)).Takes (byte '\\' :: b :: l) := by
  have hrnd : ∀ next n, 1 ≤ n →
      (s.bytesRound next ((byte '\\' :: b :: l).take n)).Takes (byte '\\' :: b :: l) :=
    fun next n hn => bytesRound_takes s next (List.take_prefix n _) (by
      rw [ne_eq, take_eq_nil_iff]
      rintro (h | h)
      · omega
      · cases h)
  unfold escapeRound
  dsimp only
  split_ifs with hu hx h1 h2 hnul hbad
  · exact unicodeRound_takes s (cons_ne_nil _ _)
  · exact hrnd _ _ (by omega)
  · exact hrnd _ _ (by omega)
  · exact hrnd _ _ (by omega)
  · rw [byteAt_succ, byteAt_zero] at hnul
    subst hnul
    exact ⟨by simp [itemsSource], by simp⟩
  · exact hrnd _ _ (by omega)
  · exact hrnd _ _ (by omega)

/-! ### What a round can be -/

/-- A byte that a round takes by itself. -/
structure PlainByte (s : StringState) (c : UInt8) (l : Text) : Prop where
  ne_nul : c ≠ 0
  ne_backslash : c ≠ byte '\\'
  not_open : ¬ (c = byte '$' ∧ byteAt l 0 = byte '\x7b')
  outside : s.braceDepth = 0 → c ≠ byte '"' ∧ c ≠ byte '\n'
  inside : 0 < s.braceDepth → c ≠ byte '"' ∧ c ≠ byte '\'' ∧ c ≠ byte '\x7b' ∧ c ≠ byte '\x7d'

/-- The rounds of `read_string` at the byte `c` in front of `l`. -/
inductive StringRound (s : StringState) :
    UInt8 → Text → Scan.Round StringState (List StringItem) → Prop
  | escape (l : Text) : StringRound s (byte '\\') l (escapeRound s (byte '\\' :: l))
  | openBody (l : Text) (h : byteAt l 0 = byte '\x7b') : StringRound s (byte '$') l
      ⟨if s.braceDepth = 0 then [.openBody] else [.body (byte '$'), .body (byte '\x7b')],
        { s with braceDepth := s.braceDepth + 1 }, 1⟩
  | nested (quote : UInt8) (l : Text) (hquote : quote = byte '"' ∨ quote = byte '\'')
      (hdepth : 0 < s.braceDepth) : StringRound s quote l
      ⟨(quote :: nestedLiteral quote false l).map .body, s, (nestedLiteral quote false l).length⟩
  | openBrace (l : Text) (hdepth : 0 < s.braceDepth) : StringRound s (byte '\x7b') l
      ⟨[.body (byte '\x7b')], { s with braceDepth := s.braceDepth + 1 }, 0⟩
  | closeBrace (l : Text) (hdepth : 0 < s.braceDepth) : StringRound s (byte '\x7d') l
      ⟨if s.braceDepth = 1 then [.closeBody] else [.body (byte '\x7d')],
        { s with braceDepth := s.braceDepth - 1 }, 0⟩
  | plain (c : UInt8) (l : Text) (h : PlainByte s c l) : StringRound s c l ⟨[s.byteItem c], s, 0⟩

theorem stringStep_cons (s : StringState) (c : UInt8) (l : Text) : stringStep s (c :: l) =
      if c = 0 then none
      else if c = byte '\\' then some (escapeRound s (c :: l))
      else if c = byte '$' ∧ byteAt l 0 = byte '\x7b' then
        some ⟨if s.braceDepth = 0 then [.openBody] else [.body (byte '$'), .body (byte '\x7b')],
          { s with braceDepth := s.braceDepth + 1 }, 1⟩
      else if (c = byte '"' ∨ c = byte '\'') ∧ s.braceDepth > 0 then
        some ⟨(c :: nestedLiteral c false l).map .body, s, (nestedLiteral c false l).length⟩
      else if c = byte '\x7b' ∧ s.braceDepth > 0 then
        some ⟨[.body c], { s with braceDepth := s.braceDepth + 1 }, 0⟩
      else if c = byte '\x7d' ∧ s.braceDepth > 0 then
        some ⟨if s.braceDepth = 1 then [.closeBody] else [.body c],
          { s with braceDepth := s.braceDepth - 1 }, 0⟩
      else if c = byte '"' then none
      else if c = byte '\n' ∧ s.braceDepth = 0 then none
      else some ⟨[s.byteItem c], s, 0⟩ := rfl

variable {round : Scan.Round StringState (List StringItem)} {c : UInt8}

theorem stringStep_cases (h : stringStep s (c :: l) = some round) : StringRound s c l round := by
  rw [stringStep_cons] at h
  by_cases hnul : c = 0
  · simp [hnul] at h
  rw [if_neg hnul] at h
  by_cases hesc : c = byte '\\'
  · rw [if_pos hesc] at h
    cases h
    subst hesc
    exact .escape l
  rw [if_neg hesc] at h
  by_cases hopen : c = byte '$' ∧ byteAt l 0 = byte '\x7b'
  · rw [if_pos hopen] at h
    cases h
    obtain ⟨rfl, hopen⟩ := hopen
    exact .openBody l hopen
  rw [if_neg hopen] at h
  by_cases hnest : (c = byte '"' ∨ c = byte '\'') ∧ s.braceDepth > 0
  · rw [if_pos hnest] at h
    cases h
    exact .nested c l hnest.1 hnest.2
  rw [if_neg hnest] at h
  by_cases hbr : c = byte '\x7b' ∧ s.braceDepth > 0
  · rw [if_pos hbr] at h
    cases h
    obtain ⟨rfl, hdepth⟩ := hbr
    exact .openBrace l hdepth
  rw [if_neg hbr] at h
  by_cases hcl : c = byte '\x7d' ∧ s.braceDepth > 0
  · rw [if_pos hcl] at h
    cases h
    obtain ⟨rfl, hdepth⟩ := hcl
    exact .closeBrace l hdepth
  rw [if_neg hcl] at h
  by_cases hq : c = byte '"'
  · rw [if_pos hq] at h
    cases h
  rw [if_neg hq] at h
  by_cases hline : c = byte '\n' ∧ s.braceDepth = 0
  · rw [if_pos hline] at h
    cases h
  rw [if_neg hline] at h
  cases h
  exact .plain c l ⟨hnul, hesc, hopen, fun hdepth => ⟨hq, fun h => hline ⟨h, hdepth⟩⟩,
    fun hdepth => ⟨hq, fun h => hnest ⟨.inr h, hdepth⟩, fun h => hbr ⟨h, hdepth⟩,
      fun h => hcl ⟨h, hdepth⟩⟩⟩

theorem StringRound.step (h : StringRound s c l round) : stringStep s (c :: l) = some round := by
  rw [stringStep_cons]
  cases h with
  | escape => rfl
  | openBody _ h =>
    rw [if_neg (by decide), if_neg (by decide), if_pos ⟨rfl, h⟩]
  | nested _ _ hq hdepth =>
    rcases hq with rfl | rfl
    · rw [if_neg (by decide), if_neg (by decide), if_neg (by simp), if_pos ⟨.inl rfl, hdepth⟩]
    · rw [if_neg (by decide), if_neg (by decide), if_neg (by simp), if_pos ⟨.inr rfl, hdepth⟩]
  | openBrace _ hdepth =>
    rw [if_neg (by decide), if_neg (by decide), if_neg (by simp), if_neg (by simp),
      if_pos ⟨rfl, hdepth⟩]
  | closeBrace _ hdepth =>
    rw [if_neg (by decide), if_neg (by decide), if_neg (by simp), if_neg (by simp),
      if_neg (by simp), if_pos ⟨rfl, hdepth⟩]
  | plain _ _ h =>
    rw [if_neg h.ne_nul, if_neg h.ne_backslash, if_neg h.not_open]
    rcases Nat.eq_zero_or_pos s.braceDepth with hdepth | hdepth
    · have houtside := h.outside hdepth
      rw [if_neg fun h => Nat.ne_of_gt h.2 hdepth, if_neg fun h => Nat.ne_of_gt h.2 hdepth,
        if_neg fun h => Nat.ne_of_gt h.2 hdepth, if_neg houtside.1, if_neg fun h => houtside.2 h.1]
    · obtain ⟨hq, hchar, hopen, hcl⟩ := h.inside hdepth
      rw [if_neg fun h => h.1.elim hq hchar, if_neg fun h => hopen h.1,
        if_neg fun h => hcl h.1, if_neg hq, if_neg fun h => Nat.ne_of_gt hdepth h.2]

theorem stringStep_eq_none : stringStep s (c :: l) = none ↔
      c = 0 ∨ (s.braceDepth = 0 ∧ (c = byte '"' ∨ c = byte '\n')) := by
  constructor
  · intro h
    by_contra hne
    simp only [not_or, not_and] at hne
    obtain ⟨hnul, houtside⟩ := hne
    rw [stringStep_cons, if_neg hnul] at h
    split_ifs at h with hesc hopen hnest hbr hcl hq hline
    · -- a quote that closes no nested literal ends the string
      rcases Nat.eq_zero_or_pos s.braceDepth with hdepth | hdepth
      · exact (houtside hdepth).1 hq
      · exact hnest ⟨.inl hq, hdepth⟩
    · exact (houtside hline.2).2 hline.1
  · rintro (rfl | ⟨hdepth, rfl | rfl⟩) <;> simp [stringStep, *]

theorem stringStep_source (h : stringStep s (c :: l) = some round) :
    round.Takes (c :: l) ∨ (c = byte '\\' ∧ l = [] ∧ round = escapeAtEnd s) := by
  cases stringStep_cases h with
  | escape =>
    cases l with
    | nil => exact .inr ⟨rfl, rfl, by simp [escapeRound, escapeAtEnd]⟩
    | cons d l => exact .inl (escapeRound_takes s d l)
  | openBody _ hopen =>
    obtain ⟨t, rfl⟩ := cons_of_byteAt hopen (by decide)
    refine .inl ⟨?_, by simp⟩
    dsimp only
    split_ifs <;> rfl
  | nested _ _ hq hdepth =>
    have hpre := nested_beginning c false l
    refine .inl ⟨?_, Nat.lt_succ_of_le hpre.length_le⟩
    rw [source_map_body, take_succ_cons, ← prefix_iff_eq_take.mp hpre]
  | openBrace _ hdepth => exact .inl ⟨rfl, by simp⟩
  | closeBrace _ hdepth =>
    refine .inl ⟨?_, by simp⟩
    dsimp only
    split_ifs <;> rfl
  | plain _ _ h => exact .inl ⟨by simp [itemsSource], by simp⟩

theorem scanString_source (s : StringState) (l : Text) :
    ∃ taken, taken ++ (Scan.run stringStep s l).rest = l ∧
      (itemsSource (Scan.run stringStep s l).outputs.flatten = taken ∨
        (itemsSource (Scan.run stringStep s l).outputs.flatten = taken ++ [0] ∧
          (Scan.run stringStep s l).rest = [])) := by
  refine Scan.run_induct stringStep (P := fun _ l r => ∃ taken, taken ++ r.rest = l ∧
    (itemsSource r.outputs.flatten = taken ∨
      (itemsSource r.outputs.flatten = taken ++ [0] ∧ r.rest = [])))
    (fun _ => ⟨[], rfl, .inl rfl⟩) (fun _ c l _ => ⟨[], rfl, .inl rfl⟩) ?_ s l
  intro s c l round h ih
  obtain ⟨taken, hrest, hsrc⟩ := ih
  simp only [Scan.Result.cons_rest, Scan.Result.cons_outputs, flatten_cons, source_append]
  rcases stringStep_source h with htakes | ⟨rfl, rfl, rfl⟩
  · refine ⟨itemsSource round.output ++ taken, ?_, ?_⟩
    · rw [append_assoc, hrest, htakes.source_eq]
      exact take_append_drop (round.extra + 1) (c :: l)
    · rcases hsrc with hsrc | ⟨hsrc, hnil⟩
      · exact .inl (by rw [hsrc])
      · exact .inr ⟨by rw [hsrc, append_assoc], hnil⟩
  · refine ⟨[byte '\\'], rfl, .inr ⟨?_, rfl⟩⟩
    simp [escapeAtEnd, itemsSource]

theorem scanString_split (l : Text) : ∃ u, u ++ (scanString l).rest = l ∧
    ((scanString l).rest ≠ [] → itemsSource (scanString l).outputs.flatten = u) := by
  obtain ⟨u, hu, hsrc⟩ := scanString_source ⟨0, none⟩ l
  refine ⟨u, hu, fun hrest => hsrc.resolve_right fun h => hrest h.2⟩

/-- The error of a string literal that is never closed. -/
def unclosedStringError : LexError :=
  lexError "E1021" "string literal was never closed; add a closing double quote"

theorem string_cons (l : Text) : readString (quote :: l) =
    if byteAt (scanString l).rest 0 = byte '"' then
      .ofError .string ((scanString l).outputs.flatten.flatMap StringItem.literal)
        (2 + (itemsSource (scanString l).outputs.flatten).length) (stringError (scanString l))
    else
      .illegal ((stringError (scanString l)).getD unclosedStringError)
        (1 + (itemsSource (scanString l).outputs.flatten).length) := rfl

/-! ### Raw strings and characters -/

def isRawStringByte (c : UInt8) : Bool := c != byte '\x60' && c != 0

theorem rawString_cons (l : Text) : readRawString (quote :: l) =
    if byteAt (l.dropWhile isRawStringByte) 0 = byte '\x60' then
      .ofError .rawString (l.takeWhile isRawStringByte)
        (2 + (l.takeWhile isRawStringByte).length)
        (checkLiteralUtf8 (l.takeWhile isRawStringByte))
    else .illegal (lexError "E1017" "unclosed raw string literal")
      (1 + (l.takeWhile isRawStringByte).length) := by
  rw [← Scan.drop_length_takeWhile, byteAt_drop, Nat.add_zero, ← byteAt_succ quote,
    Nat.add_comm _ 1]
  rfl

/-- A byte in front of the end of a character literal. -/
def isCharTailByte (c : UInt8) : Bool := c != byte '\'' && c != 0 && c != byte '\n'

theorem charTail_eq (l : Text) : charTail l = l.takeWhile isCharTailByte := rfl

theorem charLiteral_cons (l : Text) : readCharLiteral (quote :: l) =
    if byteAt l (scanCharacter l).1 = byte '\'' then
      .ofError .char (l.take (scanCharacter l).1) (2 + (scanCharacter l).1) (scanCharacter l).2
    else .illegal ((scanCharacter l).2.getD (lexError "E1005" "unclosed character literal"))
      (1 + (scanCharacter l).1) := rfl

theorem scanChar_of_error {error : LexError} (h : (readCharHead l).2 = some error) :
    scanCharacter l = readCharHead l := by
  rw [scanCharacter, ← Prod.eta (readCharHead l), h]

theorem scanChar_of_none (h : (readCharHead l).2 = none) :
    scanCharacter l = ((readCharHead l).1 + (charTail (l.drop (readCharHead l).1)).length,
      if 0 < (charTail (l.drop (readCharHead l).1)).length ∧
        byteAt ((l.drop (readCharHead l).1).dropWhile isCharTailByte) 0 = byte '\'' then
        some charLengthError else none) := by
  rw [charTail_eq, ← Scan.drop_length_takeWhile, byteAt_drop, byteAt_drop, Nat.add_zero]
  conv_lhs => rw [scanCharacter, ← Prod.eta (readCharHead l), h]
  rfl

end Grayscale
