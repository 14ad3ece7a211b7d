import Grayscale.Stdlib.StringChars

/-!
# Comma-separated values

The parser and the printer of `stdlib/csv.c`, and what the parser makes of a printed table.
-/

namespace Grayscale

/-! ### The parser -/

def csvDelimiterFromCodepoint (codepoint : ℕ) : Text := codepointToUtf8 codepoint

def csvAtDelimiter (cursor delim : Text) : Bool := delim.isPrefixOf cursor

def csvAtLineEnd (cursor : Text) : Bool :=
  cursor.isEmpty || cursor.head? == some (byte '\n') || cursor.head? == some (byte '\r')

/-- The loop over a quoted field: the bytes up to the closing quote, and the text from it on. -/
def csvQuotedScan : Text → Text × Text
  | [] => ([], [])
  | [c] => if c = byte '"' then ([], [c]) else ([c], [])
  | c :: d :: cursor =>
    if c = byte '"' then
      if d = byte '"' then
        let (field, rest) := csvQuotedScan cursor
        (c :: d :: field, rest)
      else ([], c :: d :: cursor)
    else
      let (field, rest) := csvQuotedScan (d :: cursor)
      (c :: field, rest)

/-- The loop that takes one quote for two. -/
def csvUnescape : Text → Text
  | [] => []
  | [c] => [c]
  | c :: d :: field =>
    if c = byte '"' ∧ d = byte '"' then c :: csvUnescape field else c :: csvUnescape (d :: field)

/-- The loop over an unquoted field: its bytes, and the text behind them. -/
def csvUnquotedScan (delim : Text) : Text → Text × Text
  | [] => ([], [])
  | c :: cursor =>
    if csvAtDelimiter (c :: cursor) delim || csvAtLineEnd (c :: cursor) then ([], c :: cursor)
    else
      let (field, rest) := csvUnquotedScan delim cursor
      (c :: field, rest)

/-- One field and the text behind it, `none` for malformed quoting. -/
def csvField (delim cursor : Text) : Option (Text × Text) :=
  if cursor.head? = some (byte '"') then
    match csvQuotedScan cursor.tail with
    | (_, []) => none
    | (field, _ :: rest) =>
      if !csvAtDelimiter rest delim && !csvAtLineEnd rest then none
      else some (if field.contains (byte '"') then csvUnescape field else field, rest)
  else
    let (field, rest) := csvUnquotedScan delim cursor
    if field.contains (byte '"') then none else some (field, rest)

/-- The loop over the fields of a row: the row and the text behind it, `.error` for malformed
quoting. The fuel bounds the rounds. -/
def csvRow (delim : Text) : ℕ → Text → List Text → Option (Except Unit (List Text × Text))
  | 0, _, _ => none
  | fuel + 1, cursor, row =>
    if csvAtLineEnd cursor then some (.ok (row, cursor))
    else
      match csvField delim cursor with
      | none => some (.error ())
      | some (field, cursor) =>
        if cursor ≠ [] ∧ csvAtDelimiter cursor delim then
          if csvAtLineEnd (cursor.drop delim.length) then
            csvRow delim fuel (cursor.drop delim.length) (row ++ [field] ++ [[]])
          else csvRow delim fuel (cursor.drop delim.length) (row ++ [field])
        else csvRow delim fuel cursor (row ++ [field])

/-- The text behind a byte, if that is the next one. -/
def csvSkip (c : UInt8) (cursor : Text) : Text :=
  if cursor.head? = some c then cursor.tail else cursor

/-- The loop over the rows, `.error` with the number of a row of malformed quoting. -/
def csvRows (delim : Text) : ℕ → Text → List (List Text) → Option (Except ℕ (List (List Text)))
  | 0, _, _ => none
  | fuel + 1, cursor, rows =>
    if cursor = [] then some (.ok rows)
    else
      match csvRow delim (cursor.length + 1) cursor [] with
      | none => none
      | some (.error ()) => some (.error (rows.length + 1))
      | some (.ok (row, cursor)) =>
        csvRows delim fuel (csvSkip (byte '\n') (csvSkip (byte '\r') cursor)) (rows ++ [row])

def utf8ByteOrderMark : Text := [0xEF, 0xBB, 0xBF]

/-- `csv_parse_delimited`, with the row of malformed quoting as `.error`. -/
def csvParseDelimited (csvString delim : Text) : Option (Except ℕ (List (List Text))) :=
  let cursor := if utf8ByteOrderMark.isPrefixOf csvString then csvString.drop 3 else csvString
  csvRows delim (cursor.length + 1) cursor []

/-- `gray_csv_parse`, with the row of the panic `P0148` as `.error`. -/
def grayCsvParse (csvString : Text) : Option (Except ℕ (List (List Text))) :=
  csvParseDelimited csvString (csvDelimiterFromCodepoint 0x2C)

/-! ### The printer -/

/-- A byte that makes a cell need quotes. -/
def isCsvSpecial (c : UInt8) : Bool :=
  c == byte ',' || c == byte '"' || c == byte '\r' || c == byte '\n'

def csvFieldNeedsQuote (field : Text) (isOnlyField : Bool) : Bool :=
  (field.isEmpty && isOnlyField) || field.any isCsvSpecial

/-- A byte of a quoted cell. -/
def csvEscape (c : UInt8) : Text := if c = byte '"' then [byte '"', c] else [c]

def csvFieldEncodedLength (field : Text) (isOnlyField : Bool) : ℕ :=
  if csvFieldNeedsQuote field isOnlyField then field.length + 2 + field.count (byte '"')
  else field.length

def csvFieldEncode (field : Text) (isOnlyField : Bool) : Text :=
  if csvFieldNeedsQuote field isOnlyField then
    byte '"' :: (field.flatMap csvEscape ++ [byte '"'])
  else field

/-- The cells of a row behind its first one, each behind a comma. -/
def csvTailEncode (cells : List Text) (isOnlyField : Bool) : Text :=
  cells.flatMap fun field => byte ',' :: csvFieldEncode field isOnlyField

/-- A row of `gray_csv_stringify`, without its line end. -/
def csvRowEncode : List Text → Text
  | [] => []
  | field :: cells =>
    csvFieldEncode field (cells.length + 1 == 1) ++ csvTailEncode cells (cells.length + 1 == 1)

/-- The bytes that `gray_csv_stringify` counts for the cells of a row and its commas. -/
def csvRowLength : List Text → ℕ
  | [] => 0
  | field :: cells =>
    csvFieldEncodedLength field (cells.length + 1 == 1) +
      (cells.map fun field => 1 + csvFieldEncodedLength field (cells.length + 1 == 1)).sum

/-- The first pass of `gray_csv_stringify`: the bytes of the text. -/
def csvTotal (data : List (List Text)) : ℕ := (data.map fun row => csvRowLength row + 1).sum

/-- The second pass of `gray_csv_stringify`: the text of an array of rows. -/
def csvTableEncode (data : List (List Text)) : Text :=
  data.flatMap fun row => csvRowEncode row ++ [byte '\n']

/-- `gray_csv_stringify` of an array of rows, `none` when the `int32_t` total overflows. -/
def grayCsvStringify (data : List (List Text)) : Option Text :=
  if csvTotal data < 2 ^ 31 then some (csvTableEncode data) else none

open List

theorem csvDelimiterFromCodepoint_comma : csvDelimiterFromCodepoint 0x2C = [byte ','] := by decide

/-! ### Cells -/

/-- A text at which a cell ends: nothing, a comma or a line end. -/
def EndsCell (after : Text) : Prop :=
  after = [] ∨ ∃ c t, after = c :: t ∧ (c = byte ',' ∨ c = byte '\n' ∨ c = byte '\r')

variable {after : Text}

theorem EndsCell.head_ne (h : EndsCell after) : after.head? ≠ some (byte '"') := by
  rcases h with rfl | ⟨c, t, rfl, rfl | rfl | rfl⟩ <;> simp

theorem EndsCell.at_end (h : EndsCell after) :
    (csvAtDelimiter after [byte ','] || csvAtLineEnd after) = true := by
  rcases h with rfl | ⟨c, t, rfl, rfl | rfl | rfl⟩ <;>
    simp [csvAtDelimiter, csvAtLineEnd, List.isPrefixOf]

variable {c : UInt8}

theorem quotedScan_cons (hc : c ≠ byte '"') (cursor : Text) : csvQuotedScan (c :: cursor) =
      (c :: (csvQuotedScan cursor).1, (csvQuotedScan cursor).2) := by
  cases cursor with
  | nil => exact if_neg hc
  | cons d cursor => rw [csvQuotedScan, if_neg hc]

theorem quotedScan_escape (field : Text) {after : Text} (h : after.head? ≠ some (byte '"')) :
    csvQuotedScan (field.flatMap csvEscape ++ byte '"' :: after) =
      (field.flatMap csvEscape, byte '"' :: after) := by
  induction field with
  | nil =>
    cases after with
    | nil => rfl
    | cons d after =>
      have hd : d ≠ byte '"' := fun heq => h (congrArg some heq)
      rw [flatMap_nil, nil_append, csvQuotedScan, if_pos rfl, if_neg hd]
  | cons c field ih =>
    rw [flatMap_cons, append_assoc]
    by_cases hc : c = byte '"'
    · rw [csvEscape, if_pos hc, hc, cons_append, singleton_append, csvQuotedScan,
        if_pos rfl, if_pos rfl, ih]
      rfl
    · rw [csvEscape, if_neg hc, singleton_append, quotedScan_cons hc, ih]
      rfl

theorem unescape_cons (hc : c ≠ byte '"') (field : Text) :
    csvUnescape (c :: field) = c :: csvUnescape field := by
  cases field with
  | nil => rfl
  | cons d field => rw [csvUnescape, if_neg fun h => hc h.1]

theorem unescape_escape (field : Text) : csvUnescape (field.flatMap csvEscape) = field := by
  induction field with
  | nil => rfl
  | cons c field ih =>
    rw [flatMap_cons]
    by_cases hc : c = byte '"'
    · rw [csvEscape, if_pos hc, hc, cons_append, singleton_append, csvUnescape,
        if_pos ⟨rfl, rfl⟩, ih]
    · rw [csvEscape, if_neg hc, singleton_append, unescape_cons hc, ih]

variable {field : Text}

theorem unescape_of_not_mem (h : byte '"' ∉ field) : csvUnescape field = field := by
  induction field with
  | nil => rfl
  | cons c field ih =>
    rw [mem_cons, not_or] at h
    rw [unescape_cons (Ne.symm h.1), ih h.2]

theorem unquotedScan_append (hfld : field.any isCsvSpecial = false)
    (haft : EndsCell after) : csvUnquotedScan [byte ','] (field ++ after) = (field, after) := by
  induction field with
  | nil =>
    rw [nil_append]
    cases after with
    | nil => rfl
    | cons c t => rw [csvUnquotedScan, if_pos haft.at_end]
  | cons c field ih =>
    rw [any_cons, Bool.or_eq_false_iff] at hfld
    have hc : ¬ (csvAtDelimiter (c :: (field ++ after)) [byte ','] ||
        csvAtLineEnd (c :: (field ++ after))) = true := by
      have hspec := hfld.1
      simp only [isCsvSpecial, Bool.or_eq_false_iff, beq_eq_false_iff_ne, ne_eq] at hspec
      obtain ⟨⟨⟨hcom, -⟩, hret⟩, hnewline⟩ := hspec
      intro hend
      simp only [csvAtDelimiter, csvAtLineEnd, List.isPrefixOf, Bool.and_true, Bool.or_eq_true,
        beq_iff_eq, isEmpty_cons, head?_cons, Option.some.injEq, Bool.false_eq_true,
        false_or] at hend
      rcases hend with hend | hend | hend
      · exact hcom hend.symm
      · exact hnewline hend
      · exact hret hend
    rw [cons_append, csvUnquotedScan, if_neg hc, ih hfld.2]

theorem not_mem_of_not_special (h : field.any isCsvSpecial = false) :
    byte '"' ∉ field := fun hmem => by
  rw [any_eq_false] at h
  exact h _ hmem (by decide)

theorem not_special_of_not_needsQuote {isOnlyField : Bool}
    (h : ¬ csvFieldNeedsQuote field isOnlyField = true) : field.any isCsvSpecial = false := by
  rw [csvFieldNeedsQuote, Bool.or_eq_true, not_or, Bool.not_eq_true, Bool.not_eq_true] at h
  exact h.2

theorem csvField_encode (field : Text) (isOnlyField : Bool) {after : Text} (h : EndsCell after) :
    csvField [byte ','] (csvFieldEncode field isOnlyField ++ after) = some (field, after) := by
  unfold csvFieldEncode
  by_cases hq : csvFieldNeedsQuote field isOnlyField = true
  · rw [if_pos hq, cons_append, csvField, head?_cons, if_pos rfl, tail_cons,
      append_assoc, singleton_append, quotedScan_escape field h.head_ne]
    dsimp only
    rw [if_neg (by rw [← Bool.not_or, h.at_end]; exact Bool.false_ne_true)]
    congr 2
    split_ifs with hmem
    · exact unescape_escape field
    · rw [contains_iff_mem] at hmem
      rw [← unescape_of_not_mem hmem, unescape_escape]
  · rw [if_neg hq]
    have hfld := not_special_of_not_needsQuote hq
    have hmem := not_mem_of_not_special hfld
    have hhead : (field ++ after).head? ≠ some (byte '"') := by
      cases field with
      | nil => exact h.head_ne
      | cons c field => exact fun heq => hmem (by rw [Option.some.inj heq]; exact mem_cons_self)
    rw [csvField, if_neg hhead, unquotedScan_append hfld h]
    dsimp only
    rw [if_neg (by rwa [contains_iff_mem])]

/-! ### Rows -/

theorem endsCell_tail (cells : List Text) (isOnlyField : Bool) (rest : Text) :
    EndsCell (csvTailEncode cells isOnlyField ++ byte '\n' :: rest) := by
  cases cells with
  | nil => exact .inr ⟨_, _, rfl, .inr (.inl rfl)⟩
  | cons field cells =>
    rw [csvTailEncode, flatMap_cons, cons_append, cons_append]
    exact .inr ⟨byte ',', _, rfl, .inl rfl⟩

theorem atLineEnd_cons_iff {t : Text} :
    csvAtLineEnd (c :: t) = true ↔ c = byte '\n' ∨ c = byte '\r' := by
  simp only [csvAtLineEnd, isEmpty_cons, head?_cons, Bool.false_or, Bool.or_eq_true,
    beq_iff_eq, Option.some.injEq]

theorem atLineEnd_encode_iff {cells : List Text} {isOnlyField : Bool} {rest : Text} :
    csvAtLineEnd (csvFieldEncode field isOnlyField ++
        (csvTailEncode cells isOnlyField ++ byte '\n' :: rest)) = true ↔
      field = [] ∧ cells = [] ∧ csvFieldNeedsQuote field isOnlyField = false := by
  unfold csvFieldEncode
  by_cases hq : csvFieldNeedsQuote field isOnlyField = true
  · rw [if_pos hq, cons_append, atLineEnd_cons_iff]
    exact iff_of_false (by decide) (by simp [hq])
  · rw [if_neg hq]
    have hfld := not_special_of_not_needsQuote hq
    cases field with
    | nil =>
      cases cells with
      | nil => exact iff_of_true rfl ⟨rfl, rfl, Bool.not_eq_true _ ▸ hq⟩
      | cons d cells =>
        rw [csvTailEncode, flatMap_cons, nil_append, cons_append, cons_append, atLineEnd_cons_iff]
        exact iff_of_false (by decide) fun h => cons_ne_nil _ _ h.2.1
    | cons c field =>
      rw [cons_append, atLineEnd_cons_iff]
      refine iff_of_false (fun hend => ?_) fun h => cons_ne_nil _ _ h.1
      rw [any_cons, Bool.or_eq_false_iff] at hfld
      rcases hend with rfl | rfl <;> exact absurd hfld.1 (by decide)

theorem csvRow_lineEnd {fuel : ℕ} (hfuel : 1 ≤ fuel) (rest : Text) (row : List Text) :
    csvRow [byte ','] fuel (byte '\n' :: rest) row = some (.ok (row, byte '\n' :: rest)) := by
  obtain ⟨fuel, rfl⟩ := Nat.exists_eq_add_of_le' hfuel
  rw [csvRow, if_pos (atLineEnd_cons_iff.mpr (.inl rfl))]

theorem csvRow_encode {cells : List Text} {isOnlyField : Bool} {fuel : ℕ} {rest : Text}
    {row : List Text}
    (h : ¬ (field = [] ∧ cells = [] ∧ csvFieldNeedsQuote field isOnlyField = false))
    (hfuel : cells.length + 2 ≤ fuel) : csvRow [byte ','] fuel (csvFieldEncode field isOnlyField ++
        (csvTailEncode cells isOnlyField ++ byte '\n' :: rest)) row =
      some (.ok (row ++ field :: cells, byte '\n' :: rest)) := by
  induction cells generalizing field fuel row with
  | nil =>
    obtain ⟨fuel, rfl⟩ := Nat.exists_eq_add_of_le' (by omega : 1 ≤ fuel)
    have hdel : ¬ (byte '\n' :: rest ≠ [] ∧ csvAtDelimiter (byte '\n' :: rest) [byte ','] = true) :=
      fun h => Bool.false_ne_true h.2
    rw [csvRow, if_neg (atLineEnd_encode_iff.not.mpr h), csvField_encode _ _ (endsCell_tail _ _ _)]
    exact (if_neg hdel).trans (csvRow_lineEnd (by simp at hfuel; omega) _ _)
  | cons next cells ih =>
    obtain ⟨fuel, rfl⟩ := Nat.exists_eq_add_of_le' (by omega : 1 ≤ fuel)
    rw [length_cons] at hfuel
    rw [csvRow, if_neg (atLineEnd_encode_iff.not.mpr h), csvField_encode _ _ (endsCell_tail _ _ _)]
    have htail : csvTailEncode (next :: cells) isOnlyField ++ byte '\n' :: rest =
        byte ',' :: (csvFieldEncode next isOnlyField ++
          (csvTailEncode cells isOnlyField ++ byte '\n' :: rest)) := by
      rw [csvTailEncode, flatMap_cons, cons_append, cons_append, append_assoc]
      rfl
    simp only [htail]
    have hdel : ∀ t : Text, byte ',' :: t ≠ [] ∧ csvAtDelimiter (byte ',' :: t) [byte ','] = true :=
      fun t => ⟨cons_ne_nil _ _, rfl⟩
    rw [if_pos (hdel _), length_singleton, drop_succ_cons, drop_zero]
    by_cases hend : next = [] ∧ cells = [] ∧ csvFieldNeedsQuote next isOnlyField = false
    · -- The empty cell behind the last comma, which the parser adds by itself.
      obtain ⟨hnext, rfl, hq⟩ := hend
      rw [if_pos (atLineEnd_encode_iff.mpr ⟨hnext, rfl, hq⟩), csvFieldEncode, hq, hnext]
      exact (csvRow_lineEnd (by omega) _ _).trans (by rw [append_assoc]; rfl)
    · rw [if_neg (atLineEnd_encode_iff.not.mpr hend), ih hend (by omega), append_assoc]
      rfl

theorem length_csvTailEncode_le (cells : List Text) (isOnlyField : Bool) :
    cells.length ≤ (csvTailEncode cells isOnlyField).length := by
  induction cells with
  | nil => exact Nat.zero_le _
  | cons field cells ih =>
    rw [csvTailEncode, flatMap_cons, length_append, length_cons, length_cons]
    rw [csvTailEncode] at ih
    omega

variable (row : List Text)

theorem csvRow_rowEncode (rest : Text) :
    csvRow [byte ','] ((csvRowEncode row ++ byte '\n' :: rest).length + 1)
      (csvRowEncode row ++ byte '\n' :: rest) [] = some (.ok (row, byte '\n' :: rest)) := by
  cases row with
  | nil => exact csvRow_lineEnd (by simp) _ _
  | cons field cells =>
    have hlen := length_csvTailEncode_le cells (cells.length + 1 == 1)
    rw [csvRowEncode, append_assoc]
    refine csvRow_encode (fun h => ?_) ?_
    · obtain ⟨rfl, rfl, hq⟩ := h
      exact Bool.false_ne_true hq.symm
    · simp only [length_append, length_cons]
      omega

/-! ### Tables -/

variable (data : List (List Text))

theorem tableEncode_cons :
    csvTableEncode (row :: data) = csvRowEncode row ++ byte '\n' :: csvTableEncode data := by
  rw [csvTableEncode, flatMap_cons, append_assoc]
  rfl

theorem csvRows_lineFeed {cursor rest : Text} {row : List Text} (hcur : cursor ≠ [])
    (h : csvRow [byte ','] (cursor.length + 1) cursor [] = some (.ok (row, byte '\n' :: rest)))
    (fuel : ℕ) (rows : List (List Text)) :
    csvRows [byte ','] (fuel + 1) cursor rows = csvRows [byte ','] fuel rest (rows ++ [row]) := by
  rw [csvRows, if_neg hcur, h]
  rfl

theorem rowEncode_ne_nil (rest : Text) : csvRowEncode row ++ byte '\n' :: rest ≠ [] := by simp

theorem csvRows_encode {data : List (List Text)} {fuel : ℕ} (hfuel : data.length + 1 ≤ fuel)
    (rows : List (List Text)) :
    csvRows [byte ','] fuel (csvTableEncode data) rows = some (.ok (rows ++ data)) := by
  obtain ⟨fuel, rfl⟩ := Nat.exists_eq_add_of_le' (by omega : 1 ≤ fuel)
  induction data generalizing fuel rows with
  | nil => rw [csvTableEncode, flatMap_nil, csvRows, if_pos rfl, append_nil]
  | cons row data ih =>
    rw [length_cons] at hfuel
    obtain ⟨fuel, rfl⟩ := Nat.exists_eq_add_of_le' (by omega : 1 ≤ fuel)
    rw [tableEncode_cons, csvRows_lineFeed (rowEncode_ne_nil row _) (csvRow_rowEncode row _),
      ih _ _ (by omega), append_assoc]
    rfl

theorem length_le_tableEncode : data.length ≤ (csvTableEncode data).length := by
  induction data with
  | nil => exact Nat.zero_le _
  | cons row data ih =>
    rw [tableEncode_cons, length_append, length_cons, length_cons]
    omega

theorem csvRows_prefix {delim cursor : Text} {fuel : ℕ} {rows result : List (List Text)}
    (h : csvRows delim fuel cursor rows = some (.ok result)) : rows <+: result := by
  induction fuel generalizing cursor rows with
  | zero => cases h
  | succ fuel ih =>
    rw [csvRows] at h
    split_ifs at h with hcur
    · cases h
      exact prefix_rfl
    · cases hrow : csvRow delim (cursor.length + 1) cursor [] with
      | none => simp [hrow] at h
      | some outcome =>
        cases outcome with
        | error => simp [hrow] at h
        | ok pair =>
          simp only [hrow] at h
          exact (prefix_append _ _).trans (ih h)

/-! ### The byte-order mark -/

/-- The first cell starts with the byte-order mark of UTF-8, and is printed without quotes. -/
def StartsWithByteOrderMark (data : List (List Text)) : Prop :=
  ∃ field cells rows, data = (field :: cells) :: rows ∧ utf8ByteOrderMark <+: field ∧
    field.any isCsvSpecial = false

theorem prefix_of_prefix_append {p s t : Text} (h : p <+: s ++ t)
    (ht : ∀ c, t.head? = some c → c ∉ p) : p <+: s := by
  rcases prefix_or_prefix_of_prefix h (prefix_append s t) with hps | ⟨u, rfl⟩
  · exact hps
  · cases u with
    | nil => exact ⟨[], by simp⟩
    | cons c u =>
      obtain ⟨v, hv⟩ := (prefix_append_right_inj s).mp h
      refine absurd ?_ (ht c (by rw [← hv]; rfl))
      simp

theorem needsQuote_eq_any (h : field ≠ []) (isOnlyField : Bool) :
    csvFieldNeedsQuote field isOnlyField = field.any isCsvSpecial := by
  rw [csvFieldNeedsQuote, isEmpty_eq_false_iff.mpr h]
  rfl

theorem byteOrderMark_prefix_iff :
    utf8ByteOrderMark.isPrefixOf (csvTableEncode data) = true ↔ StartsWithByteOrderMark data := by
  rw [List.isPrefixOf_iff_prefix]
  constructor
  · intro h
    match data with
    | [] => exact absurd (prefix_nil.mp h) (cons_ne_nil _ _)
    | [] :: data =>
      rw [tableEncode_cons] at h
      exact absurd (cons_prefix_cons.mp h).1 (by decide)
    | (field :: cells) :: data =>
      refine ⟨field, cells, data, rfl, ?_⟩
      rw [tableEncode_cons, csvRowEncode, append_assoc] at h
      have haft := endsCell_tail cells (cells.length + 1 == 1) (csvTableEncode data)
      unfold csvFieldEncode at h
      split_ifs at h with hq
      · exact absurd (cons_prefix_cons.mp h).1 (by decide)
      · have hfld := prefix_of_prefix_append h fun c hc => by
          rcases haft with hnil | ⟨d, t, hcons, hd⟩
          · rw [hnil] at hc
            cases hc
          · rw [hcons, head?_cons, Option.some.injEq] at hc
            rw [← hc]
            rcases hd with rfl | rfl | rfl <;> decide
        have hne : field ≠ [] := fun hnil => by
          rw [hnil] at hfld
          exact absurd (prefix_nil.mp hfld) (cons_ne_nil _ _)
        rw [needsQuote_eq_any hne, Bool.not_eq_true] at hq
        exact ⟨hfld, hq⟩
  · rintro ⟨field, cells, rows, rfl, hfld, hspec⟩
    have hne : field ≠ [] := fun hnil => by
      rw [hnil] at hfld
      exact absurd (prefix_nil.mp hfld) (cons_ne_nil _ _)
    rw [tableEncode_cons, csvRowEncode, csvFieldEncode, needsQuote_eq_any hne, hspec,
      if_neg Bool.false_ne_true, append_assoc]
    exact hfld.trans (prefix_append _ _)

theorem csvRow_behind_mark {tail : Text} (cells : List Text) (rest : Text)
    (htail : tail.any isCsvSpecial = false) :
    ∃ row, row ≠ (utf8ByteOrderMark ++ tail) :: cells ∧ ∀ fuel, cells.length + 2 ≤ fuel →
      csvRow [byte ','] fuel (tail ++ (csvTailEncode cells (cells.length + 1 == 1) ++
        byte '\n' :: rest)) [] = some (.ok (row, byte '\n' :: rest)) := by
  by_cases hemp : tail = [] ∧ cells = []
  · obtain ⟨rfl, rfl⟩ := hemp
    exact ⟨[], (cons_ne_nil _ _).symm, fun fuel hfuel => csvRow_lineEnd (by omega) _ _⟩
  · have hq : csvFieldNeedsQuote tail (cells.length + 1 == 1) = false := by
      rw [csvFieldNeedsQuote, htail, Bool.or_false, Bool.and_eq_false_iff]
      rcases not_and_or.mp hemp with htail | hcells
      · exact .inl (isEmpty_eq_false_iff.mpr htail)
      · have hpos := length_pos_of_ne_nil hcells
        exact .inr (beq_eq_false_iff_ne.mpr (by omega))
    refine ⟨tail :: cells, fun heq => ?_, fun fuel hfuel => ?_⟩
    · have hlen := congrArg List.length (List.cons.inj heq).1
      rw [length_append] at hlen
      exact absurd hlen (by simp only [utf8ByteOrderMark, length_cons]; omega)
    · have hrow := @csvRow_encode tail cells (cells.length + 1 == 1) _ rest []
        (fun h => hemp ⟨h.1, h.2.1⟩) hfuel
      rwa [csvFieldEncode, hq, if_neg Bool.false_ne_true] at hrow

theorem csvParse_of_byteOrderMark {data : List (List Text)} (h : StartsWithByteOrderMark data) :
    grayCsvParse (csvTableEncode data) ≠ some (.ok data) := by
  have hmark := (byteOrderMark_prefix_iff data).mpr h
  obtain ⟨_, cells, data, rfl, ⟨tail, rfl⟩, hspec⟩ := h
  have htail : tail.any isCsvSpecial = false := by
    rw [any_append, Bool.or_eq_false_iff] at hspec
    exact hspec.2
  have hne : utf8ByteOrderMark ++ tail ≠ [] := cons_ne_nil _ _
  have htext : (csvTableEncode (((utf8ByteOrderMark ++ tail) :: cells) :: data)).drop 3 =
      tail ++ (csvTailEncode cells (cells.length + 1 == 1) ++ byte '\n' :: csvTableEncode data) := by
    rw [tableEncode_cons, csvRowEncode, csvFieldEncode, needsQuote_eq_any hne, hspec,
      if_neg Bool.false_ne_true, append_assoc, append_assoc]
    rfl
  obtain ⟨row, hrow, hprs⟩ := csvRow_behind_mark cells (csvTableEncode data) htail
  have hlen := length_csvTailEncode_le cells (cells.length + 1 == 1)
  rw [grayCsvParse, csvDelimiterFromCodepoint_comma, csvParseDelimited, if_pos hmark, htext]
  rw [csvRows_lineFeed (by simp) (hprs _ (by
    simp only [length_append, length_cons]; omega))]
  intro hres
  obtain ⟨_, hpre⟩ := csvRows_prefix hres
  exact hrow (List.cons.inj hpre).1

/-! ### Round trips -/

end Grayscale
