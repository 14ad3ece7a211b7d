import Grayscale.Lexer.Lexer

/-!
# The source formatter

`gray_fmt_source` writes every line of a source text with other blanks in front of it. It lexes
the source once to find the brace depth and the open groups at the start of every line
(`build_depth_tables`), and looks into raw strings with a scanner of its own
(`line_is_in_raw_string`).

A source is a C string, so it holds no NUL byte. The tables have an entry for every line, so
`line_number <= maximum_line` always holds where they are read; allocations do not fail.
-/

namespace Grayscale

def formatIndentWidth : ℕ := 4

/-- The number of lines: one more than the line feeds. -/
def countLines (source : Text) : ℕ := 1 + source.count (byte '\n')

/-! ### The depth tables -/

/-- The entries of the tables for one line; an entry is absent until a token of the line sets
it. -/
structure LineEntry where
  table : Option ℕ
  groupStart : Option ℕ
  firstToken : Option TokenType
  lastToken : Option TokenType
  endDepth : ℕ
  endGroup : ℕ

/-- The variables of the token loop of `build_depth_tables`. -/
structure DepthState where
  depth : ℕ
  groupDepth : ℕ
  previousType : TokenType
  braceIsLiteral : List Bool
  lines : ℕ → LineEntry

/-- The start of the token loop. -/
def DepthState.start : DepthState := ⟨0, 0, .endOfFile, [], fun _ => ⟨none, none, none, none, 0, 0⟩⟩

/-- A closing brace: what it closes is a collection literal or a scope. -/
def DepthState.closeBrace (s : DepthState) : DepthState :=
  match s.braceIsLiteral with
  | true :: braces => { s with groupDepth := s.groupDepth - 1, braceIsLiteral := braces }
  | false :: braces => { s with depth := s.depth - 1, braceIsLiteral := braces }
  | [] => { s with depth := s.depth - 1 }

/-- An opening brace: after an assignment sign it opens a collection literal. -/
def DepthState.openBrace (s : DepthState) : DepthState :=
  if s.previousType = .assign then
    { s with braceIsLiteral := true :: s.braceIsLiteral, groupDepth := s.groupDepth + 1 }
  else { s with braceIsLiteral := false :: s.braceIsLiteral, depth := s.depth + 1 }

/-- One round of the token loop. -/
def DepthState.token (maximumLine : ℕ) (s : DepthState) (type : TokenType) (line : ℕ) :
    DepthState :=
  if type = .newline then s
  else if line < 1 ∨ line > maximumLine then { s with previousType := type }
  else
    let entry := s.lines line
    let closed := if type = .rightBrace then s.closeBrace else s
    let closed := if type = .rightParenthesis ∨ type = .rightBracket then
      { closed with groupDepth := closed.groupDepth - 1 } else closed
    let opened := if type = .leftBrace then closed.openBrace else closed
    let opened := if type = .leftParenthesis ∨ type = .leftBracket then
      { opened with groupDepth := opened.groupDepth + 1 } else opened
    { opened with
      previousType := type
      lines := Function.update s.lines line
        ⟨some (entry.table.getD closed.depth), some (entry.groupStart.getD s.groupDepth),
          some (entry.firstToken.getD type), some type, opened.depth, opened.groupDepth⟩ }

/-- The tokens that the loop reads: up to the end of file or the first illegal one. -/
def depthTokens (source : Text) (filename : Option Text) : List Token :=
  ((lexTokens (lexerCreate source filename)).map Prod.fst).takeWhile fun token =>
    token.type ≠ .endOfFile ∧ token.type ≠ .illegal

def depthLines (maximumLine : ℕ) (tokens : List (TokenType × ℕ)) : ℕ → LineEntry :=
  (tokens.foldl (fun s token => s.token maximumLine token.1 token.2) DepthState.start).lines

/-- The depths in effect after a line: those after the last token up to it. -/
def currentDepths (lines : ℕ → LineEntry) : ℕ → ℕ × ℕ
  | 0 => (0, 0)
  | i + 1 =>
    if (lines (i + 1)).table.isSome then ((lines (i + 1)).endDepth, (lines (i + 1)).endGroup)
    else currentDepths lines i

/-- The two tables that `build_depth_tables` returns. -/
structure DepthTables where
  depth : ℕ → ℕ
  isContinuation : ℕ → Bool

/-- `build_depth_tables`, from the entries of the lines. -/
def fillDepthTables (lines : ℕ → LineEntry) : DepthTables where
  depth i := (lines i).table.getD (currentDepths lines (i - 1)).1
  isContinuation i := (lines i).groupStart.getD (currentDepths lines (i - 1)).2 > 0 ||
      (lines i).firstToken == some .and || (lines i).firstToken == some .or ||
      (i > 1 && ((lines (i - 1)).lastToken == some .and || (lines (i - 1)).lastToken == some .or))

def buildDepthTables (source : Text) (filename : Option Text) (maximumLine : ℕ) : DepthTables :=
  fillDepthTables (depthLines maximumLine
    ((depthTokens source filename).map fun token => (token.type, token.line)))

/-! ### Lines -/

/-- The variables of the loop of `line_is_in_raw_string`. -/
structure RawScan where
  line : ℕ
  inRaw : Bool
  isInString : Bool
  deriving DecidableEq

/-- One round of the loop of `line_is_in_raw_string`. -/
def rawStep (targetLine : ℕ) (s : RawScan) (l : Text) : Option (Scan.Round RawScan Unit) :=
  let c := byteAt l 0
  if ¬ (c ≠ 0 ∧ s.line < targetLine) then none
  else if c = byte '\n' then some ⟨(), { s with line := s.line + 1 }, 0⟩
  else if s.inRaw then some ⟨(), { s with inRaw := c != byte '\x60' }, 0⟩
  else if s.isInString then
    if c = byte '\\' ∧ byteAt l 1 ≠ 0 then some ⟨(), s, 1⟩
    else some ⟨(), { s with isInString := c != byte '"' }, 0⟩
  else if c = byte '\x60' then some ⟨(), { s with inRaw := true }, 0⟩
  else if c = byte '"' then some ⟨(), { s with isInString := true }, 0⟩
  else some ⟨(), s, 0⟩

def lineIsInRawString (source : Text) (targetLine : ℕ) : Bool :=
  (Scan.run (rawStep targetLine) ⟨1, false, false⟩ source).state.inRaw

/-- Whether a star and a slash stand next to each other. -/
def hasCommentEnd : Text → Bool
  | a :: b :: l => (a == byte '*' && b == byte '/') || hasCommentEnd (b :: l)
  | _ => false

def blockCommentCloses (content : Text) (startOffset : ℕ) : Bool :=
  hasCommentEnd (content.drop startOffset)

/-- The blanks that the formatter strips. -/
def isBlank (c : UInt8) : Bool := c == byte ' ' || c == byte '\t'

/-- The lines of a source, without their line feeds; the last one may have none. -/
def sourceLines : Text → List Text
  | [] => []
  | c :: l =>
    if c = byte '\n' then [] :: sourceLines l
    else match sourceLines l with
      | [] => [[c]]
      | line :: lines => (c :: line) :: lines

def leading (line : Text) : Text := line.takeWhile isBlank

def content (line : Text) : Text := line.dropWhile isBlank

/-- The new blanks of a line; a negative number of them counts as zero. -/
def spaces (length : ℤ) : Text := List.replicate length.toNat (byte ' ')

/-- The variables of the line loop of `gray_fmt_source`. -/
structure FormatState where
  inBlockComment : Bool
  blockCommentDelta : ℤ
  continuationDelta : ℤ

/-- The number of blanks that the formatter computes for line `n`: inside a block comment and a
continuation the line moves by the delta of the line that started it. -/
def newLeadingLength (tables : DepthTables) (n : ℕ) (s : FormatState) (line : Text) : ℤ :=
  if s.inBlockComment then (leading line).length + s.blockCommentDelta
  else if tables.isContinuation n then (leading line).length + s.continuationDelta
  else tables.depth n * formatIndentWidth

/-- The loop variables after a line that is indented by `newLeadingLength`. -/
def FormatState.next (tables : DepthTables) (n : ℕ) (s : FormatState) (line : Text) : FormatState :=
  if s.inBlockComment then { s with inBlockComment := !blockCommentCloses (content line) 0 }
  else if tables.isContinuation n then s
  else
    let delta := newLeadingLength tables n s line - (leading line).length
    if byteAt (content line) 0 = byte '/' ∧ byteAt (content line) 1 = byte '*' then
      ⟨!blockCommentCloses (content line) 2, delta, delta⟩
    else { s with continuationDelta := delta }

/-- One line of `gray_fmt_source`: the blanks in front of it, and the loop variables after it. -/
def formatLine (source : Text) (tables : DepthTables) (n : ℕ) (s : FormatState) (line : Text) :
    Text × FormatState :=
  if content line = [] then ([], s)
  else if lineIsInRawString source n then (leading line, s)
  else (spaces (newLeadingLength tables n s line), s.next tables n line)

/-- The blanks that the formatter puts in front of the lines from line `n` on. -/
def formatLines (source : Text) (tables : DepthTables) : ℕ → FormatState → List Text → List Text
  | _, _, [] => []
  | n, s, line :: lines =>
    let (blanks, next) := formatLine source tables n s line
    blanks :: formatLines source tables (n + 1) next lines

/-- The blanks that the formatter puts in front of the lines of a source. -/
def emittedLeadings (source : Text) (filename : Option Text) : List Text :=
  formatLines source (buildDepthTables source filename (countLines source)) 1 ⟨false, 0, 0⟩
    (sourceLines source)

/-- The lines with the given blanks in front of them, and a line feed after each. -/
def emitLines (leadings lines : List Text) : Text :=
  (List.zipWith (fun blanks line => blanks ++ (content line ++ [byte '\n'])) leadings lines).flatten

/-- `gray_fmt_source`: the text it writes. -/
def grayFmtSource (source : Text) (filename : Option Text) : Text :=
  emitLines (emittedLeadings source filename) (sourceLines source)

end Grayscale
