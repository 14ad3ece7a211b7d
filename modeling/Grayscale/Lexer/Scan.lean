import Grayscale.Library.Scan
import Grayscale.Lexer.Token

/-!
# The scanning functions of the lexer

Each function here reads the bytes from `current_character` on and reports how many
`read_character` calls the function of the source makes, together with what it returns and the
error it leaves in `error_code` and `error_message`. The number of calls can exceed the number of
bytes left by one, as in the source: a backslash or an opening quote at the end of the input is
followed by one more call.
-/

namespace Grayscale

/-- The error a scanning function leaves in the lexer. -/
structure LexError where
  code : String
  message : Text
  deriving DecidableEq

def lexError (code message : String) : LexError := ⟨code, bytes message⟩

/-! ### Whitespace and comments -/

/-- The whitespace of the language: space, tab, carriage return and line feed. -/
def isWhitespace (c : UInt8) : Bool :=
  c == byte ' ' || c == byte '\t' || c == byte '\r' || c == byte '\n'

/-- One piece of what lies in front of a token. -/
inductive GapItem
  /-- One whitespace byte. -/
  | whitespace (c : UInt8)
  /-- A line comment: what follows the two slashes. -/
  | lineComment (body : Text)
  /-- A block comment: what stands between its delimiters. -/
  | blockComment (body : Text)
  /-- A block comment that the input, or a NUL byte, ended. -/
  | unclosedComment (body : Text)
  deriving DecidableEq

def GapItem.text : GapItem → Text
  | .whitespace c => [c]
  | .lineComment body => byte '/' :: byte '/' :: body
  | .blockComment body => byte '/' :: byte '*' :: (body ++ [byte '*', byte '/'])
  | .unclosedComment body => byte '/' :: byte '*' :: body

/-- `skip_line_comment`: the bytes up to the end of the line. -/
def skipLineComment (l : Text) : Text := l.takeWhile fun c => c != byte '\n' && c != 0

/-- `skip_block_comment`: the bytes after the opening delimiter, and whether the comment was
closed. -/
def skipBlockComment : Text → Text × Bool
  | [] => ([], false)
  | c :: l =>
    if c = 0 then ([], false)
    else if c = byte '*' ∧ byteAt l 0 = byte '/' then ([], true)
    else (c :: (skipBlockComment l).1, (skipBlockComment l).2)

/-- One round of `skip_whitespace_and_comments`. -/
def gapStep (_ : Unit) (l : Text) : Option (Scan.Round Unit GapItem) :=
  if isWhitespace (byteAt l 0) then some ⟨.whitespace (byteAt l 0), (), 0⟩
  else if byteAt l 0 = byte '/' ∧ byteAt l 1 = byte '/' then
    let body := skipLineComment (l.drop 2)
    some ⟨.lineComment body, (), 1 + body.length⟩
  else if byteAt l 0 = byte '/' ∧ byteAt l 1 = byte '*' then
    match skipBlockComment (l.drop 2) with
    | (body, true) => some ⟨.blockComment body, (), 3 + body.length⟩
    | (body, false) => some ⟨.unclosedComment body, (), 1 + body.length⟩
  else none

/-- `skip_whitespace_and_comments`: the pieces skipped. -/
def skipWhitespaceAndComments (l : Text) : List GapItem := (Scan.run gapStep () l).outputs

def gapText (gap : List GapItem) : Text := gap.flatMap GapItem.text

def unclosedCommentError : LexError := lexError "E1003" "unclosed multi-line comment"

def gapError (gap : List GapItem) : Option LexError :=
  if gap.any fun item => item matches .unclosedComment _ then some unclosedCommentError else none

/-! ### Identifiers and numbers -/

def isIdentifierByte (c : UInt8) : Bool := isalpha c || c == byte '_' || isdigit c

def maxIdentifierLength : ℕ := 255

/-- `scan_identifier_span`: the identifier, and the error of one that is too long. -/
def scanIdentifierSpan (l : Text) : Text × Option LexError :=
  let span := l.takeWhile isIdentifierByte
  (span, if span.length > maxIdentifierLength then
      some (lexError "E1024" "identifier exceeds the maximum length of 255 characters")
    else none)

/-- What a scanning function of a token returns: the kind and the literal, the number of
`read_character` calls, and the error. -/
structure TokenScan where
  type : TokenType
  literal : Text
  length : ℕ
  error : Option LexError
  deriving DecidableEq

/-- A token without an error. -/
def TokenScan.token (type : TokenType) (literal : Text) (length : ℕ) : TokenScan :=
  ⟨type, literal, length, none⟩

/-- The `TOKEN_ILLEGAL` that an error becomes, whose literal is the error's message. -/
def TokenScan.illegal (error : LexError) (length : ℕ) : TokenScan :=
  ⟨.illegal, error.message, length, some error⟩

/-- A token that is illegal when its scanning function left an error. -/
def TokenScan.ofError (type : TokenType) (literal : Text) (length : ℕ) : Option LexError → TokenScan
  | none => .token type literal length
  | some error => .illegal error length

/-- The bytes of decimal digit runs. -/
def isDigitOrSeparator (c : UInt8) : Bool := isdigit c || c == byte '_'

def isPrefixedDigit (base : ℕ) (c : UInt8) : Bool := c == byte '_' ||
    (if base = 16 then isxdigit c else byte '0' ≤ c && c.toNat < 48 + base)

/-- `read_prefixed_digits`: a base marker and the digits after it. -/
def readPrefixedDigits (l : Text) (base : ℕ) (message : String) : TokenScan :=
  let digits := (l.drop 2).takeWhile (isPrefixedDigit base)
  .ofError .integerLiteral (l.take (2 + digits.length)) (2 + digits.length)
    (if digits = [] then some (lexError "E1010" message) else none)

/-- The length of the digit run at the start of `l`. -/
def digitRun (l : Text) : ℕ := (l.takeWhile isDigitOrSeparator).length

def takesDecimalPoint (next : UInt8) : Bool :=
  isdigit next || next == byte '_' || next == 0 || next == byte '\n' || next == byte ' ' ||
    next == byte ')' || next == byte '\x7d' || next == byte ',' || next == byte ';'

/-- Whether two separators stand next to each other. -/
def hasConsecutiveSeparators : Text → Bool
  | a :: b :: l => (a == byte '_' && b == byte '_') || hasConsecutiveSeparators (b :: l)
  | _ => false

/-- The checks around the first decimal point; the last one that fails gives the error. -/
def decimalPointError (digits : Text) : Option LexError :=
  let whole := digits.takeWhile (· != byte '.')
  let fraction := digits.drop (whole.length + 1)
  if whole.length = digits.length then none
  else if fraction = [] ∨ (isdigit (byteAt fraction 0) = false ∧ byteAt fraction 0 ≠ byte '_') then
    some (lexError "E1016" "number cannot end with decimal point")
  else if byteAt fraction 0 = byte '_' then
    some (lexError "E1015" "underscore cannot appear after decimal point")
  else if whole.getLast? = some (byte '_') then
    some (lexError "E1014" "underscore cannot appear before decimal point")
  else none

/-- The validation of a number literal's format; the last check that fails gives the error. Only
unprefixed numbers get here, so no base prefix is skipped. -/
def numberFormatError (digits : Text) : Option LexError := decimalPointError digits <|>
    (if hasConsecutiveSeparators digits then
      some (lexError "E1011" "number cannot have consecutive underscores")
    else if digits.getLast? = some (byte '_') then
      some (lexError "E1013" "number cannot end with underscore")
    else none)

/-- The integer digits of a number, and its decimal point and fraction if it has one: the bytes
taken, and whether the number is floating-point. -/
def readMantissa (l : Text) : ℕ × Bool :=
  let whole := digitRun l
  if byteAt l whole = byte '.' ∧ takesDecimalPoint (byteAt l (whole + 1)) then
    (whole + 1 + digitRun (l.drop (whole + 1)), true)
  else (whole, false)

/-- The exponent that starts `l`, or nothing: the bytes taken. An exponent is only taken when a
digit follows its sign. -/
def readExponent (l : Text) : ℕ :=
  if byteAt l 0 = byte 'e' ∨ byteAt l 0 = byte 'E' then
    if byteAt l 1 = byte '+' ∨ byteAt l 1 = byte '-' then
      if isdigit (byteAt l 2) then 2 + digitRun (l.drop 2) else 0
    else if isdigit (byteAt l 1) then 1 + digitRun (l.drop 1) else 0
  else 0

def readNumber (l : Text) : TokenScan :=
  if byteAt l 0 = byte '0' ∧ (byteAt l 1 = byte 'x' ∨ byteAt l 1 = byte 'X') then
    readPrefixedDigits l 16
      "invalid number format: '0x' must be followed by hex digits (0-9, a-f)"
  else if byteAt l 0 = byte '0' ∧ (byteAt l 1 = byte 'o' ∨ byteAt l 1 = byte 'O') then
    readPrefixedDigits l 8
      "invalid number format: '0o' must be followed by octal digits (0-7)"
  else if byteAt l 0 = byte '0' ∧ (byteAt l 1 = byte 'b' ∨ byteAt l 1 = byte 'B') then
    readPrefixedDigits l 2
      "invalid number format: '0b' must be followed by binary digits (0-1)"
  else
    let mantissa := readMantissa l
    let exponent := readExponent (l.drop mantissa.1)
    let length := mantissa.1 + exponent
    .ofError (if mantissa.2 ∨ exponent ≠ 0 then .floatingPointLiteral else .integerLiteral)
      (l.take length) length (numberFormatError (l.take length))

/-! ### String, raw string and character literals -/

/-- `check_literal_utf8`: every character of the text decodes. -/
def utf8Step (_ : Unit) (l : Text) : Option (Scan.Round Unit Unit) :=
  let (codepoint, length) := grayUtf8Decode l
  if codepoint = replacementCodepoint ∧ length = 1 then none else some ⟨(), (), length - 1⟩

/-- The error `check_literal_utf8` leaves for the bytes of a literal. -/
def checkLiteralUtf8 (text : Text) : Option LexError :=
  if (Scan.run utf8Step () text).rest = [] then none
  else some (lexError "E1018" "malformed UTF-8 in string literal")

/-- One piece of a string literal as `read_string` reads it. -/
inductive StringItem
  /-- A byte of the text, at brace depth zero. -/
  | text (c : UInt8)
  /-- A `\u` escape: its source bytes and the codepoint it names. -/
  | unicodeEscape (source : Text) (codepoint : ℕ)
  /-- The dollar sign and brace that raise the depth from zero. -/
  | openBody
  /-- A byte at brace depth one or more. -/
  | body (c : UInt8)
  /-- The brace that takes the depth back to zero. -/
  | closeBody
  deriving DecidableEq

def StringItem.source : StringItem → Text
  | .text c => [c]
  | .unicodeEscape source _ => source
  | .openBody => [byte '$', byte '\x7b']
  | .body c => [c]
  | .closeBody => [byte '\x7d']

def utf8Encode (codepoint : ℕ) : Text :=
  if codepoint < 0x80 then [codepoint.toUInt8]
  else if codepoint < 0x800 then
    [(0xC0 ||| codepoint >>> 6).toUInt8, (0x80 ||| codepoint &&& 0x3F).toUInt8]
  else if codepoint < 0x10000 then
    [(0xE0 ||| codepoint >>> 12).toUInt8, (0x80 ||| (codepoint >>> 6) &&& 0x3F).toUInt8,
      (0x80 ||| codepoint &&& 0x3F).toUInt8]
  else
    [(0xF0 ||| codepoint >>> 18).toUInt8, (0x80 ||| (codepoint >>> 12) &&& 0x3F).toUInt8,
      (0x80 ||| (codepoint >>> 6) &&& 0x3F).toUInt8, (0x80 ||| codepoint &&& 0x3F).toUInt8]

/-- A byte as a hexadecimal escape. -/
def hexEscape (c : UInt8) : Text :=
  [byte '\\', byte 'x', hexDigit (c.toNat / 16), hexDigit (c.toNat % 16)]

/-- What a string item becomes in the literal: `expand_unicode_escapes` rewrites a `\u` escape
as the hexadecimal escapes of its UTF-8 bytes. -/
def StringItem.literal : StringItem → Text
  | .unicodeEscape _ codepoint => (utf8Encode codepoint).flatMap hexEscape
  | item => item.source

/-- The loop variables of `read_string`: the brace depth, and the error found last. -/
structure StringState where
  braceDepth : ℕ
  error : Option LexError
  deriving DecidableEq

def StringState.escapeError (s : StringState) (message : String) : StringState :=
  { s with error := some (lexError "E1006" message) }

/-- A byte at the current depth. -/
def StringState.byteItem (s : StringState) (c : UInt8) : StringItem :=
  if s.braceDepth = 0 then .text c else .body c

/-- The bytes of an escape at the current depth, as one round of the loop. -/
def StringState.bytesRound (s next : StringState) (source : Text) :
    Scan.Round StringState (List StringItem) := ⟨source.map s.byteItem, next, source.length - 1⟩

/-- The characters that may follow a backslash in a string. -/
def isStringEscape (c : UInt8) : Bool :=
  [byte 'n', byte 't', byte 'r', byte '\\', byte '"', byte '\'', byte '0', byte 'a', byte 'b',
    byte 'f', byte 'v', byte '$'].contains c

def hexValue (digits : Text) : ℕ := digits.foldl (fun v c => v * 16 + hexDigitValue c) 0

/-- The `\u` escape that starts `l`, at brace depth zero. -/
def unicodeEscapeRound (s : StringState) (l : Text) : Scan.Round StringState (List StringItem) :=
  if byteAt l 2 ≠ byte '\x7b' then
    s.bytesRound (s.escapeError
      "malformed '\\u' escape in string; expected '\\u\x7b...\x7d'")
      (l.take 2)
  else
    let digits := (l.drop 3).takeWhile isxdigit
    if byteAt l (3 + digits.length) ≠ byte '\x7d' ∨ digits.length < 1 ∨ digits.length > 6 then
      s.bytesRound (s.escapeError
        "malformed '\\u\x7b\x7d' escape in string; expected 1 to 6 hex digits")
        (l.take (3 + digits.length))
    else
      let source := l.take (4 + digits.length)
      let codepoint := hexValue digits
      if codepoint > 0x10FFFF then
        s.bytesRound (s.escapeError
          "'\\u\x7b\x7d' codepoint is outside the valid range U+0000 to U+10FFFF") source
      else if 0xD800 ≤ codepoint ∧ codepoint ≤ 0xDFFF then
        s.bytesRound (s.escapeError
          "'\\u\x7b\x7d' codepoint is a UTF-16 surrogate, which has no UTF-8 encoding") source
      else ⟨[.unicodeEscape source codepoint], s, source.length - 1⟩

/-- The escape that starts `l`. At the end of the input the source makes one call too many; its
literal then ends in the terminating NUL. -/
def escapeRound (s : StringState) (l : Text) : Scan.Round StringState (List StringItem) :=
  let hexMessage := "invalid hex escape sequence; \\x must be followed by exactly two hex digits"
  if byteAt l 1 = byte 'u' ∧ s.braceDepth = 0 then unicodeEscapeRound s l
  else if byteAt l 1 = byte 'x' then
    if !isxdigit (byteAt l 2) then s.bytesRound (s.escapeError hexMessage) (l.take 2)
    else if !isxdigit (byteAt l 3) then s.bytesRound (s.escapeError hexMessage) (l.take 3)
    else s.bytesRound s (l.take 4)
  else if byteAt l 1 = 0 then
    ⟨[s.byteItem (byte '\\'), s.byteItem 0], s, min 1 (l.length - 1)⟩
  else if !isStringEscape (byteAt l 1) then
    s.bytesRound (s.escapeError "invalid escape sequence in string") (l.take 2)
  else s.bytesRound s (l.take 2)

/-- The bytes of a literal nested in an interpolation, after its opening quote: up to and
including the closing quote, or up to the end. A backslash in front of a byte other than NUL takes
that byte with it, so the loop is entered at an escaped byte or at any other one. -/
def nestedLiteral (quote : UInt8) : Bool → Text → Text
  | _, [] => []
  | true, c :: l => c :: nestedLiteral quote false l
  | false, c :: l =>
    if c = 0 then []
    else if c = quote then [c]
    else c :: nestedLiteral quote (c == byte '\\' && byteAt l 0 != 0) l

/-- One round of the loop of `read_string`; it ends at a NUL byte, and at brace depth zero at a
double quote and at a line feed. -/
def stringStep (s : StringState) (l : Text) : Option (Scan.Round StringState (List StringItem)) :=
  let c := byteAt l 0
  if c = 0 then none
  else if c = byte '\\' then some (escapeRound s l)
  else if c = byte '$' ∧ byteAt l 1 = byte '\x7b' then
    some ⟨if s.braceDepth = 0 then [.openBody] else [.body (byte '$'), .body (byte '\x7b')],
      { s with braceDepth := s.braceDepth + 1 }, 1⟩
  else if (c = byte '"' ∨ c = byte '\'') ∧ s.braceDepth > 0 then
    let nested := nestedLiteral c false (l.drop 1)
    some ⟨(c :: nested).map .body, s, nested.length⟩
  else if c = byte '\x7b' ∧ s.braceDepth > 0 then
    some ⟨[.body c], { s with braceDepth := s.braceDepth + 1 }, 0⟩
  else if c = byte '\x7d' ∧ s.braceDepth > 0 then
    some ⟨if s.braceDepth = 1 then [.closeBody] else [.body c],
      { s with braceDepth := s.braceDepth - 1 }, 0⟩
  else if c = byte '"' then none
  else if c = byte '\n' ∧ s.braceDepth = 0 then none
  else some ⟨[s.byteItem c], s, 0⟩

/-- The loop of `read_string` after the opening quote. -/
def scanString (l : Text) : Scan.Result UInt8 StringState (List StringItem) :=
  Scan.run stringStep ⟨0, none⟩ l

/-- The error of a string literal that a line feed cuts short. -/
def stringLineError : LexError :=
  lexError "E1023" "string literals cannot span multiple lines; use a raw string with backticks for multi-line text"

/-- The error of a string literal, from its loop and its source bytes. -/
def stringError (scan : Scan.Result UInt8 StringState (List StringItem)) : Option LexError :=
  (if byteAt scan.rest 0 = byte '\n' then some stringLineError else scan.state.error) <|>
    checkLiteralUtf8 (scan.outputs.flatten.flatMap StringItem.source)

/-- `read_string` and the branch of `lexer_next_token` that calls it, at the opening quote. -/
def readString (l : Text) : TokenScan :=
  let scan := scanString (l.drop 1)
  let items := scan.outputs.flatten
  let source := items.flatMap StringItem.source
  if byteAt scan.rest 0 = byte '"' then
    .ofError .string (items.flatMap StringItem.literal) (2 + source.length) (stringError scan)
  else
    .illegal ((stringError scan).getD
      (lexError "E1021" "string literal was never closed; add a closing double quote"))
      (1 + source.length)

/-- `read_raw_string` and the branch that calls it, at the opening backtick. -/
def readRawString (l : Text) : TokenScan :=
  let text := (l.drop 1).takeWhile fun c => c != byte '\x60' && c != 0
  if byteAt l (1 + text.length) = byte '\x60' then
    .ofError .rawString text (2 + text.length) (checkLiteralUtf8 text)
  else .illegal (lexError "E1017" "unclosed raw string literal") (1 + text.length)

/-- The characters that may follow a backslash in a character literal. -/
def isCharEscape (c : UInt8) : Bool :=
  [byte 'n', byte 't', byte 'r', byte '\\', byte '\'', byte '"', byte '0'].contains c

/-- The escape of a character literal, at its backslash: the bytes taken, and the error. -/
def readCharEscape (l : Text) : ℕ × Option LexError :=
  if byteAt l 1 = byte 'x' then
    let digits := ((l.drop 2).take 2).takeWhile isxdigit
    (2 + digits.length, if digits.length < 2 then some (lexError "E1006"
      "malformed '\\x' escape in character literal; expected exactly two hex digits")
      else none)
  else if byteAt l 1 = byte 'u' then
    if byteAt l 2 ≠ byte '\x7b' then
      (2, some (lexError "E1006"
        "malformed '\\u' escape in character literal; expected '\\u\x7b...\x7d'"))
    else
      let digits := (l.drop 3).takeWhile isxdigit
      if byteAt l (3 + digits.length) ≠ byte '\x7d' ∨ digits.length < 1 ∨ digits.length > 6 then
        (3 + digits.length, some (lexError "E1006"
          "malformed '\\u\x7b\x7d' escape in character literal; expected 1 to 6 hex digits"))
      else (4 + digits.length, none)
  else if byteAt l 1 ≠ 0 ∧ !isCharEscape (byteAt l 1) then
    (2, some (lexError "E1007" "invalid escape sequence in character literal"))
  else (2, none)

/-- The error of a character literal that holds no character, or more than one. -/
def charLengthError : LexError := lexError "E1018"
    "char literal must contain exactly one codepoint; use a string for multiple characters"

/-- The first character of a character literal: the bytes taken, and the error. -/
def readCharHead (l : Text) : ℕ × Option LexError :=
  if byteAt l 0 = byte '\'' then (0, some charLengthError)
  else if byteAt l 0 = byte '\\' then readCharEscape l
  else
    let (codepoint, length) := grayUtf8Decode l
    if codepoint = replacementCodepoint ∧ length = 1 ∧ byteAt l 0 ≥ 0x80 then
      (1, some (lexError "E1018" "malformed UTF-8 in character literal"))
    else (length, none)

/-- The bytes up to the quote, the NUL byte or the line feed that ends a character literal. -/
def charTail (l : Text) : Text := l.takeWhile fun c => c != byte '\'' && c != 0 && c != byte '\n'

/-- `read_char_literal` after the opening quote: the bytes taken up to the place of the closing
quote, and the error. -/
def scanCharacter (text : Text) : ℕ × Option LexError :=
  match readCharHead text with
  | (head, some error) => (head, some error)
  | (head, none) =>
    let tail := (charTail (text.drop head)).length
    (head + tail, if tail > 0 ∧ byteAt text (head + tail) = byte '\'' then some charLengthError
      else none)

/-- `read_char_literal` and the branch that calls it, at the opening quote. -/
def readCharLiteral (l : Text) : TokenScan :=
  let text := l.drop 1
  let (length, error) := scanCharacter text
  if byteAt text length = byte '\'' then
    .ofError .char (text.take length) (2 + length) error
  else .illegal (error.getD (lexError "E1005" "unclosed character literal")) (1 + length)

/-! ### Tokens -/

/-- `make_paired_token`: a one-byte operator that a second byte turns into another one. -/
def makePairedToken (l : Text) (second : UInt8) (pairedType : TokenType) (pairedText : String)
    (singleType : TokenType) (singleText : String) : TokenScan :=
  if byteAt l 1 = second then .token pairedType (bytes pairedText) 2
  else .token singleType (bytes singleText) 1

/-- The `#name` attribute keywords, in the order of the source. -/
def attributeKeywords : List (Text × TokenType) :=
  [(bytes "#strict", .strict), (bytes "#flags", .flags), (bytes "#doc", .doc),
   (bytes "#json", .jsonAttribute), (bytes "#discard", .discard),
   (bytes "#deprecated", .deprecated), (bytes "#error_code", .errorCodeAttribute),
   (bytes "#test", .test), (bytes "#define", .define)]

/-- The branch of a number sign: an attribute list, an attribute keyword, or an error. -/
def scanHash (l : Text) : TokenScan :=
  if (bytes "#[").isPrefixOf l then .token .hashLeftBracket (bytes "#[") 2
  else match attributeKeywords.find? fun entry => entry.1.isPrefixOf l with
    | some (spelling, type) => .token type spelling spelling.length
    | none => .illegal (lexError "E1019" "unexpected character '#'; use '//' for comments, '#strict', '#flags', '#json', '#doc', '#discard', '#deprecated', '#test', '#error_code' for attributes, or '#[...]' for a single-line attribute list") 1

/-- The branch of an exclamation mark: `!=`, `!in` in front of a byte that continues no
identifier, or `!`. -/
def scanBang (l : Text) : TokenScan :=
  if byteAt l 1 = byte '=' then .token .notEqual (bytes "!=") 2
  else if byteAt l 1 = byte 'i' ∧ byteAt l 2 = byte 'n' ∧
      !(isalnum (byteAt l 3) || byteAt l 3 == byte '_') then .token .notIn (bytes "!in") 3
  else .token .bang (bytes "!") 1

/-- The branch of an identifier or keyword. -/
def scanWord (l : Text) : TokenScan :=
  match scanIdentifierSpan l with
  | (span, some error) => .illegal error span.length
  | (span, none) =>
    match tokenLookupKeyword span with
    | some (type, keyword) => .token type keyword span.length
    | none => .token .identifier span span.length

/-- The branch of a byte that starts no token. -/
def scanUnexpected (l : Text) : TokenScan :=
  let (codepoint, length) := grayUtf8Decode l
  if codepoint = replacementCodepoint ∧ length = 1 then
    .illegal ⟨"E1022", bytes "unexpected character '\\x" ++ [hexDigit ((byteAt l 0).toNat / 16),
      hexDigit ((byteAt l 0).toNat % 16)] ++ bytes "'"⟩ 1
  else .illegal ⟨"E1022", bytes "unexpected character '" ++ l.take length ++ bytes "'"⟩ length

def singleTokens : List (UInt8 × TokenType × String) :=
  [(byte ',', .comma, ","), (byte ':', .colon, ":"), (byte ';', .semicolon, ";"),
   (byte '(', .leftParenthesis, "("), (byte ')', .rightParenthesis, ")"),
   (byte '\x7b', .leftBrace, "\x7b"), (byte '\x7d', .rightBrace, "\x7d"),
   (byte '[', .leftBracket, "["), (byte ']', .rightBracket, "]"), (byte '.', .dot, "."),
   (byte '@', .atSign, "@"), (byte '^', .caret, "^")]

def questionMarkError : LexError :=
  lexError "E1025" "this symbol is not part of the language; declare a type parameter with 'generic' (e.g. 'do identity(kind generic, x kind) -> kind')"

/-- The `switch` of `lexer_next_token`, at the first byte after the gap. -/
def scanToken (l : Text) : TokenScan :=
  if l = [] then .token .endOfFile [] 0
  else
    let c := byteAt l 0
    if c = 0 then .illegal (lexError "E1026" "NUL byte in source file") 1
    else if c = byte '=' then makePairedToken l (byte '=') .equal "==" .assign "="
    else if c = byte '+' then
      if byteAt l 1 = byte '=' then .token .plusAssign (bytes "+=") 2
      else makePairedToken l (byte '+') .increment "++" .plus "+"
    else if c = byte '-' then
      if byteAt l 1 = byte '>' then .token .arrow (bytes "->") 2
      else if byteAt l 1 = byte '=' then .token .minusAssign (bytes "-=") 2
      else makePairedToken l (byte '-') .decrement "--" .minus "-"
    else if c = byte '!' then scanBang l
    else if c = byte '*' then makePairedToken l (byte '=') .asteriskAssign "*=" .asterisk "*"
    else if c = byte '/' then makePairedToken l (byte '=') .slashAssign "/=" .slash "/"
    else if c = byte '%' then makePairedToken l (byte '=') .percentAssign "%=" .percent "%"
    else if c = byte '<' then makePairedToken l (byte '=') .lessThanOrEqual "<=" .lessThan "<"
    else if c = byte '>' then
      makePairedToken l (byte '=') .greaterThanOrEqual ">=" .greaterThan ">"
    else if c = byte '&' then makePairedToken l (byte '&') .and "&&" .ampersand "&"
    else if c = byte '?' then .illegal questionMarkError 1
    else if c = byte '|' then
      if byteAt l 1 = byte '|' then .token .or (bytes "||") 2
      else .illegal (lexError "E1020" "unexpected character '|'; use '||' for logical OR") 1
    else if c = byte '#' then scanHash l
    else if c = byte '"' then readString l
    else if c = byte '\x60' then readRawString l
    else if c = byte '\'' then readCharLiteral l
    else match singleTokens.lookup c with
      | some (type, text) => .token type (bytes text) 1
      | none =>
        if isalpha c || c == byte '_' then scanWord l
        else if isdigit c then readNumber l
        else scanUnexpected l

end Grayscale
