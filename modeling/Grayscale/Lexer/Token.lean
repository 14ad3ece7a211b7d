import Grayscale.Util.Bytes

/-!
# Tokens

The token kinds of `lexer/token.h`, the keyword table of `lexer/token.c` and the two spellings
diagnostics use for a token.
-/

namespace Grayscale

/-- The kinds of tokens, in the order of the source. -/
inductive TokenType
  | illegal | endOfFile | identifier | integerLiteral | floatingPointLiteral | string
  | rawString | char | assign | plus | minus | bang | asterisk | slash | percent | lessThan
  | greaterThan | equal | notEqual | lessThanOrEqual | greaterThanOrEqual | plusAssign
  | minusAssign | asteriskAssign | slashAssign | percentAssign | increment | decrement | and
  | or | comma | colon | semicolon | newline | leftParenthesis | rightParenthesis | leftBrace
  | rightBrace | leftBracket | rightBracket | caret | arrow | dot | atSign | ampersand
  | hashLeftBracket | strict | flags | doc | jsonAttribute | discard | deprecated | test
  | errorCodeAttribute | define | mut | const | doKeyword | returnKeyword | ifKeyword
  | orKeyword | otherwise | forKeyword | forEach | asLongAs | loop | breakKeyword
  | continueKeyword | inKeyword | notIn | range | importKeyword | using | struct | enum | nil
  | new | true | false | blank | ensure | orReturn | orDefault | orPanic | externKeyword
  | generic | privateKeyword | unsafeKeyword | use | when | is | default | alias | distinct
  | cast | bitAnd | bitOr | bitXor | bitNot | bitShiftLeft | bitShiftRight
  deriving DecidableEq

/-- A token: its kind, its literal text, where it starts, the file it came from (`none` for the
main file), and whether whitespace or comments were skipped before it. -/
structure Token where
  type : TokenType
  literal : Text
  line : ℕ
  column : ℕ
  file : Option Text
  isPrecededByWhitespace : Bool
  deriving DecidableEq

/-- The keyword table, sorted by spelling. -/
def keywords : List (Text × TokenType) :=
  [(bytes "_", .blank), (bytes "alias", .alias), (bytes "as_long_as", .asLongAs),
   (bytes "bit_and", .bitAnd), (bytes "bit_not", .bitNot), (bytes "bit_or", .bitOr),
   (bytes "bit_shift_left", .bitShiftLeft), (bytes "bit_shift_right", .bitShiftRight),
   (bytes "bit_xor", .bitXor), (bytes "break", .breakKeyword), (bytes "case", .is),
   (bytes "cast", .cast), (bytes "const", .const), (bytes "continue", .continueKeyword),
   (bytes "default", .default), (bytes "defer", .ensure), (bytes "distinct", .distinct),
   (bytes "do", .doKeyword), (bytes "elif", .orKeyword), (bytes "else", .otherwise),
   (bytes "ensure", .ensure), (bytes "enum", .enum), (bytes "extern", .externKeyword),
   (bytes "false", .false), (bytes "fn", .doKeyword), (bytes "for", .forKeyword),
   (bytes "for_each", .forEach), (bytes "generic", .generic), (bytes "if", .ifKeyword),
   (bytes "import", .importKeyword), (bytes "in", .inKeyword), (bytes "is", .is), (bytes "loop", .loop),
   (bytes "mut", .mut), (bytes "new", .new), (bytes "nil", .nil), (bytes "not_in", .notIn),
   (bytes "or", .orKeyword), (bytes "or_default", .orDefault), (bytes "or_panic", .orPanic),
   (bytes "or_return", .orReturn), (bytes "otherwise", .otherwise),
   (bytes "private", .privateKeyword), (bytes "range", .range), (bytes "return", .returnKeyword),
   (bytes "struct", .struct), (bytes "switch", .when), (bytes "true", .true),
   (bytes "unsafe", .unsafeKeyword), (bytes "use", .use), (bytes "using", .using),
   (bytes "when", .when), (bytes "while", .asLongAs)]

/-- The keyword a source span spells, with its canonical text, or `none` for a plain
identifier. -/
def tokenLookupKeyword (identifier : Text) : Option (TokenType × Text) :=
  (keywords.find? fun entry => entry.1 == identifier).map fun entry => (entry.2, entry.1)

/-- Whether the keyword table produces this kind of token. -/
def tokenTypeIsKeyword (type : TokenType) : Bool := keywords.any fun entry => entry.2 == type

end Grayscale
