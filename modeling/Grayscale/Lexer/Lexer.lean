import Grayscale.Lexer.Scan
import Mathlib.Logic.Function.Iterate

/-!
# The lexer

The lexer keeps a position in its input, the current line and column, and the error of the last
call. `read_position` is always one more than `position`, and `current_character` is the byte at
`position`, or NUL at the end; so the state keeps the bytes from `position` on, and both are read
off it.
-/

namespace Grayscale

def intMax : ℕ := 2147483647

/-- The state of the lexer: what is left of the input from `position` on, the position, line and
column of the current character, the file, and the error of the last call. -/
structure Lexer where
  rest : Text
  position : ℕ
  line : ℕ
  column : ℕ
  file : Option Text
  error : Option LexError
  deriving DecidableEq

/-- The line and column once `c` becomes the current character. -/
def Lexer.enter (lexer : Lexer) (c : UInt8) : Lexer :=
  if c = byte '\n' then
    { lexer with
      line := if lexer.line < intMax then lexer.line + 1 else lexer.line, column := 0 }
  else { lexer with column := if lexer.column < intMax then lexer.column + 1 else lexer.column }

/-- `read_character`: move to the next byte. -/
def readCharacter (lexer : Lexer) : Lexer :=
  Lexer.enter { lexer with rest := lexer.rest.drop 1, position := lexer.position + 1 }
    (byteAt lexer.rest 1)

/-- A number of `read_character` calls. -/
def Lexer.advance (n : ℕ) (lexer : Lexer) : Lexer := readCharacter^[n] lexer

def byteOrderMark : Text := [0xEF, 0xBB, 0xBF]

/-- The source text of an input: without a leading byte order mark, and cut at the largest
length an `int` holds. -/
def sourceText (input : Text) : Text :=
  (if byteOrderMark.isPrefixOf input then input.drop 3 else input).take intMax

def lexerCreateSized (input : Text) (file : Option Text) : Lexer :=
  Lexer.enter ⟨sourceText input, 0, 1, 0, file, none⟩ (byteAt (sourceText input) 0)

/-- `lexer_create`, on a string that ends at its first NUL byte. -/
def lexerCreate (input : Text) (file : Option Text) : Lexer :=
  lexerCreateSized (input.takeWhile (· != 0)) file

def lexerNextToken (lexer : Lexer) : Token × Lexer :=
  let gap := skipWhitespaceAndComments lexer.rest
  let start := lexer.advance (gapText gap).length
  match gapError gap with
  | some error =>
    (⟨.illegal, error.message, start.line, start.column, lexer.file, !gap.isEmpty⟩,
      { start with error := some error })
  | none =>
    let scan := scanToken start.rest
    (⟨scan.type, scan.literal, start.line, start.column, lexer.file, !gap.isEmpty⟩,
      { start.advance scan.length with error := scan.error })

/-- The lexer after a number of calls of `lexer_next_token`. -/
def lexerRun (lexer : Lexer) (calls : ℕ) : Lexer :=
  (fun lexer => (lexerNextToken lexer).2)^[calls] lexer

/-- The token that the call after `calls` calls returns. -/
def lexerToken (lexer : Lexer) (calls : ℕ) : Token := (lexerNextToken (lexerRun lexer calls)).1

/-- The tokens of a lexer, each with the error its call left, up to and including the end of
file; at most `fuel` of them. -/
def lexFrom : ℕ → Lexer → List (Token × Option LexError)
  | 0, _ => []
  | fuel + 1, lexer =>
    let (token, next) := lexerNextToken lexer
    if token.type = .endOfFile then [(token, next.error)]
    else (token, next.error) :: lexFrom fuel next

/-- The tokens of a source text; `lexFrom_complete` shows that the fuel is enough. -/
def lexTokens (lexer : Lexer) : List (Token × Option LexError) :=
  lexFrom (lexer.rest.length + 1) lexer

/-! ### What calls do to the state -/

variable (lexer : Lexer) (c : UInt8)

@[simp] theorem Lexer.enter_rest : (lexer.enter c).rest = lexer.rest := by
  unfold Lexer.enter
  split_ifs <;> rfl

@[simp] theorem Lexer.enter_position : (lexer.enter c).position = lexer.position := by
  unfold Lexer.enter
  split_ifs <;> rfl

@[simp] theorem Lexer.enter_file : (lexer.enter c).file = lexer.file := by
  unfold Lexer.enter
  split_ifs <;> rfl

theorem Lexer.advance_zero : lexer.advance 0 = lexer := rfl

theorem Lexer.advance_succ (n : ℕ) (lexer : Lexer) :
    lexer.advance (n + 1) = (readCharacter lexer).advance n := Function.iterate_succ_apply _ _ _

@[simp] theorem Lexer.advance_rest (n : ℕ) (lexer : Lexer) :
    (lexer.advance n).rest = lexer.rest.drop n := by
  induction n generalizing lexer with
  | zero => rfl
  | succ n ih =>
    rw [advance_succ, ih, readCharacter, enter_rest, List.drop_drop]
    rw [Nat.add_comm]

@[simp] theorem Lexer.advance_position (n : ℕ) (lexer : Lexer) :
    (lexer.advance n).position = lexer.position + n := by
  induction n generalizing lexer with
  | zero => rfl
  | succ n ih =>
    rw [advance_succ, ih, readCharacter, enter_position]
    exact Nat.add_right_comm _ _ _

example : ((lexTokens (lexerCreate (bytes "x = 0x1F // end\n") none)).map fun t =>
    (t.1.type, t.1.literal, t.1.line, t.1.column)) =
      [(.identifier, bytes "x", 1, 1), (.assign, bytes "=", 1, 3),
       (.integerLiteral, bytes "0x1F", 1, 5), (.endOfFile, [], 2, 1)] := by decide

end Grayscale
