import Grayscale.Util.Bytes

/-!
# Words of the POSIX shell

How the POSIX shell cuts its input into tokens: blanks and operators delimit words, a backslash
quotes the next byte, single quotes quote every byte up to the next single quote, and double quotes
quote all but `$`, the backquote and a backslash in front of certain bytes.
-/

namespace Grayscale.Shell

/-! ### The reader -/

/-- How the next byte is read. -/
inductive Quoting
  | unquoted
  | escaped
  | single
  | double
  | doubleEscaped
  | comment

/-- A byte of a word, and whether it is quoted. -/
structure WordByte where
  /-- The byte. -/
  value : UInt8
  /-- The byte has lost its special meaning. -/
  quoted : Bool
  deriving DecidableEq

/-- A token: a word, or a byte of an operator. -/
inductive Token
  | word (text : List WordByte)
  | operator (c : UInt8)
  deriving DecidableEq

/-- The word so far with one more byte. -/
def extend (word : Option (List WordByte)) (c : UInt8) (quoted : Bool) : Option (List WordByte) :=
  some (word.getD [] ++ [⟨c, quoted⟩])

/-- The token of the word so far. -/
def close (word : Option (List WordByte)) : List Token := (word.map Token.word).toList

def isBlank (c : UInt8) : Bool := c == byte ' ' || c == byte '\t'

/-- A byte that is, or begins, an operator. -/
def isOperator (c : UInt8) : Bool :=
  [byte '&', byte '|', byte ';', byte '<', byte '>', byte '(', byte ')', byte '\n'].contains c

/-- A byte that keeps its meaning in double quotes. -/
def isActiveInDouble (c : UInt8) : Bool := c == byte '$' || c == byte '\x60'

/-- A byte that a backslash quotes in double quotes. -/
def isEscapedInDouble (c : UInt8) : Bool := isActiveInDouble c || c == byte '"' || c == byte '\\'

/-- The tokens of an input, by how its first byte is read and the word that it may continue; `none`
for an unfinished quotation, and for a NUL, which no input holds. -/
def read : Quoting → Option (List WordByte) → Text → Option (List Token)
  | .unquoted, word, [] => some (close word)
  | .comment, _, [] => some []
  | .escaped, _, [] => none
  | .single, _, [] => none
  | .double, _, [] => none
  | .doubleEscaped, _, [] => none
  | quoting, word, c :: rest =>
    if c = 0 then none
    else match quoting with
      | .unquoted =>
        if c = byte '\'' then read .single (some (word.getD [])) rest
        else if c = byte '"' then read .double (some (word.getD [])) rest
        else if c = byte '\\' then read .escaped word rest
        else if isBlank c then (read .unquoted none rest).map (close word ++ ·)
        else if isOperator c then
          (read .unquoted none rest).map (close word ++ Token.operator c :: ·)
        else if c = byte '#' ∧ word.isNone = true then read .comment none rest
        else read .unquoted (extend word c false) rest
      | .escaped =>
        -- a backslash in front of a line end joins two lines
        if c = byte '\n' then read .unquoted word rest
        else read .unquoted (extend word c true) rest
      | .single =>
        if c = byte '\'' then read .unquoted word rest else read .single (extend word c true) rest
      | .double =>
        if c = byte '"' then read .unquoted word rest
        else if c = byte '\\' then read .doubleEscaped word rest
        else read .double (extend word c (!isActiveInDouble c)) rest
      | .doubleEscaped =>
        if c = byte '\n' then read .double word rest
        else if isEscapedInDouble c then read .double (extend word c true) rest
        else read .double (extend (extend word (byte '\\') true) c true) rest
      | .comment =>
        if c = byte '\n' then (read .unquoted none rest).map (Token.operator c :: ·)
        else read .comment none rest

def tokens (input : Text) : Option (List Token) := read .unquoted none input

/-- A byte that, unquoted, can start an expansion: of a parameter, a command or an arithmetic
expression, of a pattern, of a tilde, and of braces in the shells that have it. -/
def isExpansionByte (c : UInt8) : Bool :=
  [byte '$', byte '\x60', byte '*', byte '?', byte '[', byte '~', byte '\x7b'].contains c

/-- The shell may expand something in the word. -/
def IsExpanded (word : List WordByte) : Prop :=
  ∃ c ∈ word, c.quoted = false ∧ isExpansionByte c.value = true

/-- The text is one word, whose value after quote removal is `s`, and nothing in it is expanded. -/
def IsWordFor (text s : Text) : Prop :=
  ∃ word, tokens text = some [.word word] ∧ word.map WordByte.value = s ∧ ¬ IsExpanded word

/-! ### Runs of bytes -/

/-- A text whose bytes are all quoted, or all not. -/
def marked (quoted : Bool) (text : Text) : List WordByte := text.map fun c => ⟨c, quoted⟩

variable (quoted : Bool)

@[simp] theorem map_value_marked (text : Text) :
    (marked quoted text).map WordByte.value = text := by
  simp [marked, Function.comp_def]

@[simp] theorem marked_nil : marked quoted [] = [] := rfl

theorem marked_append (s t : Text) :
    marked quoted (s ++ t) = marked quoted s ++ marked quoted t := List.map_append

theorem not_isExpanded_marked_true (text : Text) : ¬ IsExpanded (marked true text) := by
  rintro ⟨c, hc, hquo, -⟩
  obtain ⟨d, -, rfl⟩ := List.mem_map.mp hc
  exact absurd hquo (by simp)

theorem not_isExpanded_marked_false {text : Text}
    (h : ∀ c ∈ text, isExpansionByte c = false) : ¬ IsExpanded (marked false text) := by
  rintro ⟨c, hc, -, hexpansion⟩
  obtain ⟨d, hd, rfl⟩ := List.mem_map.mp hc
  exact absurd hexpansion (by simp [h d hd])

/-- A byte that an unquoted word takes as it is, wherever it stands in it. -/
def isPlain (c : UInt8) : Bool :=
  c != 0 && c != byte '\'' && c != byte '"' && c != byte '\\' && !isBlank c && !isOperator c &&
    c != byte '#'

/-! ### Steps of the reader -/

section

variable {c : UInt8} (hnul : c ≠ 0) (word : Option (List WordByte)) (rest : Text)

include hnul

theorem read_unquoted : read .unquoted word (c :: rest) =
    if c = byte '\'' then read .single (some (word.getD [])) rest
    else if c = byte '"' then read .double (some (word.getD [])) rest
    else if c = byte '\\' then read .escaped word rest
    else if isBlank c then (read .unquoted none rest).map (close word ++ ·)
    else if isOperator c then
      (read .unquoted none rest).map (close word ++ Token.operator c :: ·)
    else if c = byte '#' ∧ word.isNone = true then read .comment none rest
    else read .unquoted (extend word c false) rest := if_neg hnul

theorem read_single_cons : read .single word (c :: rest) =
    if c = byte '\'' then read .unquoted word rest else read .single (extend word c true) rest :=
  if_neg hnul

theorem read_escaped_cons : read .escaped word (c :: rest) =
    if c = byte '\n' then read .unquoted word rest
    else read .unquoted (extend word c true) rest := if_neg hnul

end

variable {c : UInt8}

theorem read_of_isPlain (h : isPlain c = true) (word : Option (List WordByte))
    (rest : Text) : read .unquoted word (c :: rest) = read .unquoted (extend word c false) rest := by
  simp only [isPlain, Bool.and_eq_true, bne_iff_ne, ne_eq, Bool.not_eq_true'] at h
  obtain ⟨⟨⟨⟨⟨⟨hnul, hsing⟩, hdbl⟩, hesc⟩, hbla⟩, hop⟩, hcom⟩ := h
  rw [read_unquoted hnul, if_neg hsing, if_neg hdbl, if_neg hesc]
  simp only [hbla, hop, hcom, false_and, Bool.false_eq_true, if_false]

theorem read_plain {s : Text} (h : ∀ c ∈ s, isPlain c = true) (word : List WordByte) (rest : Text) :
    read .unquoted (some word) (s ++ rest) =
      read .unquoted (some (word ++ marked false s)) rest := by
  induction s generalizing word with
  | nil => simp
  | cons c s ih =>
    obtain ⟨hc, hs⟩ := List.forall_mem_cons.mp h
    rw [List.cons_append, read_of_isPlain hc]
    exact (ih hs _).trans (by simp [marked])

theorem read_plain_none (h : isPlain c = true) (rest : Text) :
    read .unquoted none (c :: rest) = read .unquoted (some []) (c :: rest) := by
  rw [read_of_isPlain h, read_of_isPlain h, extend, extend, Option.getD_none, Option.getD_some]

theorem read_single {s : Text} (h : ∀ c ∈ s, c ≠ 0 ∧ c ≠ byte '\'') (word : List WordByte)
    (rest : Text) :
    read .single (some word) (s ++ rest) = read .single (some (word ++ marked true s)) rest := by
  induction s generalizing word with
  | nil => simp
  | cons c s ih =>
    obtain ⟨⟨hnul, hq⟩, hs⟩ := List.forall_mem_cons.mp h
    rw [List.cons_append, read_single_cons hnul, if_neg hq]
    exact (ih hs _).trans (by simp [marked])

theorem read_open (word : Option (List WordByte)) (rest : Text) :
    read .unquoted word (byte '\'' :: rest) = read .single (some (word.getD [])) rest := by
  rw [read_unquoted (by decide), if_pos rfl]

theorem read_close (word : List WordByte) (rest : Text) :
    read .single (some word) (byte '\'' :: rest) = read .unquoted (some word) rest := by
  rw [read_single_cons (by decide), if_pos rfl]

theorem read_escaped (hnul : c ≠ 0) (hline : c ≠ byte '\n') (word : List WordByte)
    (rest : Text) : read .unquoted (some word) (byte '\\' :: c :: rest) =
      read .unquoted (some (word ++ marked true [c])) rest := by
  rw [read_unquoted (by decide), if_neg (by decide), if_neg (by decide), if_pos rfl,
    read_escaped_cons hnul, if_neg hline]
  rfl

example : tokens (bytes "a'b c'\\$ ;") =
    some [.word (marked false (bytes "a") ++ marked true (bytes "b c$")), .operator (byte ';')] := by
  decide

end Grayscale.Shell
