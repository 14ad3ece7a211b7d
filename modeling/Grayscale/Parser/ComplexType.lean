import Grayscale.Lexer.Token
import Grayscale.Typechecker.TypeText

/-!
# The parser of types

`parse_complex_type` reads the tokens of a type and builds its spelling. It stops on the last token
of the type.
-/

namespace Grayscale

open Option (bind_eq_some_iff map_eq_some_iff some.inj)

/-! ### The parser -/

def currentType (tokens : List Token) : TokenType := (tokens.head?.map Token.type).getD .endOfFile

def currentLiteral (tokens : List Token) : Text := (tokens.head?.map Token.literal).getD []

def peekType (tokens : List Token) : TokenType := currentType tokens.tail

def currentIs (tokens : List Token) (name : Text) : Bool :=
  currentType tokens = .identifier && currentLiteral tokens == name

def expectPeekToken (tokens : List Token) (type : TokenType) : Option (List Token) :=
  if peekType tokens = type then some tokens.tail else none

/-- `read_type_name`. A `generic` is reported, and read as a name. -/
def readTypeName (tokens : List Token) : Text × List Token :=
  if currentType tokens = .generic then (bytes "generic", tokens)
  else if peekType tokens = .dot then
    (currentLiteral tokens ++ byte '.' :: currentLiteral tokens.tail.tail, tokens.tail.tail)
  else (currentLiteral tokens, tokens)

def rejectTypedFuncElement (tokens : List Token) : Bool :=
  currentIs tokens (bytes "func") && peekType tokens = .leftParenthesis

/-- The test of `parse_complex_type` for a map or a function type. -/
def nestsThroughWrapper (tokens : List Token) : Bool :=
  (currentIs tokens (bytes "map") && peekType tokens = .leftBracket) || currentIs tokens (bytes "func")

/-- The nesting one level deeper, up to 64. -/
def deeper (nesting : ℕ) : Option ℕ := if nesting + 1 > 64 then none else some (nesting + 1)

/-- What is appended to a list of types, if the buffer holds it. -/
def appendTypeText (list separator text : Text) (size : ℕ) : Option Text :=
  if (separator ++ text).length ≥ size - list.length then none else some (list ++ (separator ++ text))

mutual

def parseComplexType : ℕ → ℕ → List Token → Option (Text × List Token)
  | 0, _, _ => none
  | fuel + 1, nesting, tokens =>
    if nestsThroughWrapper tokens then
      (deeper nesting).bind fun nesting => parseComplexTypeUnbounded fuel nesting tokens
    else parseComplexTypeUnbounded fuel nesting tokens
termination_by structural fuel => fuel

def parseComplexTypeUnbounded : ℕ → ℕ → List Token → Option (Text × List Token)
  | 0, _, _ => none
  | fuel + 1, nesting, tokens =>
    if currentType tokens = .generic then some (bytes "generic", tokens)
    else if currentType tokens = .leftBracket then
      (deeper nesting).bind fun nesting => parseBracketedType fuel nesting tokens.tail
    else if currentType tokens = .caret then
      (deeper nesting).bind fun nesting =>
        (parseComplexType fuel nesting tokens.tail).map fun p => (byte '^' :: p.1, p.2)
    else if currentIs tokens (bytes "map") && peekType tokens = .leftBracket then
      let key := readTypeName tokens.tail.tail
      (expectPeekToken key.2 .colon).bind fun tokens =>
        parseMapValue fuel nesting key.1 tokens
    else if currentIs tokens (bytes "func") then
      if peekType tokens = .leftParenthesis then
        (if peekType tokens.tail = .rightParenthesis then some ([], tokens.tail)
          else parseParameterTypes fuel nesting [] tokens.tail.tail).bind fun p =>
            (expectPeekToken p.2 .rightParenthesis).bind fun tokens =>
              parseReturnType fuel nesting p.1 tokens
      else some (bytes "func", tokens)
    else some (readTypeName tokens)
termination_by structural fuel => fuel

def parseBracketedType : ℕ → ℕ → List Token → Option (Text × List Token)
  | 0, _, _ => none
  | fuel + 1, nesting, tokens =>
    if rejectTypedFuncElement tokens then none
    else (parseComplexType fuel nesting tokens).bind fun p =>
      if peekType p.2 = .colon then parseMapValue fuel nesting p.1 p.2.tail
      else if peekType p.2 = .comma then
        (expectPeekToken p.2.tail.tail .rightBracket).map fun rest =>
          (byte '[' :: (p.1 ++ byte ',' :: (currentLiteral p.2.tail.tail ++ [byte ']'])), rest)
      else (expectPeekToken p.2 .rightBracket).map fun rest =>
        (byte '[' :: (p.1 ++ [byte ']']), rest)
termination_by structural fuel => fuel

/-- The value of a map type, on the colon after its key. -/
def parseMapValue : ℕ → ℕ → Text → List Token → Option (Text × List Token)
  | 0, _, _, _ => none
  | fuel + 1, nesting, key, tokens =>
    if rejectTypedFuncElement tokens.tail then none
    else (parseComplexType fuel nesting tokens.tail).bind fun p =>
      (expectPeekToken p.2 .rightBracket).map fun rest =>
        (bytes "map[" ++ (key ++ byte ':' :: (p.1 ++ [byte ']'])), rest)
termination_by structural fuel => fuel

/-- The loop over the parameters of a function type, with the list before them. -/
def parseParameterTypes : ℕ → ℕ → Text → List Token → Option (Text × List Token)
  | 0, _, _, _ => none
  | fuel + 1, nesting, list, tokens =>
    let isMutable := currentType tokens = .ampersand
    (parseComplexType fuel nesting (if isMutable then tokens.tail else tokens)).bind fun p =>
      (appendTypeText list (if list.isEmpty then [] else [byte ','])
        ((if isMutable then [byte '&'] else []) ++ p.1) 512).bind fun list =>
          if peekType p.2 = .comma then parseParameterTypes fuel nesting list p.2.tail.tail
          else some (list, p.2)
termination_by structural fuel => fuel

/-- The results of a function type, on the parenthesis that closes its parameters. -/
def parseReturnType : ℕ → ℕ → Text → List Token → Option (Text × List Token)
  | 0, _, _, _ => none
  | fuel + 1, nesting, parameterList, tokens =>
    let spelled := fun (returnText : Text) =>
      bytes "func(" ++ (parameterList ++ byte ')' :: returnText)
    if peekType tokens = .arrow then
      if currentType tokens.tail.tail = .leftParenthesis then
        (parseReturnTypes fuel nesting [byte '('] tokens.tail.tail.tail).bind fun p =>
          (expectPeekToken p.2 .rightParenthesis).bind fun rest =>
            if p.1.length + 2 ≥ 256 then none
            else some (spelled (bytes "->" ++ (p.1 ++ [byte ')'])), rest)
      else
        (parseComplexType fuel nesting tokens.tail.tail).bind fun p =>
          if p.1 = bytes "void" then none
          else some (spelled (bytes "->" ++ p.1.take 255), p.2)
    else some (spelled [], tokens)
termination_by structural fuel => fuel

/-- The loop over the results of a function type, with the list before them. -/
def parseReturnTypes : ℕ → ℕ → Text → List Token → Option (Text × List Token)
  | 0, _, _, _ => none
  | fuel + 1, nesting, list, tokens =>
    (parseComplexType fuel nesting tokens).bind fun p =>
      if p.1 = bytes "void" then none
      else (appendTypeText list (if 1 < list.length then [byte ','] else []) p.1 256).bind fun list =>
        if peekType p.2 = .comma then parseReturnTypes fuel nesting list p.2.tail.tail
        else some (list, p.2)
termination_by structural fuel => fuel

end
/-! ### The types that are read -/

/-- The current token is a name that is read, with or without a qualifier. -/
inductive ReadsName : List Token → TypeName → List Token → Prop
  | simple {tokens : List Token} {n : TypeName} (current : currentType tokens = .identifier)
    (text : currentLiteral tokens = n.text) (peek : peekType tokens ≠ .dot) : ReadsName tokens n tokens
  | qualified {tokens : List Token} {n : TypeName} (current : currentType tokens = .identifier)
    (peek : peekType tokens = .dot) (member : currentType tokens.tail.tail = .identifier)
    (text : currentLiteral tokens ++ byte '.' :: currentLiteral tokens.tail.tail = n.text) :
    ReadsName tokens n tokens.tail.tail

mutual

/-- `ReadsType tokens type last`: the type is written from the current token on, up to the first
token of `last`. Names are identifiers, sizes are identifiers or integers, and the spelling of a
single result fits into a message buffer. -/
inductive ReadsType : List Token → WrittenType → List Token → Prop
  | name {tokens last : List Token} {n : TypeName} (reads : ReadsName tokens n last)
    (isPlain : nestsThroughWrapper tokens = false) : ReadsType tokens (.name n) last
  | func {tokens : List Token} {n : TypeName} (current : currentIs tokens (bytes "func") = true)
    (text : n.text = bytes "func") (peek : peekType tokens ≠ .leftParenthesis) :
    ReadsType tokens (.name n) tokens
  | pointer {tokens last : List Token} {pointee : WrittenType} (current : currentType tokens = .caret)
    (reads : ReadsType tokens.tail pointee last) : ReadsType tokens (.pointer pointee) last
  | array {tokens last : List Token} {element : WrittenType}
    (current : currentType tokens = .leftBracket) (reads : ReadsType tokens.tail element last)
    (close : peekType last = .rightBracket) : ReadsType tokens (.array element) last.tail
  | fixedArray {tokens last : List Token} {element : WrittenType} {size : TypeName}
    (current : currentType tokens = .leftBracket) (reads : ReadsType tokens.tail element last)
    (comma : peekType last = .comma)
    (isSize : currentType last.tail.tail = .integerLiteral ∨ currentType last.tail.tail = .identifier)
    (text : currentLiteral last.tail.tail = size.text)
    (close : peekType last.tail.tail = .rightBracket) :
    ReadsType tokens (.fixedArray element size) last.tail.tail.tail
  | shorthandMap {tokens last last' : List Token} {key value : WrittenType}
    (current : currentType tokens = .leftBracket) (readsKey : ReadsType tokens.tail key last)
    (colon : peekType last = .colon) (readsValue : ReadsType last.tail.tail value last')
    (close : peekType last' = .rightBracket) : ReadsType tokens (.map key value) last'.tail
  | map {tokens last last' : List Token} {key : TypeName} {value : WrittenType}
    (current : currentIs tokens (bytes "map") = true) (bracket : peekType tokens = .leftBracket)
    (readsKey : ReadsName tokens.tail.tail key last) (colon : peekType last = .colon)
    (readsValue : ReadsType last.tail.tail value last') (close : peekType last' = .rightBracket) :
    ReadsType tokens (.map (.name key) value) last'.tail
  | procedure {tokens last : List Token} {parameters : List (TypeParameter WrittenType)}
    (current : currentIs tokens (bytes "func") = true) (peek : peekType tokens = .leftParenthesis)
    (reads : ReadsParameterList tokens.tail parameters last) (close : peekType last = .rightParenthesis)
    (noArrow : peekType last.tail ≠ .arrow) : ReadsType tokens (.procedure parameters) last.tail
  | function {tokens last last' : List Token} {parameters : List (TypeParameter WrittenType)}
    {result : WrittenType} (current : currentIs tokens (bytes "func") = true)
    (peek : peekType tokens = .leftParenthesis) (reads : ReadsParameterList tokens.tail parameters last)
    (close : peekType last = .rightParenthesis) (arrow : peekType last.tail = .arrow)
    (readsResult : ReadsType last.tail.tail.tail result last')
    (single : currentType last.tail.tail.tail ≠ .leftParenthesis) (fits : (spell result).length < 256)
    (notVoid : spell result ≠ bytes "void") : ReadsType tokens (.function parameters result) last'
  | functionList {tokens last last' : List Token} {parameters : List (TypeParameter WrittenType)}
    {results : List WrittenType} (current : currentIs tokens (bytes "func") = true)
    (peek : peekType tokens = .leftParenthesis) (reads : ReadsParameterList tokens.tail parameters last)
    (close : peekType last = .rightParenthesis) (arrow : peekType last.tail = .arrow)
    (isList : currentType last.tail.tail.tail = .leftParenthesis)
    (readsResults : ReadsResults last.tail.tail.tail.tail results last')
    (closeResults : peekType last' = .rightParenthesis) :
    ReadsType tokens (.functionList parameters results) last'.tail

/-- The parameters of a function type, from the parenthesis before them on. -/
inductive ReadsParameterList : List Token → List (TypeParameter WrittenType) → List Token → Prop
  | empty {tokens : List Token} (close : peekType tokens = .rightParenthesis) :
    ReadsParameterList tokens [] tokens
  | some {tokens last : List Token} {parameters : List (TypeParameter WrittenType)}
    (noClose : peekType tokens ≠ .rightParenthesis) (reads : ReadsParameters tokens.tail parameters last) :
    ReadsParameterList tokens parameters last

/-- Parameters of a function type, of which there is one at least. -/
inductive ReadsParameters : List Token → List (TypeParameter WrittenType) → List Token → Prop
  | single {tokens last : List Token} {type : WrittenType}
    (reads : ReadsType (if currentType tokens = .ampersand then tokens.tail else tokens) type last)
    (noComma : peekType last ≠ .comma) :
    ReadsParameters tokens [⟨currentType tokens = .ampersand, type⟩] last
  | cons {tokens last last' : List Token} {type : WrittenType}
    {parameters : List (TypeParameter WrittenType)}
    (reads : ReadsType (if currentType tokens = .ampersand then tokens.tail else tokens) type last)
    (comma : peekType last = .comma) (rest : ReadsParameters last.tail.tail parameters last') :
    ReadsParameters tokens (⟨currentType tokens = .ampersand, type⟩ :: parameters) last'

/-- Results of a function type, of which there is one at least. -/
inductive ReadsResults : List Token → List WrittenType → List Token → Prop
  | single {tokens last : List Token} {type : WrittenType} (reads : ReadsType tokens type last)
    (noComma : peekType last ≠ .comma) : ReadsResults tokens [type] last
  | cons {tokens last last' : List Token} {type : WrittenType} {results : List WrittenType}
    (reads : ReadsType tokens type last) (comma : peekType last = .comma)
    (rest : ReadsResults last.tail.tail results last') : ReadsResults tokens (type :: results) last'

end

section Reads

variable {tokens last : List Token} {fuel nesting : ℕ} {r : Text × List Token}

theorem currentType_of_currentIs {name : Text} (h : currentIs tokens name = true) :
    currentType tokens = .identifier ∧ currentLiteral tokens = name := by
  obtain ⟨htype, hlit⟩ := Bool.and_eq_true_iff.mp h
  exact ⟨of_decide_eq_true htype, beq_iff_eq.mp hlit⟩

theorem eq_of_expectPeekToken {type : TokenType} {rest : List Token}
    (h : expectPeekToken tokens type = some rest) : rest = tokens.tail := by
  unfold expectPeekToken at h
  split_ifs at h
  exact (some.inj h).symm

theorem ReadsName.readTypeName_eq {n : TypeName} (h : ReadsName tokens n last) :
    readTypeName tokens = (n.text, last) := by
  cases h with
  | simple current text peek => simp [readTypeName, current, peek, text]
  | qualified current peek member text =>
    rw [readTypeName, current, if_neg (by decide), if_pos peek, text]

theorem parseType_succ (fuel nesting : ℕ) (tokens : List Token) :
    parseComplexType (fuel + 1) nesting tokens =
      if nestsThroughWrapper tokens then
        (deeper nesting).bind fun nesting => parseComplexTypeUnbounded fuel nesting tokens
      else parseComplexTypeUnbounded fuel nesting tokens := rfl

theorem parseUnbounded_zero (nesting : ℕ) (tokens : List Token) :
    parseComplexTypeUnbounded 0 nesting tokens = none := rfl

theorem parseUnbounded_succ (fuel nesting : ℕ) (tokens : List Token) :
    parseComplexTypeUnbounded (fuel + 1) nesting tokens =
      if currentType tokens = .generic then some (bytes "generic", tokens)
      else if currentType tokens = .leftBracket then
        (deeper nesting).bind fun nesting => parseBracketedType fuel nesting tokens.tail
      else if currentType tokens = .caret then
        (deeper nesting).bind fun nesting =>
          (parseComplexType fuel nesting tokens.tail).map fun p => (byte '^' :: p.1, p.2)
      else if currentIs tokens (bytes "map") && peekType tokens = .leftBracket then
        (expectPeekToken (readTypeName tokens.tail.tail).2 .colon).bind fun rest =>
          parseMapValue fuel nesting (readTypeName tokens.tail.tail).1 rest
      else if currentIs tokens (bytes "func") then
        if peekType tokens = .leftParenthesis then
          (if peekType tokens.tail = .rightParenthesis then some ([], tokens.tail)
            else parseParameterTypes fuel nesting [] tokens.tail.tail).bind fun p =>
              (expectPeekToken p.2 .rightParenthesis).bind fun rest =>
                parseReturnType fuel nesting p.1 rest
        else some (bytes "func", tokens)
      else some (readTypeName tokens) := rfl

theorem returnType_zero (nesting : ℕ) (list : Text) (tokens : List Token) :
    parseReturnType 0 nesting list tokens = none := rfl

theorem returnType_succ (fuel nesting : ℕ) (list : Text) (tokens : List Token) :
    parseReturnType (fuel + 1) nesting list tokens =
      if peekType tokens = .arrow then
        if currentType tokens.tail.tail = .leftParenthesis then
          (parseReturnTypes fuel nesting [byte '('] tokens.tail.tail.tail).bind fun p =>
            (expectPeekToken p.2 .rightParenthesis).bind fun rest =>
              if p.1.length + 2 ≥ 256 then none
              else some (bytes "func(" ++ (list ++ byte ')' :: (bytes "->" ++ (p.1 ++ [byte ')']))),
                rest)
        else
          (parseComplexType fuel nesting tokens.tail.tail).bind fun p =>
            if p.1 = bytes "void" then none
            else some (bytes "func(" ++ (list ++ byte ')' :: (bytes "->" ++ p.1.take 255)), p.2)
      else some (bytes "func(" ++ (list ++ byte ')' :: []), tokens) := rfl

theorem unbounded_of_parseType (h : parseComplexType fuel nesting tokens = some r) :
    ∃ fuel' nesting', parseComplexTypeUnbounded (fuel' + 1) nesting' tokens = some r := by
  have hsucc : ∀ {fuel nesting}, parseComplexTypeUnbounded fuel nesting tokens = some r →
      ∃ fuel' nesting', parseComplexTypeUnbounded (fuel' + 1) nesting' tokens = some r := by
    intro fuel nesting h
    cases fuel with
    | zero =>
      rw [parseUnbounded_zero] at h
      cases h
    | succ fuel => exact ⟨fuel, nesting, h⟩
  cases fuel with
  | zero => cases (show none = some r from h)
  | succ fuel =>
    rw [parseType_succ] at h
    split_ifs at h
    · obtain ⟨nesting', -, h⟩ := bind_eq_some_iff.mp h
      exact hsucc h
    · exact hsucc h

theorem parse_caret (hcur : currentType tokens = .caret)
    (h : parseComplexType fuel nesting tokens = some r) : ∃ fuel' nesting' p,
      parseComplexType fuel' nesting' tokens.tail = some p ∧ r = (byte '^' :: p.1, p.2) := by
  obtain ⟨fuel', nesting', h⟩ := unbounded_of_parseType h
  rw [parseUnbounded_succ, hcur, if_neg (by decide), if_neg (by decide), if_pos rfl] at h
  obtain ⟨nesting'', -, h⟩ := bind_eq_some_iff.mp h
  obtain ⟨p, hp, rfl⟩ := map_eq_some_iff.mp h
  exact ⟨fuel', nesting'', p, hp, rfl⟩

theorem parse_mapValue {key : Text} (h : parseMapValue fuel nesting key tokens = some r) :
    ∃ fuel' p, parseComplexType fuel' nesting tokens.tail = some p ∧
      r = (bytes "map[" ++ (key ++ byte ':' :: (p.1 ++ [byte ']'])), p.2.tail) := by
  cases fuel with
  | zero =>
    rw [parseMapValue] at h
    cases h
  | succ fuel =>
    rw [parseMapValue] at h
    split_ifs at h
    obtain ⟨p, hp, h⟩ := bind_eq_some_iff.mp h
    obtain ⟨rest, hrest, rfl⟩ := map_eq_some_iff.mp h
    rw [eq_of_expectPeekToken hrest]
    exact ⟨fuel, p, hp, rfl⟩

theorem parse_bracket (hcur : currentType tokens = .leftBracket)
    (h : parseComplexType fuel nesting tokens = some r) : ∃ fuel' nesting' p,
      parseComplexType fuel' nesting' tokens.tail = some p ∧
        (peekType p.2 = .colon → ∃ fuel'', parseMapValue fuel'' nesting' p.1 p.2.tail = some r) ∧
        (peekType p.2 = .comma → r = (byte '[' :: (p.1 ++ byte ',' ::
          (currentLiteral p.2.tail.tail ++ [byte ']'])), p.2.tail.tail.tail)) ∧
        (peekType p.2 = .rightBracket → r = (byte '[' :: (p.1 ++ [byte ']']), p.2.tail)) := by
  obtain ⟨fuel', nesting', h⟩ := unbounded_of_parseType h
  rw [parseUnbounded_succ, hcur, if_neg (by decide), if_pos rfl] at h
  obtain ⟨nesting'', -, h⟩ := bind_eq_some_iff.mp h
  cases fuel' with
  | zero =>
    rw [parseBracketedType] at h
    cases h
  | succ fuel' =>
    rw [parseBracketedType] at h
    split_ifs at h
    obtain ⟨p, hp, h⟩ := bind_eq_some_iff.mp h
    refine ⟨fuel', nesting'', p, hp, fun hpeek => ⟨fuel', ?_⟩, fun hpeek => ?_, fun hpeek => ?_⟩
    · rwa [if_pos hpeek] at h
    · rw [hpeek, if_neg (by decide), if_pos rfl] at h
      obtain ⟨rest, hrest, rfl⟩ := map_eq_some_iff.mp h
      rw [eq_of_expectPeekToken hrest]
    · rw [hpeek, if_neg (by decide), if_neg (by decide)] at h
      obtain ⟨rest, hrest, rfl⟩ := map_eq_some_iff.mp h
      rw [eq_of_expectPeekToken hrest]

theorem parse_map {key : TypeName} (hcur : currentIs tokens (bytes "map") = true)
    (hbra : peekType tokens = .leftBracket) (hkey : ReadsName tokens.tail.tail key last)
    (h : parseComplexType fuel nesting tokens = some r) :
    ∃ fuel' nesting', parseMapValue fuel' nesting' key.text last.tail = some r := by
  obtain ⟨fuel', nesting', h⟩ := unbounded_of_parseType h
  rw [parseUnbounded_succ, (currentType_of_currentIs hcur).1, if_neg (by decide),
    if_neg (by decide), if_neg (by decide), hcur, hbra, if_pos (by decide)] at h
  rw [hkey.readTypeName_eq] at h
  obtain ⟨rest, hrest, h⟩ := bind_eq_some_iff.mp h
  rw [eq_of_expectPeekToken hrest] at h
  exact ⟨fuel', nesting', h⟩

theorem currentIs_map_of_func (h : currentIs tokens (bytes "func") = true) :
    currentIs tokens (bytes "map") = false := by
  obtain ⟨htype, hlit⟩ := currentType_of_currentIs h
  unfold currentIs
  rw [hlit]
  exact Bool.and_eq_false_imp.mpr fun _ => by decide

theorem parse_func (hcur : currentIs tokens (bytes "func") = true)
    (h : parseComplexType fuel nesting tokens = some r) : ∃ fuel' nesting',
      (if peekType tokens = .leftParenthesis then
        (if peekType tokens.tail = .rightParenthesis then some ([], tokens.tail)
          else parseParameterTypes fuel' nesting' [] tokens.tail.tail).bind fun p =>
            (expectPeekToken p.2 .rightParenthesis).bind fun tokens =>
              parseReturnType fuel' nesting' p.1 tokens
      else some (bytes "func", tokens)) = some r := by
  obtain ⟨fuel', nesting', h⟩ := unbounded_of_parseType h
  rw [parseUnbounded_succ, (currentType_of_currentIs hcur).1, if_neg (by decide),
    if_neg (by decide), if_neg (by decide), currentIs_map_of_func hcur, Bool.false_and,
    if_neg Bool.false_ne_true, if_pos hcur] at h
  exact ⟨fuel', nesting', h⟩

theorem parse_name {n : TypeName} (hrd : ReadsName tokens n last)
    (hpl : nestsThroughWrapper tokens = false) (h : parseComplexType fuel nesting tokens = some r) :
    r = (n.text, last) := by
  obtain ⟨fuel', nesting', h⟩ := unbounded_of_parseType h
  obtain ⟨hmap, hfunc⟩ := Bool.or_eq_false_iff.mp hpl
  have hcur : currentType tokens = .identifier := by
    cases hrd with
    | simple current text peek => exact current
    | qualified current peek member text => exact current
  rw [parseUnbounded_succ, hcur, if_neg (by decide), if_neg (by decide), if_neg (by decide),
    hmap, if_neg Bool.false_ne_true, hfunc, if_neg Bool.false_ne_true, hrd.readTypeName_eq] at h
  exact (some.inj h).symm

end Reads

/-! ### The spelling that is built -/

theorem ReadsParameters.isEmpty_eq {tokens last : List Token}
    {parameters : List (TypeParameter WrittenType)} (h : ReadsParameters tokens parameters last) :
    parameters.isEmpty = false := by
  cases h <;> rfl

theorem ReadsResults.isEmpty_eq {tokens last : List Token} {results : List WrittenType}
    (h : ReadsResults tokens results last) : results.isEmpty = false := by
  cases h <;> rfl

theorem eq_of_appendTypeText {list separator text list' : Text} {size : ℕ}
    (h : appendTypeText list separator text size = some list') : list' = list ++ (separator ++ text) := by
  unfold appendTypeText at h
  split_ifs at h
  exact (some.inj h).symm

variable {fuel nesting : ℕ} {list : Text} {tokens : List Token} {r : Text × List Token}

theorem parse_parameter
    (h : parseParameterTypes fuel nesting list tokens = some r) : ∃ fuel' p list',
      parseComplexType fuel' nesting
        (if currentType tokens = .ampersand then tokens.tail else tokens) = some p ∧
      list' = list ++ ((if list.isEmpty then [] else [byte ',']) ++
        ((if currentType tokens = .ampersand then [byte '&'] else []) ++ p.1)) ∧
      (if peekType p.2 = .comma then parseParameterTypes fuel' nesting list' p.2.tail.tail
        else some (list', p.2)) = some r := by
  cases fuel with
  | zero =>
    rw [parseParameterTypes] at h
    cases h
  | succ fuel =>
    rw [parseParameterTypes] at h
    obtain ⟨p, hp, h⟩ := bind_eq_some_iff.mp h
    obtain ⟨list', hlist, h⟩ := bind_eq_some_iff.mp h
    exact ⟨fuel, p, list', hp, eq_of_appendTypeText hlist, h⟩

theorem parse_result
    (h : parseReturnTypes fuel nesting list tokens = some r) : ∃ fuel' p list',
      parseComplexType fuel' nesting tokens = some p ∧
      list' = list ++ ((if 1 < list.length then [byte ','] else []) ++ p.1) ∧
      (if peekType p.2 = .comma then parseReturnTypes fuel' nesting list' p.2.tail.tail
        else some (list', p.2)) = some r := by
  cases fuel with
  | zero =>
    rw [parseReturnTypes] at h
    cases h
  | succ fuel =>
    rw [parseReturnTypes] at h
    obtain ⟨p, hp, h⟩ := bind_eq_some_iff.mp h
    have hvoid : p.1 ≠ bytes "void" := by
      intro heq
      rw [if_pos heq] at h
      cases h
    rw [if_neg hvoid] at h
    obtain ⟨list', hlist, h⟩ := bind_eq_some_iff.mp h
    exact ⟨fuel, p, list', hp, eq_of_appendTypeText hlist, h⟩

theorem parse_noReturn
    (hpeek : peekType tokens ≠ .arrow) (h : parseReturnType fuel nesting list tokens = some r) :
    r = (bytes "func(" ++ (list ++ [byte ')']), tokens) := by
  cases fuel with
  | zero =>
    rw [returnType_zero] at h
    cases h
  | succ fuel =>
    rw [returnType_succ] at h
    rw [if_neg hpeek] at h
    exact (some.inj h).symm

theorem parse_return
    (hpeek : peekType tokens = .arrow) (hcur : currentType tokens.tail.tail ≠ .leftParenthesis)
    (h : parseReturnType fuel nesting list tokens = some r) : ∃ fuel' p,
      parseComplexType fuel' nesting tokens.tail.tail = some p ∧
        r = (bytes "func(" ++ (list ++ byte ')' :: (bytes "->" ++ p.1.take 255)), p.2) := by
  cases fuel with
  | zero =>
    rw [returnType_zero] at h
    cases h
  | succ fuel =>
    rw [returnType_succ] at h
    rw [if_pos hpeek, if_neg hcur] at h
    obtain ⟨p, hp, h⟩ := bind_eq_some_iff.mp h
    split_ifs at h
    exact ⟨fuel, p, hp, (some.inj h).symm⟩

theorem parse_returnList (hpeek : peekType tokens = .arrow)
    (hcur : currentType tokens.tail.tail = .leftParenthesis)
    (h : parseReturnType fuel nesting list tokens = some r) : ∃ fuel' p,
      parseReturnTypes fuel' nesting [byte '('] tokens.tail.tail.tail = some p ∧
        r = (bytes "func(" ++ (list ++ byte ')' :: (bytes "->" ++ (p.1 ++ [byte ')']))), p.2.tail) := by
  cases fuel with
  | zero =>
    rw [returnType_zero] at h
    cases h
  | succ fuel =>
    rw [returnType_succ] at h
    rw [if_pos hpeek, if_pos hcur] at h
    obtain ⟨p, hp, h⟩ := bind_eq_some_iff.mp h
    obtain ⟨rest, hrest, h⟩ := bind_eq_some_iff.mp h
    split_ifs at h
    obtain rfl := eq_of_expectPeekToken hrest
    exact ⟨fuel, p, hp, (some.inj h).symm⟩

theorem parse_signature {fuel nesting : ℕ} {r : Text × List Token}
    (hcur : currentIs tokens (bytes "func") = true) (hpeek : peekType tokens = .leftParenthesis)
    (h : parseComplexType fuel nesting tokens = some r) : ∃ fuel' nesting' p,
      (if peekType tokens.tail = .rightParenthesis then some ([], tokens.tail)
        else parseParameterTypes fuel' nesting' [] tokens.tail.tail) = some p ∧
      parseReturnType fuel' nesting' p.1 p.2.tail = some r := by
  obtain ⟨fuel', nesting', h⟩ := parse_func hcur h
  rw [if_pos hpeek] at h
  obtain ⟨p, hp, h⟩ := bind_eq_some_iff.mp h
  obtain ⟨rest, hrest, h⟩ := bind_eq_some_iff.mp h
  rw [eq_of_expectPeekToken hrest] at h
  exact ⟨fuel', nesting', p, hp, h⟩

mutual

theorem parseType_reads : ∀ {tokens last : List Token} {type : WrittenType},
    ReadsType tokens type last → ∀ {fuel nesting : ℕ} {r : Text × List Token},
      parseComplexType fuel nesting tokens = some r → r = (spell type, last)
  | _, _, _, .name reads isPlain, _, _, _, h => parse_name reads isPlain h
  | _, _, _, .func current text peek, _, _, _, h => by
    obtain ⟨_, _, h⟩ := parse_func current h
    rw [if_neg peek] at h
    rw [spell, text]
    exact (some.inj h).symm
  | _, _, _, .pointer current reads, _, _, _, h => by
    obtain ⟨_, _, p, hp, rfl⟩ := parse_caret current h
    rw [parseType_reads reads hp]
    rfl
  | _, _, _, .array current reads close, _, _, _, h => by
    obtain ⟨_, _, p, hp, -, -, hcl⟩ := parse_bracket current h
    obtain rfl := parseType_reads reads hp
    exact hcl close
  | _, _, _, .fixedArray current reads comma isSize text close, _, _, _, h => by
    obtain ⟨_, _, p, hp, -, hcom, -⟩ := parse_bracket current h
    obtain rfl := parseType_reads reads hp
    rw [hcom comma, text]
    rfl
  | _, _, _, .shorthandMap current readsKey colon readsValue close, _, _, _, h => by
    obtain ⟨_, _, p, hp, hcol, -⟩ := parse_bracket current h
    obtain rfl := parseType_reads readsKey hp
    obtain ⟨_, h⟩ := hcol colon
    obtain ⟨_, q, hq, rfl⟩ := parse_mapValue h
    rw [parseType_reads readsValue hq]
    rfl
  | _, _, _, .map current bracket readsKey colon readsValue close, _, _, _, h => by
    obtain ⟨_, _, h⟩ := parse_map current bracket readsKey h
    obtain ⟨_, q, hq, rfl⟩ := parse_mapValue h
    rw [parseType_reads readsValue hq]
    rfl
  | _, _, _, .procedure current peek reads close noArrow, _, _, _, h => by
    obtain ⟨_, _, p, hp, h⟩ := parse_signature current peek h
    obtain rfl := parseParameterList_reads reads hp
    exact parse_noReturn noArrow h
  | _, _, _, .function current peek reads close arrow readsResult single fits notVoid, _, _, _, h => by
    obtain ⟨_, _, p, hp, h⟩ := parse_signature current peek h
    obtain rfl := parseParameterList_reads reads hp
    obtain ⟨_, q, hq, rfl⟩ := parse_return arrow single h
    obtain rfl := parseType_reads readsResult hq
    rw [spell, List.take_of_length_le (Nat.le_of_lt_succ fits)]
  | _, _, _, .functionList current peek reads close arrow isList readsResults closeResults, _, _, _, h => by
    obtain ⟨_, _, p, hp, h⟩ := parse_signature current peek h
    obtain rfl := parseParameterList_reads reads hp
    obtain ⟨_, q, hq, rfl⟩ := parse_returnList arrow isList h
    obtain rfl := parseReturnTypes_reads readsResults (List.cons_ne_nil _ _) hq
    rfl

theorem parseParameterList_reads : ∀ {tokens last : List Token}
    {parameters : List (TypeParameter WrittenType)}, ReadsParameterList tokens parameters last →
      ∀ {fuel nesting : ℕ} {r : Text × List Token},
        (if peekType tokens = .rightParenthesis then some ([], tokens)
          else parseParameterTypes fuel nesting [] tokens.tail) = some r →
          r = (spellParameters parameters, last)
  | _, _, _, .empty close, _, _, _, h => by
    rw [if_pos close] at h
    exact (some.inj h).symm
  | _, _, _, .some noClose reads, _, _, _, h => by
    rw [if_neg noClose] at h
    exact parseParameterTypes_reads reads h

theorem parseParameterTypes_reads : ∀ {tokens last : List Token}
    {parameters : List (TypeParameter WrittenType)}, ReadsParameters tokens parameters last →
      ∀ {fuel nesting : ℕ} {list : Text} {r : Text × List Token},
        parseParameterTypes fuel nesting list tokens = some r →
          r = (list ++ ((if list.isEmpty then [] else [byte ',']) ++ spellParameters parameters), last)
  | _, _, _, .single reads noComma, _, _, _, _, h => by
    obtain ⟨_, p, list', hp, rfl, h⟩ := parse_parameter h
    obtain rfl := parseType_reads reads hp
    rw [if_neg noComma] at h
    rw [← some.inj h, spellParameters]
    simp
  | _, _, _, .cons reads comma rest, _, _, _, _, h => by
    obtain ⟨_, p, list', hp, hlist, h⟩ := parse_parameter h
    obtain rfl := parseType_reads reads hp
    rw [if_pos comma] at h
    have hne : list'.isEmpty = false := by
      rw [hlist]
      simp [spell_ne_nil]
    rw [parseParameterTypes_reads rest h, hne, hlist, spellParameters, rest.isEmpty_eq]
    simp

theorem parseReturnTypes_reads : ∀ {tokens last : List Token} {results : List WrittenType},
    ReadsResults tokens results last → ∀ {fuel nesting : ℕ} {list : Text} {r : Text × List Token},
      list ≠ [] → parseReturnTypes fuel nesting list tokens = some r →
        r = (list ++ ((if 1 < list.length then [byte ','] else []) ++ spellResults results), last)
  | _, _, _, .single reads noComma, _, _, _, _, hne, h => by
    obtain ⟨_, p, list', hp, rfl, h⟩ := parse_result h
    obtain rfl := parseType_reads reads hp
    rw [if_neg noComma] at h
    rw [← some.inj h, spellResults]
    simp
  | _, _, _, .cons reads comma rest, _, _, _, _, hne, h => by
    obtain ⟨_, p, list', hp, hlist, h⟩ := parse_result h
    obtain rfl := parseType_reads reads hp
    rw [if_pos comma] at h
    have hlen : 1 < list'.length := by
      have hpos := List.length_pos_iff.mpr hne
      have hspell := List.length_pos_iff.mpr (spell_ne_nil ‹WrittenType›)
      rw [hlist, List.length_append, List.length_append]
      dsimp only
      omega
    have hne' : list' ≠ [] := List.ne_nil_of_length_pos (Nat.lt_of_succ_lt hlen)
    rw [parseReturnTypes_reads rest hne' h, if_pos hlen, hlist, spellResults, rest.isEmpty_eq]
    simp

end

end Grayscale
