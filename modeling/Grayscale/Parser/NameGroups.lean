import Grayscale.Parser.ComplexType
import Grayscale.Typechecker.Constants

/-!
# Groups of names

A type that is written after a group of names is the type of every name of the group. The parser
reads such groups at four places, each with a loop of its own: the parameters of a function, the
fields of a struct, the names of a variable declaration, and a list of results in parentheses.

What else a loop calls is a parameter: the parser of expressions, the parser of the other members of
a struct, the table of reserved names, and where the parser of types stops after an error.
-/

namespace Grayscale.NameGroups

open List
open Option (bind_some some.inj)

/-- What the loops call. -/
structure Readers (Expression : Type) where
  /-- The fuel of `parse_complex_type`. -/
  typeFuel : ℕ
  /-- Where `parse_complex_type` stops after an error. -/
  stopAfterError : List Token → List Token
  /-- `parse_expression`. -/
  parseExpression : List Token → Option Expression × List Token
  /-- A member of a struct that is no field. -/
  readMember : List Token → List Token
  /-- `is_reserved_name`. -/
  isReservedName : Text → Bool

/-- `parse_complex_type`: the type, if there is one, and where the parser stops. -/
def Readers.parseComplexType {Expression : Type} (readers : Readers Expression)
    (tokens : List Token) : Option Text × List Token :=
  match Grayscale.parseComplexType readers.typeFuel 0 tokens with
  | some (text, last) => (some text, last)
  | none => (none, readers.stopAfterError tokens)

section Loops

variable {Expression : Type} (readers : Readers Expression)

/-! ### Parameters -/

structure Parameter (Expression : Type) where
  name : Text
  isMutable : Bool
  typeName : Option Text
  isTypeParameter : Bool
  defaultValue : Option Expression
  deriving DecidableEq

def readParameterType (tokens : List Token) : Option (Option Text × Bool × List Token) :=
  if peekType tokens ∈ [.identifier, .caret, .leftBracket, .generic, .lessThan, .illegal] then
    let first := tokens.tail
    if currentType first ∈ [.generic, .illegal] then some (some (bytes "generic"), true, first)
    else if currentType first = .lessThan then
      some (some (bytes "generic"), true,
        if peekType first.tail = .greaterThan then first.tail.tail else first.tail)
    else
      let read := readers.parseComplexType first
      read.1.map fun text => (some text, false, read.2)
  else if peekType tokens = .ampersand then none
  else some (none, false, tokens)

/-- One round of the loop over parameters. -/
def parseParameter (tokens : List Token) : Option (Parameter Expression × List Token) :=
  let isMutable := decide (currentType tokens = .ampersand)
  let tokens := if isMutable then tokens.tail else tokens
  (readParameterType readers tokens).map fun (typeName, isTypeParameter, rest) =>
    if peekType rest = .assign then
      let value := readers.parseExpression rest.tail.tail
      (⟨currentLiteral tokens, isMutable, typeName, isTypeParameter, value.1⟩, value.2)
    else (⟨currentLiteral tokens, isMutable, typeName, isTypeParameter, none⟩, rest)

/-- The loop over parameters is left. -/
def endsParameters (tokens : List Token) : Bool :=
  currentType tokens = .rightParenthesis || peekType tokens = .rightParenthesis ||
    currentType tokens = .endOfFile

def parseParameterLoop : ℕ → List (Parameter Expression) → List Token →
    Option (List (Parameter Expression) × List Token)
  | 0, _, _ => none
  | fuel + 1, parameters, tokens =>
    (parseParameter readers tokens).bind fun (parameter, rest) =>
      if peekType rest = .comma then
        if endsParameters rest.tail.tail then some (parameters ++ [parameter], rest.tail.tail)
        else parseParameterLoop fuel (parameters ++ [parameter]) rest.tail.tail
      else if endsParameters rest then some (parameters ++ [parameter], rest) else none

/-- The types of grouped parameters, from the right; a default goes with its type. -/
def backfill : List (Parameter Expression) → List (Parameter Expression)
  | [] => []
  | parameter :: l =>
    match backfill l with
    | [] => [parameter]
    | next :: rest =>
      (if parameter.typeName.isNone then
        { parameter with
          typeName := next.typeName
          isTypeParameter := next.isTypeParameter
          defaultValue := parameter.defaultValue.or next.defaultValue }
      else parameter) :: next :: rest

/-- The parameters of `parse_function_declaration`, on the parenthesis before them. -/
def parseParameters (fuel : ℕ) (tokens : List Token) :
    Option (List (Parameter Expression) × List Token) :=
  (if peekType tokens = .rightParenthesis then some ([], tokens)
    else parseParameterLoop readers fuel [] tokens.tail).bind fun (parameters, rest) =>
      (expectPeekToken rest .rightParenthesis).map fun rest => (backfill parameters, rest)

/-! ### Fields -/

structure Field (Expression : Type) where
  name : Text
  typeName : Text
  jsonTag : Option Text
  defaultValue : Option Expression
  deriving DecidableEq

/-- The kinds of tokens that `synchronize_parser` stops at. -/
def statementStarts : List TokenType :=
  [.doKeyword, .mut, .const, .returnKeyword, .ifKeyword, .forKeyword, .forEach, .asLongAs, .loop,
    .when, .importKeyword, .using, .breakKeyword, .continueKeyword, .alias, .distinct, .rightBrace,
    .identifier, .endOfFile]

def synchronizeParser (tokens : List Token) : List Token :=
  let errorLine := (tokens.head?.map Token.line).getD 0
  (tokens.dropWhile fun token => token.type ≠ .endOfFile && token.line == errorLine).dropWhile
    fun token => token.type ∉ statementStarts

def isKeywordToken (type : TokenType) : Bool := type ≠ .blank && tokenTypeIsKeyword type

/-- A member of a struct that is no field: an attribute, a function or a nested declaration. -/
def startsOtherMember (tokens : List Token) : Bool :=
  currentType tokens ∈ [.hashLeftBracket, .doc, .discard, .test, .deprecated, .doKeyword, .const] ||
    (currentType tokens = .unsafeKeyword && peekType tokens = .doKeyword) ||
    (currentType tokens = .privateKeyword && peekType tokens ∈ [.doKeyword, .unsafeKeyword])

/-- The loop over the names of a group of fields; `none` if a name is rejected. -/
def readFieldNames : ℕ → List Text → List Token → Option (List Text) × List Token
  | 0, _, tokens => (none, tokens)
  | fuel + 1, names, tokens =>
    if isKeywordToken (currentType tokens) then (none, synchronizeParser tokens)
    else if currentType tokens = .identifier && readers.isReservedName (currentLiteral tokens) then
      (none, synchronizeParser tokens)
    else if peekType tokens = .comma then
      readFieldNames fuel (names ++ [currentLiteral tokens]) tokens.tail.tail
    else (some (names ++ [currentLiteral tokens]), tokens.tail)

/-- The tag behind the type of a field; grouped fields have none. -/
def readFieldTag (names : List Text) (tokens : List Token) : Option Text × List Token :=
  if currentType tokens = .rawString then
    (if 1 < names.length then none else some (currentLiteral tokens), tokens.tail)
  else (none, tokens)

def readFieldDefault (tokens : List Token) : Option Expression × List Token :=
  if currentType tokens = .assign then
    ((readers.parseExpression tokens.tail).1, (readers.parseExpression tokens.tail).2.tail)
  else (none, tokens)

/-- What may stand between two groups of fields. -/
def skipFieldSeparators (tokens : List Token) : List Token :=
  (if currentType tokens = .comma then tokens.tail else tokens).dropWhile
    fun token => token.type == .semicolon

/-- The loop of `parse_struct_declaration`. -/
def parseFields : ℕ → List (Field Expression) → List Token →
    Option (List (Field Expression) × List Token)
  | 0, _, _ => none
  | fuel + 1, fields, tokens =>
    if currentType tokens ∈ [.rightBrace, .endOfFile] then some (fields, tokens)
    else if startsOtherMember tokens then parseFields fuel fields (readers.readMember tokens)
    else
      match readFieldNames readers tokens.length [] tokens with
      | (none, rest) => parseFields fuel fields rest
      | (some names, rest) =>
        let type := readers.parseComplexType rest
        type.1.bind fun text =>
          let tag := readFieldTag names type.2.tail
          let value := readFieldDefault readers tag.2
          parseFields fuel (fields ++ names.map fun name => ⟨name, text, tag.1, value.1⟩)
            (skipFieldSeparators value.2)

/-! ### Variables -/

def readVariableType (tokens : List Token) : Option (Option Text × List Token) :=
  if peekType tokens ∈ [.identifier, .caret, .leftBracket, .struct, .enum, .generic] then
    let type := readers.parseComplexType tokens.tail
    type.1.map fun text => (some text, type.2)
  else some (none, tokens)

/-- The loop over the variables after the first one. There are 16 at most. -/
def readVariables : ℕ → List (Text × Option Text) → List Token →
    Option (List (Text × Option Text) × List Token)
  | 0, _, _ => none
  | fuel + 1, declared, tokens =>
    if peekType tokens = .comma then
      if peekType tokens.tail ∈ [.identifier, .blank] then
        if 16 ≤ declared.length then none
        else
          let name := if currentType tokens.tail.tail = .blank then bytes "_"
            else currentLiteral tokens.tail.tail
          (readVariableType readers tokens.tail.tail).bind fun (type, rest) =>
            readVariables fuel (declared ++ [(name, type)]) rest
      else none
    else some (declared, tokens)

/-- A type after the last of several names is the type of all, if no other name has a type. -/
def shareVariableType (declared : List (Text × Option Text)) : List (Text × Option Text) :=
  match declared.getLast? with
  | some (_, some shared) =>
    if declared.dropLast.all fun v => v.2.isNone then
      declared.map fun v =>
        if v.1 ≠ bytes "_" then (v.1, some shared) else v
    else declared
  | _ => declared

/-- `parse_variable_declaration_common`, on the first name: the names and types that are declared,
up to the values. -/
def declaredVariables (fuel : ℕ) (isMutable : Bool) (tokens : List Token) :
    Option (List (Text × Option Text) × List Token) :=
  let name := currentLiteral tokens
  let start := if peekType tokens = .nil then tokens.tail else tokens
  (readVariableType readers start).bind fun (type, rest) =>
    if isMutable ∧ (type = some (bytes "struct") ∨ type = some (bytes "enum")) then none
    else if name = bytes "_" ∧ peekType rest ≠ .assign ∧ peekType rest ≠ .comma then none
    else if peekType rest = .comma then
      (readVariables readers fuel [(name, type)] rest).bind fun (declared, rest) =>
        let shared := shareVariableType declared
        if peekType rest ≠ .assign ∧ ((shared.any fun v => v.1 == bytes "_") ∨
              shared.any fun v => v.2.isNone) then none
        else some (shared, rest)
    else some ([(name, type)], rest)

/-! ### Results -/

structure ReturnSlot where
  name : Option Text
  type : Option Text
  deriving DecidableEq

/-- The current token is a type that is no single token. -/
def isComplexTypeStart (tokens : List Token) : Bool :=
  (currentIs tokens (bytes "map") && peekType tokens = .leftBracket) ||
    (currentIs tokens (bytes "func") && peekType tokens = .leftParenthesis)

/-- An identifier that is taken for a type: a built-in one, or one with a capital letter. -/
def isReturnTypeName (tokens : List Token) : Bool := currentType tokens = .identifier &&
    (isIntegerTypeName (currentLiteral tokens) ||
      currentLiteral tokens ∈
        [bytes "f32", bytes "f64", bytes "string", bytes "bool", bytes "char"] ||
      isComplexTypeStart tokens ||
      (currentLiteral tokens).head?.any fun c => byte 'A' ≤ c && c ≤ byte 'Z')

/-- `reserve_return_slot`, and what is stored there. -/
def reserveReturnSlot (slots : List ReturnSlot) (slot : ReturnSlot) : Option (List ReturnSlot) :=
  if 16 ≤ slots.length then none else some (slots ++ [slot])

/-- The loop that collects the names of a shared type, and whether a type that is no identifier ends
it. -/
def collectShared : ℕ → List Text → List Token → List Text × Bool × List Token
  | 0, names, tokens => (names, false, tokens)
  | fuel + 1, names, tokens =>
    if peekType tokens = .comma then
      let next := tokens.tail.tail
      if currentType next ≠ .identifier ∨ isComplexTypeStart next then (names, true, next)
      else if 16 ≤ names.length + 1 then (names ++ [currentLiteral next], false, next)
      else collectShared fuel (names ++ [currentLiteral next]) next
    else (names, false, tokens)

def reserveTypes (slots : List ReturnSlot) : List Text → Option (List ReturnSlot)
  | [] => some slots
  | type :: types =>
    (reserveReturnSlot slots ⟨none, some type⟩).bind fun slots => reserveTypes slots types

/-- The slots of a shared type, which is read again for each name. -/
def reserveShared : List ReturnSlot → List Text → List Token → Option (List ReturnSlot × List Token)
  | slots, [], tokens => some (slots, tokens)
  | slots, name :: names, tokens =>
    (reserveReturnSlot slots ⟨some name, some (readTypeName tokens).1⟩).bind fun slots =>
      reserveShared slots names (readTypeName tokens).2

/-- One round of the loop over results. -/
def readReturn (slots : List ReturnSlot) (tokens : List Token) :
    Option (List ReturnSlot × List Token) :=
  let isType := isReturnTypeName tokens
  if currentType tokens = .identifier ∧ ¬ (isType ∧ isComplexTypeStart tokens) ∧
      peekType tokens ∈ [.identifier, .generic, .leftBracket, .caret] then
    let type := readers.parseComplexType tokens.tail
    (reserveReturnSlot slots ⟨some (currentLiteral tokens), type.1⟩).map fun slots =>
      (slots, type.2)
  else if currentType tokens = .identifier ∧ peekType tokens = .comma ∧ ¬ isType then
    let (names, hasTypeAfterNames, last) :=
      collectShared tokens.length [currentLiteral tokens] tokens
    if hasTypeAfterNames ∨ peekType last = .rightParenthesis then
      (reserveTypes slots names).bind fun slots =>
        if hasTypeAfterNames then
          let type := readers.parseComplexType last
          (reserveReturnSlot slots ⟨none, type.1⟩).map fun slots => (slots, type.2)
        else some (slots, last)
    else if peekType last = .identifier then reserveShared slots names last.tail
    else some (slots, last)
  else
    let type := readers.parseComplexType tokens
    (reserveReturnSlot slots ⟨none, type.1⟩).map fun slots => (slots, type.2)

/-- The loop over the results in parentheses, behind the opening one. -/
def parseReturns : ℕ → List ReturnSlot → List Token → Option (List ReturnSlot × List Token)
  | 0, _, _ => none
  | fuel + 1, slots, tokens =>
    if currentType tokens ∈ [.rightParenthesis, .endOfFile] then some (slots, tokens)
    else (readReturn readers slots tokens).bind fun (slots, last) =>
      parseReturns fuel slots (if peekType last = .comma then last.tail.tail else last.tail)

end Loops

/-! ### Groups -/

/-- The current token is an identifier. -/
structure IsName (tokens : List Token) (name : Text) : Prop where
  current : currentType tokens = .identifier
  literal : currentLiteral tokens = name
  notBlank : name ≠ bytes "_"

/-- Identifiers with commas between them, up to the first token of `last`. -/
inductive ReadsNames : List Token → List Text → List Token → Prop
  | single {tokens : List Token} {name : Text} (isName : IsName tokens name) :
    ReadsNames tokens [name] tokens
  | cons {tokens last : List Token} {name : Text} {names : List Text} (isName : IsName tokens name)
    (comma : peekType tokens = .comma) (rest : ReadsNames tokens.tail.tail names last) :
    ReadsNames tokens (name :: names) last

structure Group where
  names : List Text
  type : WrittenType

/-- The names of a group, each with the type. -/
def Group.entries (group : Group) : List (Text × Text) :=
  group.names.map fun name => (name, spell group.type)

variable {Expression : Type} (readers : Readers Expression)

/-- A group is written from the current token on. Its last name is at `lastName`, and its type,
which the parser of types accepts, ends at `last`. -/
structure ReadsGroup (tokens : List Token) (group : Group) (lastName last : List Token) : Prop where
  readsNames : ReadsNames tokens group.names lastName
  readsType : ReadsType lastName.tail group.type last
  accepted : (Grayscale.parseComplexType readers.typeFuel 0 lastName.tail).isSome

section Group

variable {readers} {tokens last lastName : List Token} {group : Group} {names : List Text}

theorem currentType_mem_of_readsType {type : WrittenType} (h : ReadsType tokens type last) :
    currentType tokens ∈ [.identifier, .caret, .leftBracket] := by
  have hid : ∀ {name : Text}, currentIs tokens name = true →
      currentType tokens ∈ [TokenType.identifier, .caret, .leftBracket] := fun h => by
    rw [(currentType_of_currentIs h).1]
    decide
  cases h with
  | name reads isPlain =>
    have hcur : currentType tokens = .identifier := by
      cases reads with
      | simple current text peek => exact current
      | qualified current peek member text => exact current
    rw [hcur]
    decide
  | func current text peek => exact hid current
  | pointer current reads =>
    rw [current]
    decide
  | array current reads close =>
    rw [current]
    decide
  | fixedArray current reads comma isSize text close =>
    rw [current]
    decide
  | shorthandMap current readsKey colon readsValue close =>
    rw [current]
    decide
  | map current bracket readsKey colon readsValue close => exact hid current
  | procedure current peek reads close noArrow => exact hid current
  | function current peek reads close arrow readsResult single fits notVoid =>
    exact hid current
  | functionList current peek reads close arrow isList readsResults closeResults =>
    exact hid current

theorem ReadsGroup.parseType_eq (h : ReadsGroup readers tokens group lastName last) :
    readers.parseComplexType lastName.tail = (some (spell group.type), last) := by
  obtain ⟨r, hr⟩ := Option.isSome_iff_exists.mp h.accepted
  obtain rfl := parseType_reads h.readsType hr
  rw [Readers.parseComplexType, hr]

theorem ReadsGroup.peekType_mem (h : ReadsGroup readers tokens group lastName last) :
    peekType lastName ∈ [.identifier, .caret, .leftBracket] :=
  currentType_mem_of_readsType h.readsType

theorem ReadsGroup.peekType_ne {type : TokenType}
    (h : ReadsGroup readers tokens group lastName last)
    (htype : type ∉ [TokenType.identifier, .caret, .leftBracket]) : peekType lastName ≠ type :=
  fun heq => htype (heq ▸ h.peekType_mem)

theorem ReadsNames.length_le (h : ReadsNames tokens names lastName) :
    names.length ≤ tokens.length := by
  induction h with
  | @single tokens name isName =>
    have hcur := isName.current
    cases tokens with
    | nil => cases hcur
    | cons => exact Nat.le_add_left 1 _
  | @cons tokens last name names isName comma rest ih =>
    match tokens, comma, isName.current with
    | token :: token' :: l, _, _ =>
      simp only [tail_cons, length_cons] at ih ⊢
      omega

/-! ### Groups of parameters -/

/-- The parameters of a group before their types are filled in. -/
def rawParameters (Expression : Type) : List Text → Text → List (Parameter Expression)
  | [], _ => []
  | [name], type => [⟨name, false, some type, false, none⟩]
  | name :: name' :: l, type =>
    ⟨name, false, none, false, none⟩ :: rawParameters Expression (name' :: l) type

def typedParameters (Expression : Type) (entries : List (Text × Text)) :
    List (Parameter Expression) :=
  entries.map fun entry => ⟨entry.1, false, some entry.2, false, none⟩

variable {name : Text}

theorem parseParameter_untyped (hname : IsName tokens name)
    (hcom : peekType tokens = .comma) :
    parseParameter readers tokens = some (⟨name, false, none, false, none⟩, tokens) := by
  have htype : readParameterType readers tokens = some (none, false, tokens) := by
    rw [readParameterType, hcom, if_neg (by decide), if_neg (by decide)]
  simp [parseParameter, hname.current, htype, hcom, hname.literal]

theorem parseParameter_typed (hname : IsName lastName name)
    (hgrp : ReadsGroup readers tokens group lastName last) (hassign : peekType last ≠ .assign) :
    parseParameter readers lastName =
      some (⟨name, false, some (spell group.type), false, none⟩, last) := by
  have hpeek := hgrp.peekType_mem
  have hst : peekType lastName ∈
      [.identifier, .caret, .leftBracket, .generic, .lessThan, .illegal] :=
    (show [TokenType.identifier, .caret, .leftBracket] ⊆ _ by decide) hpeek
  have hkind : currentType lastName.tail ∉ [.generic, .illegal] ∧
      currentType lastName.tail ≠ .lessThan := by
    change currentType lastName.tail ∈ _ at hpeek
    simp only [mem_cons, not_mem_nil, or_false] at hpeek
    rcases hpeek with h | h | h <;> rw [h] <;> decide
  have htype : readParameterType readers lastName =
      some (some (spell group.type), false, last) := by
    rw [readParameterType, if_pos hst]
    dsimp only
    rw [if_neg hkind.1, if_neg hkind.2, hgrp.parseType_eq]
    rfl
  simp [parseParameter, hname.current, htype, hassign, hname.literal]

theorem endsParameters_eq_false (hname : IsName tokens name)
    (hpeek : peekType tokens ∈ [.comma, .identifier, .caret, .leftBracket]) :
    endsParameters tokens = false := by
  simp only [mem_cons, not_mem_nil, or_false] at hpeek
  rw [endsParameters, hname.current]
  rcases hpeek with h | h | h | h <;> rw [h] <;> rfl

theorem ReadsGroup.endsParameters_eq_false (h : ReadsGroup readers tokens group lastName last) :
    endsParameters tokens = false := by
  have hpeek := h.peekType_mem
  have hnam := h.readsNames
  generalize group.names = names at hnam
  cases hnam with
  | single isName => exact NameGroups.endsParameters_eq_false isName (mem_cons_of_mem _ hpeek)
  | cons isName comma rest =>
    exact NameGroups.endsParameters_eq_false isName (by rw [comma]; decide)

variable (fuel : ℕ)

theorem parseParameterLoop_group (hassign : peekType last ≠ .assign)
    (hgrp : ReadsGroup readers tokens group lastName last) :
    ∀ l, parseParameterLoop readers (fuel + group.names.length) l tokens =
      if peekType last = .comma then
        if endsParameters last.tail.tail then
          some (l ++ rawParameters Expression group.names (spell group.type), last.tail.tail)
        else parseParameterLoop readers fuel
          (l ++ rawParameters Expression group.names (spell group.type)) last.tail.tail
      else if endsParameters last then
        some (l ++ rawParameters Expression group.names (spell group.type), last)
      else none := by
  obtain ⟨hnam, htype, hacc⟩ := hgrp
  obtain ⟨names, type⟩ := group
  dsimp only at *
  induction hnam with
  | single isName =>
    intro l
    have hpar := parseParameter_typed isName
      (@ReadsGroup.mk _ readers _ ⟨_, type⟩ _ _ (.single isName) htype hacc) hassign
    rw [length_singleton, parseParameterLoop, hpar]
    rfl
  | @cons tokens lastName name names isName comma rest ih =>
    intro l
    have hrest := @ReadsGroup.mk _ readers _ ⟨names, type⟩ _ _ rest htype hacc
    rw [length_cons, ← Nat.add_assoc, parseParameterLoop, parseParameter_untyped isName comma,
      bind_some]
    dsimp only
    rw [if_pos comma, hrest.endsParameters_eq_false, if_neg Bool.false_ne_true, ih hacc htype]
    have hraw : rawParameters Expression (name :: names) (spell type) =
        ⟨name, false, none, false, none⟩ :: rawParameters Expression names (spell type) := by
      cases rest <;> rfl
    rw [hraw, append_assoc, singleton_append]

variable (readers) in
/-- Groups of parameters, with commas between them. -/
inductive ReadsParameterGroups : List Token → List Group → List Token → Prop
  | single {tokens last lastName : List Token} {group : Group}
    (reads : ReadsGroup readers tokens group lastName last)
    (close : peekType last = .rightParenthesis) : ReadsParameterGroups tokens [group] last
  | cons {tokens last last' lastName : List Token} {group : Group} {groups : List Group}
    (reads : ReadsGroup readers tokens group lastName last) (comma : peekType last = .comma)
    (rest : ReadsParameterGroups last.tail.tail groups last') :
    ReadsParameterGroups tokens (group :: groups) last'

def nameCount (groups : List Group) : ℕ := (groups.map fun group => group.names.length).sum

variable {groups : List Group}

theorem parseParameterLoop_groups
    (h : ReadsParameterGroups readers tokens groups last) (fuel : ℕ) :
    ∀ l, parseParameterLoop readers (fuel + nameCount groups) l tokens =
      some (l ++ groups.flatMap fun group =>
        rawParameters Expression group.names (spell group.type), last) := by
  induction h with
  | @single tokens last lastName group reads close =>
    intro l
    have hassign : peekType last ≠ .assign := by rw [close]; decide
    have hends : endsParameters last = true := by simp [endsParameters, close]
    rw [show nameCount [group] = group.names.length from Nat.add_zero _,
      parseParameterLoop_group fuel hassign reads, if_neg (by rw [close]; decide), if_pos hends]
    simp
  | @cons tokens last last' lastName group groups reads comma rest ih =>
    intro l
    have hassign : peekType last ≠ .assign := by rw [comma]; decide
    have hends : endsParameters last.tail.tail = false := by
      cases rest with
      | single reads => exact reads.endsParameters_eq_false
      | cons reads => exact reads.endsParameters_eq_false
    have hcnt : fuel + nameCount (group :: groups) =
        (fuel + nameCount groups) + group.names.length := by
      rw [nameCount, map_cons, sum_cons, ← nameCount]
      omega
    rw [hcnt, parseParameterLoop_group _ hassign reads, if_pos comma, hends,
      if_neg Bool.false_ne_true, ih, flatMap_cons, append_assoc]

theorem backfill_rawParameters (names : List Text) (type : Text) (l : List (Parameter Expression)) :
    backfill (rawParameters Expression names type ++ l) =
      typedParameters Expression (names.map fun name => (name, type)) ++ backfill l := by
  induction names with
  | nil => rfl
  | cons name names ih =>
    cases names with
    | nil =>
      change backfill (⟨name, false, some type, false, none⟩ :: l) = _
      rw [backfill]
      cases hrest : backfill l <;> simp [typedParameters]
    | cons name' names =>
      rw [rawParameters, cons_append, backfill, ih]
      simp [typedParameters]

theorem backfill_groups (groups : List Group) :
    backfill (groups.flatMap fun group => rawParameters Expression group.names (spell group.type)) =
      typedParameters Expression (groups.flatMap Group.entries) := by
  induction groups with
  | nil => rfl
  | cons group groups ih =>
    rw [flatMap_cons, backfill_rawParameters, ih, flatMap_cons, typedParameters,
      typedParameters, typedParameters, ← map_append]
    rfl

theorem ReadsNames.isName (h : ReadsNames tokens names lastName) : ∃ name, IsName tokens name := by
  cases h with
  | single isName => exact ⟨_, isName⟩
  | cons isName => exact ⟨_, isName⟩

theorem ReadsParameterGroups.isName
    (h : ReadsParameterGroups readers tokens groups last) : ∃ name, IsName tokens name := by
  cases h with
  | single reads => exact reads.readsNames.isName
  | cons reads => exact reads.readsNames.isName

theorem ReadsParameterGroups.close
    (h : ReadsParameterGroups readers tokens groups last) : peekType last = .rightParenthesis := by
  induction h with
  | single reads close => exact close
  | cons reads comma rest ih => exact ih

theorem parseParameters_groups
    (h : ReadsParameterGroups readers tokens.tail groups last) (fuel : ℕ)
    (hfuel : nameCount groups ≤ fuel) : parseParameters readers fuel tokens =
      some (typedParameters Expression (groups.flatMap Group.entries), last.tail) := by
  obtain ⟨name, hname⟩ := h.isName
  obtain ⟨extra, rfl⟩ := Nat.exists_eq_add_of_le' hfuel
  rw [parseParameters, if_neg (by change currentType _ ≠ _; rw [hname.current]; decide),
    parseParameterLoop_groups h, bind_some]
  dsimp only
  rw [nil_append, backfill_groups, expectPeekToken, if_pos h.close]
  rfl

/-! ### Groups of fields -/

variable (readers) in
/-- Groups of fields up to the brace that closes the struct, without tags and defaults. -/
inductive ReadsFieldGroups : List Token → List Group → List Token → Prop
  | close {tokens : List Token} (brace : currentType tokens = .rightBrace) :
    ReadsFieldGroups tokens [] tokens
  | cons {tokens last last' lastName : List Token} {group : Group} {groups : List Group}
    (reads : ReadsGroup readers tokens group lastName last)
    (isFree : ∀ name ∈ group.names, readers.isReservedName name = false)
    (noTag : peekType last ≠ .rawString) (noDefault : peekType last ≠ .assign)
    (rest : ReadsFieldGroups (skipFieldSeparators last.tail) groups last') :
    ReadsFieldGroups tokens (group :: groups) last'

theorem readFieldNames_eq (hnam : ReadsNames tokens names lastName)
    (hpeek : peekType lastName ≠ .comma)
    (hfree : ∀ name ∈ names, readers.isReservedName name = false) (fuel : ℕ) :
    ∀ l, readFieldNames readers (fuel + names.length) l tokens =
      (some (l ++ names), lastName.tail) := by
  induction hnam with
  | single isName =>
    intro l
    rw [length_singleton, readFieldNames, isName.current, isName.literal,
      hfree _ mem_cons_self, if_neg (by decide), if_neg (by decide), if_neg hpeek]
  | cons isName comma rest ih =>
    intro l
    rw [length_cons, ← Nat.add_assoc, readFieldNames, isName.current, isName.literal,
      hfree _ mem_cons_self, if_neg (by decide), if_neg (by decide), if_pos comma,
      ih hpeek fun name hname => hfree name (mem_cons_of_mem _ hname), append_assoc,
      singleton_append]

/-- The fields of groups, without tags and defaults. -/
def typedFields (Expression : Type) (entries : List (Text × Text)) : List (Field Expression) :=
  entries.map fun entry => ⟨entry.1, entry.2, none, none⟩

theorem parseFields_group (l : List (Field Expression))
    (hgrp : ReadsGroup readers tokens group lastName last)
    (hfree : ∀ name ∈ group.names, readers.isReservedName name = false)
    (htag : peekType last ≠ .rawString) (hdef : peekType last ≠ .assign) :
    parseFields readers (fuel + 1) l tokens =
      parseFields readers fuel (l ++ typedFields Expression group.entries)
        (skipFieldSeparators last.tail) := by
  obtain ⟨name, hname⟩ := hgrp.readsNames.isName
  have hpeek : peekType lastName ≠ .comma := hgrp.peekType_ne (by decide)
  have hoth : startsOtherMember tokens = false := by simp [startsOtherMember, hname.current]
  obtain ⟨extra, hextra⟩ := Nat.exists_eq_add_of_le' hgrp.readsNames.length_le
  have hread := @readFieldNames_eq _ readers _ _ _ hgrp.readsNames hpeek hfree extra []
  rw [← hextra, nil_append] at hread
  rw [parseFields, hname.current, if_neg (by decide), hoth, if_neg Bool.false_ne_true, hread]
  dsimp only
  rw [hgrp.parseType_eq]
  dsimp only
  have htagNone : readFieldTag group.names last.tail = (none, last.tail) := if_neg htag
  have hdefaultNone : readFieldDefault readers last.tail = (none, last.tail) := if_neg hdef
  rw [bind_some, htagNone, hdefaultNone]
  simp [typedFields, Group.entries, Function.comp_def]

theorem parseFields_groups
    (h : ReadsFieldGroups readers tokens groups last) (fuel : ℕ) :
    ∀ l, parseFields readers (fuel + groups.length + 1) l tokens =
      some (l ++ typedFields Expression (groups.flatMap Group.entries), last) := by
  induction h with
  | close brace =>
    intro l
    rw [parseFields, brace, if_pos (by decide)]
    simp [typedFields]
  | cons reads isFree noTag noDefault rest ih =>
    intro l
    rw [length_cons, parseFields_group _ l reads isFree noTag noDefault, ← Nat.add_assoc, ih]
    simp [typedFields]

/-! ### A group of variables -/

/-- The variables of a group before they share the type of the last one. -/
def rawVariables : List Text → Text → List (Text × Option Text)
  | [], _ => []
  | [name], type => [(name, some type)]
  | name :: name' :: l, type => (name, none) :: rawVariables (name' :: l) type

theorem readVariableType_untyped (hcom : peekType tokens = .comma) :
    readVariableType readers tokens = some (none, tokens) := by
  rw [readVariableType, hcom, if_neg (by decide)]

theorem ReadsGroup.readVariableType_eq (h : ReadsGroup readers tokens group lastName last) :
    readVariableType readers lastName = some (some (spell group.type), last) := by
  have hst : peekType lastName ∈
      [.identifier, .caret, .leftBracket, .struct, .enum, .generic] :=
    (show [TokenType.identifier, .caret, .leftBracket] ⊆ _ by decide) h.peekType_mem
  rw [readVariableType, if_pos hst]
  dsimp only
  rw [h.parseType_eq]
  rfl

theorem readVariables_step {l : List (Text × Option Text)} {name : Text}
    (hcom : peekType tokens = .comma) (hname : IsName tokens.tail.tail name)
    (hlen : l.length < 16) : readVariables readers (fuel + 1) l tokens =
      (readVariableType readers tokens.tail.tail).bind fun (type, rest) =>
        readVariables readers fuel (l ++ [(name, type)]) rest := by
  have hst : peekType tokens.tail ∈ [TokenType.identifier, .blank] := by
    change currentType tokens.tail.tail ∈ _
    rw [hname.current]
    decide
  have hbla : currentType tokens.tail.tail ≠ .blank := by
    rw [hname.current]
    decide
  rw [readVariables, if_pos hcom, if_pos hst, if_neg (by omega)]
  dsimp only
  rw [if_neg hbla, hname.literal]

theorem readVariables_group (hgrp : ReadsGroup readers tokens group lastName last) :
    ∀ (before : List Token) (l : List (Text × Option Text)), before.tail.tail = tokens →
      peekType before = .comma → l.length + group.names.length ≤ 16 →
      readVariables readers (fuel + group.names.length) l before =
        readVariables readers fuel (l ++ rawVariables group.names (spell group.type)) last := by
  obtain ⟨hnam, htype, hacc⟩ := hgrp
  obtain ⟨names, type⟩ := group
  dsimp only at *
  induction hnam with
  | @single tokens name isName =>
    rintro before l rfl hcom hlen
    have hgrp := @ReadsGroup.mk _ readers _ ⟨_, type⟩ _ _ (.single isName) htype hacc
    rw [length_singleton] at hlen ⊢
    rw [readVariables_step fuel hcom isName (by omega), hgrp.readVariableType_eq]
    rfl
  | @cons tokens lastName name names isName comma rest ih =>
    rintro before l rfl hcom hlen
    have hraw : rawVariables (name :: names) (spell type) =
        (name, none) :: rawVariables names (spell type) := by
      cases rest <;> rfl
    rw [length_cons] at hlen ⊢
    rw [← Nat.add_assoc, readVariables_step _ hcom isName (by omega),
      readVariableType_untyped comma, bind_some]
    dsimp only
    rw [ih hacc htype _ _ rfl comma (by rw [length_append, length_singleton]; omega),
      hraw, append_assoc, singleton_append]

theorem rawVariables_concat (init : List Text) (name type : Text) :
    rawVariables (init ++ [name]) type = init.map (fun n => (n, none)) ++ [(name, some type)] := by
  induction init with
  | nil => rfl
  | cons first init ih =>
    have hcons : rawVariables (first :: (init ++ [name])) type =
        (first, none) :: rawVariables (init ++ [name]) type := by
      cases init <;> rfl
    rw [cons_append, hcons, ih, map_cons, cons_append]

theorem shareVariableType_raw {type : Text} (hne : names ≠ [])
    (hbla : ∀ name ∈ names, name ≠ bytes "_") :
    shareVariableType (rawVariables names type) = names.map fun name => (name, some type) := by
  obtain ⟨init, name, rfl⟩ := (eq_nil_or_concat' names).resolve_left hne
  have hname := hbla name (mem_append_right _ mem_cons_self)
  have hnone : ((init.map fun n => ((n, none) : Text × Option Text)).all
      fun v => v.2.isNone) = true := by
    simp
  rw [rawVariables_concat, shareVariableType, getLast?_concat]
  dsimp only
  rw [dropLast_concat, if_pos hnone, map_append, map_append, map_map]
  refine congrArg₂ (· ++ ·) (map_congr_left fun n hn => ?_) ?_
  · exact if_pos (hbla n (mem_append_left _ hn))
  · rw [map_singleton, if_pos hname, map_singleton]

theorem ReadsNames.notBlank (h : ReadsNames tokens names lastName) :
    names ≠ [] ∧ ∀ name ∈ names, name ≠ bytes "_" := by
  induction h with
  | single isName => exact ⟨cons_ne_nil _ _, by simpa using isName.notBlank⟩
  | cons isName comma rest ih =>
    refine ⟨cons_ne_nil _ _, fun name hname => ?_⟩
    rcases mem_cons.mp hname with rfl | hrest
    · exact isName.notBlank
    · exact ih.2 name hrest

theorem declaredVariables_group {fuel : ℕ} (isMutable : Bool)
    (hgrp : ReadsGroup readers tokens group lastName last) (hlast : peekType last ≠ .comma)
    (hstruct : spell group.type ≠ bytes "struct") (henum : spell group.type ≠ bytes "enum")
    (hlen : group.names.length ≤ 16) (hfuel : group.names.length ≤ fuel) :
    declaredVariables readers fuel isMutable tokens =
      some (group.entries.map fun entry => (entry.1, some entry.2), last) := by
  have htype := hgrp.readVariableType_eq
  have hnil : peekType lastName ≠ .nil := hgrp.peekType_ne (by decide)
  obtain ⟨hne, hbla⟩ := hgrp.readsNames.notBlank
  have hents : (group.entries.map fun entry => (entry.1, some entry.2)) =
      group.names.map fun name => (name, some (spell group.type)) := by
    rw [Group.entries, map_map]
    rfl
  rw [hents]
  obtain ⟨names, type⟩ := group
  obtain ⟨hnam, hrd, hacc⟩ := hgrp
  dsimp only at *
  cases hnam with
  | @single _ name isName =>
    have hdeclaration : ¬ (isMutable = true ∧ (some (spell type) = some (bytes "struct") ∨
        some (spell type) = some (bytes "enum"))) := by
      rintro ⟨-, h | h⟩
      · exact hstruct (some.inj h)
      · exact henum (some.inj h)
    rw [declaredVariables]
    dsimp only
    rw [if_neg hnil, htype, bind_some]
    dsimp only
    rw [if_neg hdeclaration, isName.literal, if_neg fun h => isName.notBlank h.1, if_neg hlast]
    rfl
  | @cons _ _ name names isName comma rest =>
    obtain ⟨extra, rfl⟩ := Nat.exists_eq_add_of_le' hfuel
    have hraw : [(name, none)] ++ rawVariables names (spell type) =
        rawVariables (name :: names) (spell type) := by
      cases rest <;> rfl
    have hloop := readVariables_group (extra + 1)
      (@ReadsGroup.mk _ readers _ ⟨names, type⟩ _ _ rest hrd hacc) tokens [(name, none)] rfl
      comma (by simpa [Nat.add_comm] using hlen)
    rw [readVariables, if_neg hlast, hraw] at hloop
    have hall : ¬ (peekType last ≠ .assign ∧
        ((((name :: names).map fun n => (n, some (spell type))).any
            fun v => v.1 == bytes "_") = true ∨
          (((name :: names).map fun n => (n, some (spell type))).any
            fun v => v.2.isNone) = true)) := by
      rintro ⟨-, h | h⟩
      · obtain ⟨v, hv, heq⟩ := any_eq_true.mp h
        obtain ⟨n, hn, rfl⟩ := mem_map.mp hv
        exact hbla n hn (beq_iff_eq.mp heq)
      · simp at h
    rw [declaredVariables]
    dsimp only
    rw [if_neg (by rw [comma]; decide), readVariableType_untyped comma, bind_some]
    dsimp only
    rw [if_neg (by rintro ⟨-, h | h⟩ <;> cases h), isName.literal,
      if_neg fun h => isName.notBlank h.1, if_pos comma, length_cons,
      show extra + (names.length + 1) = extra + 1 + names.length by omega, hloop, bind_some]
    dsimp only
    rw [shareVariableType_raw hne hbla, if_neg hall]

/-! ### Groups of results -/

/-- A type that is one identifier. -/
structure IsSimpleType (tokens : List Token) (type : Text) : Prop where
  current : currentType tokens = .identifier
  literal : currentLiteral tokens = type
  noMember : peekType tokens ≠ .dot

variable (readers) in
/-- Groups of results up to the parenthesis that closes the list. A name that is taken for a type
does not start a group, and several names share one identifier. -/
inductive ReadsReturnGroups : List Token → List Group → List Token → Prop
  | close {tokens : List Token} (parenthesis : currentType tokens = .rightParenthesis) :
    ReadsReturnGroups tokens [] tokens
  | cons {tokens last last' lastName : List Token} {group : Group} {groups : List Group}
    (reads : ReadsGroup readers tokens group lastName last)
    (isName : isReturnTypeName tokens = false)
    (shared : 2 ≤ group.names.length →
      IsSimpleType lastName.tail (spell group.type) ∧ last = lastName.tail)
    (rest : ReadsReturnGroups (if peekType last = .comma then last.tail.tail else last.tail)
      groups last') : ReadsReturnGroups tokens (group :: groups) last'

/-- The results of groups. -/
def typedReturns (entries : List (Text × Text)) : List ReturnSlot :=
  entries.map fun entry => ⟨some entry.1, some entry.2⟩

theorem collectShared_eq (hnam : ReadsNames tokens names lastName)
    (hlast : peekType lastName = .identifier) :
    ∀ (fuel : ℕ) (before : List Token) (l : List Text), before.tail.tail = tokens →
      peekType before = .comma → l.length + names.length ≤ 16 → names.length ≤ fuel →
      collectShared fuel l before = (l ++ names, false, lastName) := by
  have hpl : ∀ {tokens : List Token}, peekType tokens = .comma ∨ peekType tokens = .identifier →
        isComplexTypeStart tokens = false := by
    intro tokens h
    rcases h with h | h <;> simp [isComplexTypeStart, h]
  induction hnam with
  | @single tokens name isName =>
    rintro (_ | fuel) before l rfl hcom hlen hfuel
    · simp at hfuel
    have hnext : ¬ (currentType before.tail.tail ≠ .identifier ∨
        isComplexTypeStart before.tail.tail = true) := by
      rw [isName.current, hpl (.inr hlast)]
      simp
    rw [collectShared, if_pos hcom]
    dsimp only
    rw [if_neg hnext, isName.literal]
    split_ifs with hfull
    · rfl
    · -- No comma follows, so one more round changes nothing.
      cases fuel with
      | zero => rfl
      | succ fuel => rw [collectShared, if_neg (by rw [hlast]; decide)]
  | @cons tokens last name names isName comma rest ih =>
    rintro (_ | fuel) before l rfl hcom hlen hfuel
    · simp at hfuel
    have hnext : ¬ (currentType before.tail.tail ≠ .identifier ∨
        isComplexTypeStart before.tail.tail = true) := by
      rw [isName.current, hpl (.inl comma)]
      simp
    have hpos : 1 ≤ names.length := by cases rest <;> simp
    rw [length_cons] at hlen hfuel
    rw [collectShared, if_pos hcom]
    dsimp only
    rw [if_neg hnext, isName.literal, if_neg (by omega),
      ih hlast fuel _ _ rfl comma (by rw [length_append, length_singleton]; omega)
        (by omega), append_assoc, singleton_append]

theorem reserveShared_eq {type : Text} (htype : IsSimpleType tokens type) (names : List Text) :
    ∀ slots : List ReturnSlot, slots.length + names.length ≤ 16 → reserveShared slots names tokens =
        some (slots ++ names.map fun name => ⟨some name, some type⟩, tokens) := by
  have hread : readTypeName tokens = (type, tokens) := by
    rw [readTypeName, if_neg (by rw [htype.current]; decide), if_neg htype.noMember, htype.literal]
  induction names with
  | nil => simp [reserveShared]
  | cons name names ih =>
    intro slots hlen
    rw [length_cons] at hlen
    have hrest := ih (slots ++ [⟨some name, some type⟩])
      (by rw [length_append, length_singleton]; omega)
    rw [reserveShared, hread, reserveReturnSlot, if_neg (by omega), bind_some, hrest,
      append_assoc, singleton_append, map_cons]

theorem readReturn_group {slots : List ReturnSlot}
    (hgrp : ReadsGroup readers tokens group lastName last)
    (hname : isReturnTypeName tokens = false)
    (hshared : 2 ≤ group.names.length →
      IsSimpleType lastName.tail (spell group.type) ∧ last = lastName.tail)
    (hlen : slots.length + group.names.length ≤ 16) :
    readReturn readers slots tokens = some (slots ++ typedReturns group.entries, last) := by
  have hpeek := hgrp.peekType_mem
  have htype := hgrp.parseType_eq
  have hents : typedReturns group.entries =
      group.names.map fun name => ⟨some name, some (spell group.type)⟩ := by
    rw [typedReturns, Group.entries, map_map]
    rfl
  rw [hents]
  obtain ⟨names, type⟩ := group
  obtain ⟨hnam, -, -⟩ := hgrp
  dsimp only at *
  have hle := hnam.length_le
  cases hnam with
  | @single _ name isName =>
    have hst : peekType tokens ∈ [TokenType.identifier, .generic, .leftBracket, .caret] :=
      (show [TokenType.identifier, .caret, .leftBracket] ⊆ _ by decide) hpeek
    rw [length_singleton] at hlen
    rw [readReturn, hname]
    dsimp only
    rw [if_pos ⟨isName.current, by simp, hst⟩, htype, reserveReturnSlot, if_neg (by omega),
      isName.literal]
    rfl
  | @cons _ _ name names isName comma rest =>
    have hpos : 1 ≤ names.length := by cases rest <;> simp
    obtain ⟨hsimple, rfl⟩ := hshared (by rw [length_cons]; omega)
    have hlast : peekType lastName = .identifier := hsimple.current
    have hfst : ¬ (currentType tokens = .identifier ∧
        ¬ (false = true ∧ isComplexTypeStart tokens = true) ∧
        peekType tokens ∈ [TokenType.identifier, .generic, .leftBracket, .caret]) := by
      rw [comma]
      exact fun h => absurd h.2.2 (by decide)
    rw [length_cons] at hlen hle
    have hcollect := collectShared_eq rest hlast tokens.length tokens [name] rfl comma
      (by rw [length_singleton]; omega) (by omega)
    have hpl : ¬ (false = true ∨ peekType lastName = .rightParenthesis) := by
      rw [hlast]
      decide
    rw [readReturn, hname]
    dsimp only
    rw [if_neg hfst, if_pos ⟨isName.current, comma, Bool.false_ne_true⟩, isName.literal, hcollect]
    dsimp only
    rw [if_neg hpl, if_pos hlast, singleton_append,
      reserveShared_eq hsimple _ _ (by rw [length_cons]; omega)]

theorem parseReturns_groups
    (h : ReadsReturnGroups readers tokens groups last) (fuel : ℕ) :
    ∀ slots : List ReturnSlot, slots.length + nameCount groups ≤ 16 →
      parseReturns readers (fuel + groups.length + 1) slots tokens =
        some (slots ++ typedReturns (groups.flatMap Group.entries), last) := by
  induction h with
  | close parenthesis =>
    intro slots _
    rw [parseReturns, parenthesis, if_pos (by decide)]
    simp [typedReturns]
  | @cons tokens last last' lastName group groups reads isName shared rest ih =>
    intro slots hlen
    obtain ⟨name, hname⟩ := reads.readsNames.isName
    rw [nameCount, map_cons, sum_cons, ← nameCount] at hlen
    have hents : (typedReturns group.entries).length = group.names.length := by
      rw [typedReturns, Group.entries, length_map, length_map]
    rw [length_cons, parseReturns, hname.current, if_neg (by decide),
      readReturn_group reads isName shared (by omega), bind_some]
    dsimp only
    rw [← Nat.add_assoc, ih _ (by rw [length_append, hents]; omega), flatMap_cons, append_assoc]
    simp [typedReturns]

end Group

/-! ### The four places -/

variable {readers}

/-- What is read from groups: every name has the type that is written behind its group, and groups
of parameters, fields and results follow one another. -/
theorem groups_share_type : (∀ {tokens last : List Token} {groups : List Group},
      ReadsParameterGroups readers tokens.tail groups last → ∀ fuel, nameCount groups ≤ fuel →
        parseParameters readers fuel tokens =
          some (typedParameters Expression (groups.flatMap Group.entries), last.tail)) ∧
    (∀ {tokens last : List Token} {groups : List Group},
      ReadsFieldGroups readers tokens groups last → ∀ fuel, groups.length < fuel →
        parseFields readers fuel [] tokens =
          some (typedFields Expression (groups.flatMap Group.entries), last)) ∧
    (∀ {tokens lastName last : List Token} {group : Group} (isMutable : Bool),
      ReadsGroup readers tokens group lastName last → peekType last ≠ .comma →
        spell group.type ≠ bytes "struct" → spell group.type ≠ bytes "enum" →
          group.names.length ≤ 16 → ∀ fuel, group.names.length ≤ fuel →
            declaredVariables readers fuel isMutable tokens =
              some (group.entries.map fun entry => (entry.1, some entry.2), last)) ∧
    ∀ {tokens last : List Token} {groups : List Group},
      ReadsReturnGroups readers tokens groups last → nameCount groups ≤ 16 →
        ∀ fuel, groups.length < fuel → parseReturns readers fuel [] tokens =
            some (typedReturns (groups.flatMap Group.entries), last) := by
  refine ⟨fun h fuel hfuel => parseParameters_groups h fuel hfuel, fun h fuel hfuel => ?_,
    fun isMutable hgrp hlast hstruct henum hlen fuel hfuel =>
      declaredVariables_group isMutable hgrp hlast hstruct henum hlen hfuel,
    fun h hlen fuel hfuel => ?_⟩
  · obtain ⟨extra, rfl⟩ := Nat.exists_eq_add_of_le' hfuel
    exact parseFields_groups h extra []
  · obtain ⟨extra, rfl⟩ := Nat.exists_eq_add_of_le' hfuel
    exact parseReturns_groups h extra [] (by simpa using hlen)

/-- Readers for a scope in which only `print` is reserved. -/
def plainReaders : Readers Unit where
  typeFuel := 20
  stopAfterError tokens := tokens
  parseExpression tokens := (none, tokens)
  readMember tokens := tokens
  isReservedName name := name == bytes "print"

/-- A token in the first line. -/
def plainToken (type : TokenType) (literal : Text) : Token := ⟨type, literal, 1, 1, none, false⟩

def commaToken : Token := plainToken .comma (bytes ",")

/-- Identifiers with commas between them. -/
def nameTokens : List Text → List Token
  | [] => []
  | [name] => [plainToken .identifier name]
  | name :: name' :: l => plainToken .identifier name :: commaToken :: nameTokens (name' :: l)

/-- `[i64]` and what follows it. -/
def arrayTokens (rest : List Token) : List Token :=
  plainToken .leftBracket (bytes "[") :: plainToken .identifier (bytes "i64") ::
    plainToken .rightBracket (bytes "]") :: rest

/-- `(a, b [i64])`, behind the parenthesis. -/
def sharedArrayTokens : List Token :=
  nameTokens [bytes "a", bytes "b"] ++ arrayTokens [plainToken .rightParenthesis (bytes ")")]

/-- The group `a, b [i64]`. -/
def sharedArray : Group := ⟨[bytes "a", bytes "b"], .array (.name nameI64)⟩

theorem readsGroup_sharedArray : ReadsGroup plainReaders sharedArrayTokens sharedArray
    (sharedArrayTokens.drop 2) (sharedArrayTokens.drop 5) where
  readsNames := .cons ⟨rfl, rfl, by decide⟩ rfl (.single ⟨rfl, rfl, by decide⟩)
  readsType := .array rfl (.name (.simple rfl rfl (by decide)) rfl) rfl
  accepted := by decide

/-- `a, b [i64]` as parameters, and as variables with a value. -/
theorem groups_share_type_array : parseParameters plainReaders 2
        (plainToken .leftParenthesis (bytes "(") :: sharedArrayTokens) =
      some ([⟨bytes "a", false, some (bytes "[i64]"), false, none⟩,
        ⟨bytes "b", false, some (bytes "[i64]"), false, none⟩],
        [plainToken .rightParenthesis (bytes ")")]) ∧
    declaredVariables plainReaders 2 true sharedArrayTokens =
      some ([(bytes "a", some (bytes "[i64]")), (bytes "b", some (bytes "[i64]"))],
        sharedArrayTokens.drop 5) := ⟨@(@groups_share_type Unit plainReaders).1
      (plainToken .leftParenthesis (bytes "(") :: sharedArrayTokens) _ [sharedArray]
      (.single readsGroup_sharedArray rfl) 2 (by decide),
    (@groups_share_type Unit plainReaders).2.2.1 true readsGroup_sharedArray (by decide) (by decide)
      (by decide) (by decide) 2 (by decide)⟩

/-- In `x, y i64, z f64 =`, each variable has the type behind its own name; 17 variables are
refused; `print` is no field; and `(a, b [i64])` is read as the one type `[i64]`. -/
theorem groups_not_shared : (declaredVariables plainReaders 4 true
        (nameTokens [bytes "x", bytes "y"] ++ plainToken .identifier (bytes "i64") :: commaToken ::
          nameTokens [bytes "z"] ++ [plainToken .identifier (bytes "f64"),
            plainToken .assign (bytes "=")])).map Prod.fst =
      some [(bytes "x", none), (bytes "y", some (bytes "i64")), (bytes "z", some (bytes "f64"))] ∧
    declaredVariables plainReaders 20 true
        (nameTokens (replicate 17 (bytes "x")) ++ [plainToken .identifier (bytes "i64")]) =
      none ∧ (parseFields plainReaders 4 [] (nameTokens [bytes "print"] ++
        [plainToken .identifier (bytes "i64"), plainToken .rightBrace (bytes "\x7d")])).map Prod.fst =
      some [] ∧ (parseReturns plainReaders 4 [] sharedArrayTokens).map Prod.fst =
      some [⟨none, some (bytes "[i64]")⟩] := by
  decide

end Grayscale.NameGroups
