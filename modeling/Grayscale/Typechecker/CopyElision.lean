import Grayscale.Lexer.Token
import Grayscale.Library.ValueTree

/-!
# Elided array copies

`mut xs = place` shares the storage of `place` if `xs` is stored back, the statements between leave
the place alone, and the ones after it do not mention `xs`. The check compares the place and the
target of the store by their spelling.
-/

namespace Grayscale

/-! ### Places -/

/-- A value without parts. -/
inductive Scalar
  | integer (value : ℤ)
  | float (bits : UInt64)
  | string (value : Text)
  | char (codepoint : ℕ)
  | bool (value : Bool)
deriving DecidableEq

/-- An expression. `isScalar` says whether the type table has a plain scalar for it. -/
inductive ElisionExpression
  | label (isScalar : Bool) (value : Text)
  | integerLiteral (value : ℤ)
  | literal (value : Scalar)
  | nilValue
  | interpolatedString (parts : List ElisionExpression)
  | arrayValue (elements : List ElisionExpression)
  | mapValue (keys values : List ElisionExpression)
  | structValue (fieldNames : List Text) (fieldValues : List ElisionExpression)
  | prefixExpression (operator : TokenType) (right : ElisionExpression)
  | infixExpression (operator : TokenType) (left right : ElisionExpression)
  | postfixExpression (operator : TokenType) (left : ElisionExpression)
  | indexExpression (isScalar : Bool) (left index : ElisionExpression)
  | memberExpression (object : ElisionExpression) (member : Text)
  | callExpression (function : ElisionExpression) (arguments : List ElisionExpression)
  | other

/-- A statement. `isScalar` says whether the type table has a plain scalar for the value, and
`isArray` whether it has an array. -/
inductive ElisionStatement
  | expressionStatement (expression : ElisionExpression)
  | variableDeclaration (isMutable isSynthetic : Bool) (name : Text) (value : ElisionExpression)
    (isScalar isArray : Bool)
  | assignStatement (operator : TokenType) (target value : ElisionExpression) (isScalar : Bool)
  | returnStatement (values : List ElisionExpression)
  | other

def placeRootLabel : ElisionExpression → Option Text
  | .label _ value => some value
  | .memberExpression object _ => placeRootLabel object
  | .indexExpression _ left _ => placeRootLabel left
  | .postfixExpression operator left => if operator = .caret then placeRootLabel left else none
  | _ => none

/-- An index that `place_is_pure` allows. -/
def indexIsPure : ElisionExpression → Bool
  | .integerLiteral _ => true
  | .label _ _ => true
  | _ => false

def placeIsPure : ElisionExpression → Bool
  | .label _ _ => true
  | .memberExpression object _ => placeIsPure object
  | .indexExpression _ left index => indexIsPure index && placeIsPure left
  | .postfixExpression operator left => operator = .caret && placeIsPure left
  | _ => false

def placesEqual : ElisionExpression → ElisionExpression → Bool
  | .label _ left, .label _ right => left == right
  | .integerLiteral left, .integerLiteral right => left == right
  | .memberExpression left member, .memberExpression right member' =>
    member == member' && placesEqual left right
  | .indexExpression _ left index, .indexExpression _ right index' =>
    placesEqual left right && placesEqual index index'
  | .postfixExpression operator left, .postfixExpression operator' right =>
    operator = operator' && placesEqual left right
  | _, _ => false

/-! ### The check -/

mutual

def expressionMentions (name : Text) : ElisionExpression → Bool
  | .label _ value => value == name
  | .integerLiteral _ => false
  | .literal _ => false
  | .nilValue => false
  | .interpolatedString parts => anyMentions name parts
  | .arrayValue elements => anyMentions name elements
  | .mapValue keys values => anyMentions name keys || anyMentions name values
  | .structValue _ fieldValues => anyMentions name fieldValues
  | .prefixExpression _ right => expressionMentions name right
  | .infixExpression _ left right => expressionMentions name left || expressionMentions name right
  | .postfixExpression _ left => expressionMentions name left
  | .indexExpression _ left index => expressionMentions name left || expressionMentions name index
  | .memberExpression object _ => expressionMentions name object
  | .callExpression function arguments => expressionMentions name function || anyMentions name arguments
  | .other => true

def anyMentions (name : Text) : List ElisionExpression → Bool
  | [] => false
  | expression :: l => expressionMentions name expression || anyMentions name l

end

/-- What the checker knows of names: the ones that are not in scope, and stand for modules of the
standard library that are imported. -/
structure ElisionChecker where
  isStandardModule : Text → Bool

/-- A call of a function of the standard library, or of `len`. -/
def isStandardCall (checker : ElisionChecker) : ElisionExpression → Bool
  | .memberExpression (.label _ moduleName) _ => checker.isStandardModule moduleName
  | .label _ value => value == bytes "len"
  | _ => false

def isArrayLabel (arrayName : Text) : ElisionExpression → Bool
  | .label _ value => value == arrayName
  | _ => false

section Check

variable (checker : ElisionChecker) (arrayName rootName : Text)

mutual

def expressionLeavesPlaceAlone : ElisionExpression → Bool
  | .label isScalar value => !(value == arrayName || value == rootName) && isScalar
  | .integerLiteral _ => true
  | .literal _ => true
  | .interpolatedString parts => allLeavePlaceAlone parts
  | .structValue _ fieldValues => allLeavePlaceAlone fieldValues
  | .prefixExpression _ right => expressionLeavesPlaceAlone right
  | .infixExpression _ left right => expressionLeavesPlaceAlone left && expressionLeavesPlaceAlone right
  | .indexExpression isScalar left index =>
    isArrayLabel arrayName left && isScalar && expressionLeavesPlaceAlone index
  | .callExpression function arguments =>
    isStandardCall checker function && argumentsLeavePlaceAlone arguments
  | _ => false

def allLeavePlaceAlone : List ElisionExpression → Bool
  | [] => true
  | expression :: l => expressionLeavesPlaceAlone expression && allLeavePlaceAlone l

def argumentsLeavePlaceAlone : List ElisionExpression → Bool
  | [] => true
  | argument :: l =>
    (isArrayLabel arrayName argument || expressionLeavesPlaceAlone argument) &&
      argumentsLeavePlaceAlone l

end

/-- A target that `statement_leaves_place_alone` allows: a scalar variable or an element of the
array. -/
def targetLeavesPlaceAlone : ElisionExpression → Bool
  | .label isScalar value => !(value == arrayName) && !(value == rootName) && isScalar
  | .indexExpression _ left index =>
    isArrayLabel arrayName left && expressionLeavesPlaceAlone checker arrayName rootName index
  | _ => false

def statementLeavesPlaceAlone : ElisionStatement → Bool
  | .expressionStatement expression => expressionLeavesPlaceAlone checker arrayName rootName expression
  | .variableDeclaration _ _ _ value isScalar _ =>
    isScalar && expressionLeavesPlaceAlone checker arrayName rootName value
  | .assignStatement _ target value isScalar =>
    targetLeavesPlaceAlone checker arrayName rootName target && isScalar &&
      expressionLeavesPlaceAlone checker arrayName rootName value
  | _ => false

end Check

def statementIgnoresArray (arrayName : Text) : ElisionStatement → Bool
  | .expressionStatement expression => !expressionMentions arrayName expression
  | .variableDeclaration _ _ _ value _ _ => !expressionMentions arrayName value
  | .assignStatement _ target value _ =>
    !expressionMentions arrayName target && !expressionMentions arrayName value
  | .returnStatement values => !anyMentions arrayName values
  | .other => false

def storedToPlace (place : ElisionExpression) : ElisionStatement → Option ElisionExpression
  | .assignStatement operator target value _ =>
    if operator = .assign ∧ placesEqual target place = true then some value else none
  | _ => none

/-- The loop of `mark_elided_array_copies` over the statements after a declaration: the ones before
the store and the ones after it. -/
def findStoreBack (checker : ElisionChecker) (arrayName rootName : Text) (place : ElisionExpression) :
    List ElisionStatement → Option (List ElisionStatement × List ElisionStatement)
  | [] => none
  | statement :: l =>
    match storedToPlace place statement with
    | some stored =>
      if isArrayLabel arrayName stored && l.all (statementIgnoresArray arrayName) then some ([], l)
      else none
    | none =>
      if statementLeavesPlaceAlone checker arrayName rootName statement then
        (findStoreBack checker arrayName rootName place l).map fun parts =>
          (statement :: parts.1, parts.2)
      else none

/-- A copy that is elided: the array, the place, and the statements before and after the store. -/
structure ElidedCopy where
  arrayName : Text
  rootName : Text
  place : ElisionExpression
  between : List ElisionStatement
  after : List ElisionStatement

/-- Whether the type of the value of a declaration allows that its copy is elided. -/
def isCopiedPlace : ElisionExpression → Bool
  | .memberExpression _ _ => true
  | .indexExpression _ _ _ => true
  | _ => false

/-- `mark_elided_array_copies` at one declaration of a block, with the statements after it. -/
def elidedCopy (checker : ElisionChecker) (declaration : ElisionStatement)
    (rest : List ElisionStatement) : Option ElidedCopy :=
  match declaration with
  | .variableDeclaration true false arrayName place _ true =>
    if isCopiedPlace place && placeIsPure place then
      (placeRootLabel place).bind fun rootName =>
        if rootName == arrayName then none
        else (findStoreBack checker arrayName rootName place rest).map fun parts =>
          ⟨arrayName, rootName, place, parts.1, parts.2⟩
    else none
  | _ => none

/-- The declarations of a block that `mark_elided_array_copies` flags. -/
def markElidedArrayCopies (checker : ElisionChecker) : List ElisionStatement → List Bool
  | [] => []
  | statement :: l => (elidedCopy checker statement l).isSome :: markElidedArrayCopies checker l

/-! ### Stores -/

/-- The keys of records: the fields of structs and the keys of maps. -/
inductive PlaceKey
  | field (name : Text)
  | entry (key : Scalar)
deriving DecidableEq

/-- The roots of places: the variables, and the objects that pointers point to. -/
inductive PlaceRoot
  | name (name : Text)
  | object (index : ℕ)
deriving DecidableEq

abbrev PlaceValue := ValueTree PlaceKey Scalar PlaceRoot

/-- The values of the variables and the objects. -/
abbrev PlaceStore := ValueStore PlaceKey Scalar PlaceRoot

/-- A value without parts. -/
def scalarOf : Option PlaceValue → Option Scalar
  | some (.leaf value) => some value
  | _ => none

def indexScalar (store : PlaceStore) : ElisionExpression → Option Scalar
  | .integerLiteral value => some (.integer value)
  | .label _ value => scalarOf (store (.name value))
  | _ => none

/-- The part of a value that an index stands for: an element or an entry. -/
def indexSelector : ValueKind PlaceRoot → Scalar → Option (Selector PlaceKey)
  | .array, .integer value => if 0 ≤ value then some (.element value.toNat) else none
  | .record, key => some (.entry (.entry key))
  | _, _ => none

def resolvePlace (store : PlaceStore) : ElisionExpression → Option (Address PlaceKey PlaceRoot)
  | .label _ value => some ⟨.name value, []⟩
  | .memberExpression object member =>
    (resolvePlace store object).map fun a => a.select (.entry (.field member))
  | .indexExpression _ left index =>
    (resolvePlace store left).bind fun a => (kindAt store a).bind fun kind =>
      (indexScalar store index).bind fun key => (indexSelector kind key).map a.select
  | .postfixExpression _ left =>
    (resolvePlace store left).bind fun a =>
      match kindAt store a with
      | some (.pointer root) => some ⟨root, []⟩
      | _ => none
  | _ => none

def placeReads (store : PlaceStore) : ElisionExpression → List (Address PlaceKey PlaceRoot)
  | .memberExpression object _ => placeReads store object
  | .indexExpression _ left _ => placeReads store left ++ (resolvePlace store left).toList
  | .postfixExpression _ left => placeReads store left ++ (resolvePlace store left).toList
  | _ => []

/-- The variables that index a place. -/
def indexNames : ElisionExpression → List Text
  | .memberExpression object _ => indexNames object
  | .indexExpression _ left (.label _ value) => indexNames left ++ [value]
  | .indexExpression _ left _ => indexNames left
  | .postfixExpression _ left => indexNames left
  | _ => []

/-! ### Executions -/

/-- What a call of the standard library does: its result, the elements of an array that is passed to
it, whether they have moved to other storage, what is left in the old one, and its output. -/
structure CallResult where
  value : PlaceValue
  elements : List PlaceValue
  isMoved : Bool
  leftover : List PlaceValue
  output : Text

/-- What operators and the standard library do with values. -/
structure ElisionMachine where
  prefixValue : TokenType → PlaceValue → Option PlaceValue
  shortCircuit : TokenType → PlaceValue → Option PlaceValue
  infixValue : TokenType → PlaceValue → PlaceValue → Option PlaceValue
  interpolate : List PlaceValue → Option PlaceValue
  structValue : List Text → List PlaceValue → PlaceValue
  call : ElisionExpression → List (Option PlaceValue) → List PlaceValue → Option CallResult

/-- How the statements between the copy and the store use the state: the scalar variables, the
array, and the output. -/
structure ArrayAccess (σ : Type) where
  lookup : σ → Text → Option Scalar
  declare : σ → Text → Scalar → σ
  elements : σ → List PlaceValue
  setElement : σ → ℕ → PlaceValue → σ
  called : σ → CallResult → σ
  output : σ → Text
  print : σ → Text → σ

section Execution

variable {σ : Type} (access : ArrayAccess σ) (machine : ElisionMachine) (arrayName : Text)

/-- A value, or the end of the program, with its output. -/
def orPanic {α : Type} (value : Option α) (state : σ) : Except Text (α × σ) :=
  match value with
  | none => .error (access.output state)
  | some value => .ok (value, state)

mutual

/-- The evaluation of an expression that leaves the place alone. -/
def evaluate : ElisionExpression → σ → Except Text (PlaceValue × σ)
  | .label _ value, state => orPanic access ((access.lookup state value).map .leaf) state
  | .integerLiteral value, state => .ok (.leaf (.integer value), state)
  | .literal value, state => .ok (.leaf value, state)
  | .interpolatedString parts, state =>
    (evaluateAll parts state).bind fun p => orPanic access (machine.interpolate p.1) p.2
  | .structValue fieldNames fieldValues, state =>
    (evaluateAll fieldValues state).bind fun p => .ok (machine.structValue fieldNames p.1, p.2)
  | .prefixExpression operator right, state =>
    (evaluate right state).bind fun p => orPanic access (machine.prefixValue operator p.1) p.2
  | .infixExpression operator left right, state =>
    (evaluate left state).bind fun p =>
      match machine.shortCircuit operator p.1 with
      | some value => .ok (value, p.2)
      | none =>
        (evaluate right p.2).bind fun q => orPanic access (machine.infixValue operator p.1 q.1) q.2
  | .indexExpression _ _ index, state =>
    (evaluate index state).bind fun p =>
      match p.1 with
      | .leaf (.integer value) =>
        orPanic access (if 0 ≤ value then (access.elements p.2)[value.toNat]? else none) p.2
      | _ => .error (access.output p.2)
  | .callExpression function arguments, state =>
    (evaluateArguments arguments state).bind fun p =>
      (orPanic access (machine.call function p.1 (access.elements p.2)) p.2).bind fun q =>
        .ok (q.1.value, access.print
          (if p.1.any Option.isNone then access.called q.2 q.1 else q.2) q.1.output)
  | _, state => .error (access.output state)

/-- The evaluation of expressions from left to right. -/
def evaluateAll : List ElisionExpression → σ → Except Text (List PlaceValue × σ)
  | [], state => .ok ([], state)
  | expression :: l, state =>
    (evaluate expression state).bind fun p =>
      (evaluateAll l p.2).bind fun q => .ok (p.1 :: q.1, q.2)

/-- The evaluation of arguments; the array itself is passed as `none`. -/
def evaluateArguments : List ElisionExpression → σ → Except Text (List (Option PlaceValue) × σ)
  | [], state => .ok ([], state)
  | argument :: l, state =>
    if isArrayLabel arrayName argument then
      (evaluateArguments l state).bind fun q => .ok (none :: q.1, q.2)
    else
      (evaluate argument state).bind fun p =>
        (evaluateArguments l p.2).bind fun q => .ok (some p.1 :: q.1, q.2)

end

def assignedValue (operator : TokenType) (old value : PlaceValue) : Option PlaceValue :=
  if operator = .assign then some value else machine.infixValue operator old value

/-- The execution of a statement that leaves the place alone. Scalar variables hold scalars. -/
def execute : ElisionStatement → σ → Except Text σ
  | .expressionStatement expression, state =>
    (evaluate access machine arrayName expression state).map Prod.snd
  | .variableDeclaration _ _ name value _ _, state =>
    (evaluate access machine arrayName value state).bind fun p =>
      (orPanic access (scalarOf (some p.1)) p.2).map fun q => access.declare q.2 name q.1
  | .assignStatement operator (.label _ name) value _, state =>
    (evaluate access machine arrayName value state).bind fun p =>
      (orPanic access ((access.lookup p.2 name).bind fun old =>
        scalarOf (assignedValue machine operator (.leaf old) p.1)) p.2).map fun q =>
          access.declare q.2 name q.1
  | .assignStatement operator (.indexExpression _ _ index) value _, state =>
    (evaluate access machine arrayName index state).bind fun p =>
      (evaluate access machine arrayName value p.2).bind fun q =>
        match p.1 with
        | .leaf (.integer i) =>
          (orPanic access (if 0 ≤ i then ((access.elements q.2)[i.toNat]?).bind fun old =>
            assignedValue machine operator old q.1 else none) q.2).map fun r =>
              access.setElement r.2 i.toNat r.1
        | _ => .error (access.output q.2)
  | _, state => .error (access.output state)

def executeAll : List ElisionStatement → σ → Except Text σ
  | [], state => .ok state
  | statement :: l, state => (execute access machine arrayName statement state).bind (executeAll l)

end Execution

/-! ### The copy and the shared storage -/

/-- The state with a copy: the elements of the array are its own. -/
structure CopiedState where
  store : PlaceStore
  elements : List PlaceValue
  output : Text

/-- How statements use the copy. -/
def copiedAccess : ArrayAccess CopiedState where
  lookup state name := scalarOf (state.store (.name name))
  declare state name value :=
    { state with store := Function.update state.store (.name name) (some (.leaf value)) }
  elements state := state.elements
  setElement state index value := { state with elements := state.elements.set index value }
  called state result := { state with elements := result.elements }
  output state := state.output
  print state text := { state with output := state.output ++ text }

/-- The state with the storage of the place shared: the elements are those at the place, until a
call moves them. -/
structure SharedState where
  store : PlaceStore
  moved : Option (List PlaceValue)
  output : Text

def elementsAt (store : PlaceStore) (a : Address PlaceKey PlaceRoot) : List PlaceValue :=
  match readAt store a with
  | some (.array elements) => elements
  | _ => []

/-- The elements of the array, which are at the place until they have moved. -/
def SharedState.elements (a : Address PlaceKey PlaceRoot) (state : SharedState) : List PlaceValue :=
  state.moved.getD (elementsAt state.store a)

/-- How statements use the shared storage at an address. -/
def sharedAccess (a : Address PlaceKey PlaceRoot) : ArrayAccess SharedState where
  lookup state name := scalarOf (state.store (.name name))
  declare state name value :=
    { state with store := Function.update state.store (.name name) (some (.leaf value)) }
  elements state := state.elements a
  setElement state index value :=
    match state.moved with
    | some elements => { state with moved := some (elements.set index value) }
    | none => { state with
        store := writeAt state.store a (.array ((elementsAt state.store a).set index value)) }
  called state result :=
    match state.moved with
    | some _ => { state with moved := some result.elements }
    | none =>
      if result.isMoved then
        { state with store := writeAt state.store a (.array result.leftover), moved := some result.elements }
      else { state with store := writeAt state.store a (.array result.elements) }
  output state := state.output
  print state text := { state with output := state.output ++ text }

/-- What the statements after the store do: they do not mention the array. -/
abbrev LaterStatements := PlaceStore → Text → Except Text (PlaceStore × Text)

/-- The store to a place that is there, and the statements after it. -/
def storeBack (store : PlaceStore) (place : Option (Address PlaceKey PlaceRoot))
    (elements : List PlaceValue) (output : Text) (later : LaterStatements) :
    Except Text (PlaceStore × Text) :=
  match place with
  | none => .error output
  | some a =>
    if (readAt store a).isSome then later (writeAt store a (.array elements)) output else .error output

def arrayAt (store : PlaceStore) (a : Address PlaceKey PlaceRoot) : Option (List PlaceValue) :=
  match readAt store a with
  | some (.array elements) => some elements
  | _ => none

/-- A block from the declaration on, with a copy of the place. -/
def runCopied (machine : ElisionMachine) (copy : ElidedCopy) (later : LaterStatements)
    (store : PlaceStore) : Except Text (PlaceStore × Text) :=
  match (resolvePlace store copy.place).bind (arrayAt store) with
  | none => .error []
  | some elements =>
    (executeAll copiedAccess machine copy.arrayName copy.between ⟨store, elements, []⟩).bind
      fun state => storeBack state.store (resolvePlace state.store copy.place) state.elements
        state.output later

/-- The store where the array of the place has its own length again. -/
def SharedState.settled (a : Address PlaceKey PlaceRoot) (length : ℕ) (state : SharedState) :
    PlaceStore :=
  match state.moved with
  | some _ => state.store
  | none => writeAt state.store a (.array ((elementsAt state.store a).take length))

/-- A block from the declaration on, with the storage of the place shared. -/
def runShared (machine : ElisionMachine) (copy : ElidedCopy) (later : LaterStatements)
    (store : PlaceStore) : Except Text (PlaceStore × Text) :=
  match resolvePlace store copy.place with
  | none => .error []
  | some a =>
    match arrayAt store a with
    | none => .error []
    | some elements =>
      (executeAll (sharedAccess a) machine copy.arrayName copy.between ⟨store, none, []⟩).bind
        fun state => storeBack (state.settled a elements.length)
          (resolvePlace state.store copy.place) (state.elements a) state.output later

end Grayscale
