import Grayscale.Util.Bytes
import Mathlib.Data.Int.Bitwise

/-!
# The missing-return analysis

`all_paths_return` decides from the syntax of a function body whether every path through it ends in
a `return`. A `#strict` `when` counts as total, because the exhaustiveness check has looked at it.
Only what the two checks read of a statement is modelled: a declaration, an assignment, an
expression statement and an `ensure` are all plain statements.
-/

namespace Grayscale

/-! ### Subjects and case values -/

/-- A value of a `when` subject, as `==` sees it. The value of a tagged enum is its tag. -/
inductive SubjectValue
  | integer (n : ℤ)
  | text (t : Text)
  | bool (b : Bool)
  deriving DecidableEq

/-- An enum: its variants with their values, in the order of the declaration. -/
structure EnumDeclaration where
  name : Text
  isFlags : Bool
  variants : List (Text × SubjectValue)

def EnumDeclaration.variantValue (e : EnumDeclaration) (variant : Text) : Option SubjectValue :=
  (e.variants.find? fun v => v.1 == variant).map Prod.snd

/-- All the bits of the variants of a flags enum. -/
def EnumDeclaration.mask (e : EnumDeclaration) : ℤ :=
  e.variants.foldl (fun mask v => match v.2 with | .integer n => Int.lor mask n | _ => mask) 0

/-- The values of an enum, those that `gray_enum_cast_check` lets through: any combination of bits
of a flags enum, the declared values of another one. -/
def EnumDeclaration.HasValue (e : EnumDeclaration) (v : SubjectValue) : Prop :=
  if e.isFlags then
    match v with
    | .integer n => 0 ≤ n ∧ Int.land n (Int.lnot e.mask) = 0
    | _ => False
  else v ∈ e.variants.map Prod.snd

/-- The type of a `when` subject. -/
inductive SubjectType
  | enum (declaration : EnumDeclaration)
  | bool
  | other

def SubjectType.HasValue : SubjectType → SubjectValue → Prop
  | .enum declaration, v => declaration.HasValue v
  | .bool, v => ∃ b, v = .bool b
  | .other, _ => True

/-- What a member of a case value is taken from: a name, which may be that of a variable, a member
of a name, or any other expression. -/
inductive MemberObject
  | label (name : Text) (isVariable : Bool)
  | member (qualifier : Text) (isVariable : Bool) (typeName : Text)
  | other

/-- A value of an `is` branch. -/
inductive CaseValue
  | member (object : MemberObject) (member : Text)
  | implicitEnum (resolvedEnum : Option Text) (variant : Text)
  | whenPattern (enumName : Option Text) (variant : Text)
  | integerLiteral (value : ℕ)
  | boolValue (value : Bool)
  | other

/-- The enums that the names of a file stand for (`find_enum_index`). -/
abbrev Enums := Text → Option EnumDeclaration

/-- A name as written with its module: `mod.Type`. -/
def qualifiedName (qualifier typeName : Text) : Text := qualifier ++ [byte '.'] ++ typeName

/-- The enum that a case value names, from which `#strict` infers the enum of the subject. -/
def caseEnumName (enums : Enums) : CaseValue → Option Text
  | .member (.label name _) _ => if (enums name).isSome then some name else none
  | .member (.member qualifier _ typeName) _ =>
    if (enums (qualifiedName qualifier typeName)).isSome then
      some (qualifiedName qualifier typeName)
    else none
  | .implicitEnum resolvedEnum _ => resolvedEnum
  | .whenPattern enumName _ => enumName
  | _ => none

def caseCovers (index : ℕ) (variant : Text) : CaseValue → Bool
  | .member (.label _ _) member => member == variant
  | .member (.member _ _ _) member => member == variant
  | .implicitEnum _ name => name == variant
  | .whenPattern _ name => name == variant
  | .integerLiteral value => value == index
  | _ => false

/-- The value of a constant case value. A member of a variable is not constant. -/
def caseDenotes (enums : Enums) : CaseValue → Option SubjectValue
  | .member (.label name isVariable) member =>
    if isVariable then none else (enums name).bind fun e => e.variantValue member
  | .member (.member qualifier isVariable typeName) member =>
    if isVariable then none
    else (enums (qualifiedName qualifier typeName)).bind fun e => e.variantValue member
  | .implicitEnum resolvedEnum variant =>
    (resolvedEnum.bind enums).bind fun e => e.variantValue variant
  | .whenPattern enumName variant =>
    (enumName.bind enums).bind fun e => e.variantValue variant
  | .integerLiteral value => some (.integer value)
  | .boolValue value => some (.bool value)
  | _ => none

/-! ### Statements -/

/-- An `is` branch: its values and its body. -/
structure WhenCase (α : Type) where
  values : List CaseValue
  body : α

inductive LoopKind
  | forLoop | forEach | whileLoop | loop
  deriving DecidableEq

inductive Statement
  | returnStatement
  | plain
  | block (statements : List Statement)
  | ifStatement (consequence : Statement) (alternative : Option Statement)
  | whenStatement (subject : SubjectType) (cases : List (WhenCase Statement))
      (defaultBody : Option Statement) (isStrict : Bool)
  | loopStatement (kind : LoopKind) (label : Option Text) (body : Statement)
  | breakStatement (label : Option Text)
  | continueStatement (label : Option Text)

def isReturnStatement : Statement → Bool
  | .returnStatement => true
  | _ => false

/-! ### The analysis -/

mutual

/-- `contains_loop_break`: whether a statement has a `break` that leaves the loop being checked. -/
def containsLoopBreak (label : Option Text) : Statement → Bool → Bool
  | .breakStatement none, isNested => !isNested
  | .breakStatement (some target), _ => label == some target
  | .block statements, isNested => anyLoopBreak label statements isNested
  | .ifStatement consequence none, isNested => containsLoopBreak label consequence isNested
  | .ifStatement consequence (some alternative), isNested =>
    containsLoopBreak label consequence isNested || containsLoopBreak label alternative isNested
  | .whenStatement _ cases none _, isNested => casesLoopBreak label cases isNested
  | .whenStatement _ cases (some defaultBody) _, isNested =>
    casesLoopBreak label cases isNested || containsLoopBreak label defaultBody isNested
  | .loopStatement _ _ body, _ => label.isSome && containsLoopBreak label body true
  | _, _ => false

def anyLoopBreak (label : Option Text) : List Statement → Bool → Bool
  | [], _ => false
  | s :: l, isNested => containsLoopBreak label s isNested || anyLoopBreak label l isNested

def casesLoopBreak (label : Option Text) : List (WhenCase Statement) → Bool → Bool
  | [], _ => false
  | ⟨_, body⟩ :: l, isNested =>
    containsLoopBreak label body isNested || casesLoopBreak label l isNested

end

mutual

/-- `block_has_return`: whether a statement has a `return` anywhere in it. -/
def blockHasReturn : Statement → Bool
  | .returnStatement => true
  | .block statements => anyHasReturn statements
  | .ifStatement consequence none => blockHasReturn consequence
  | .ifStatement consequence (some alternative) =>
    blockHasReturn consequence || blockHasReturn alternative
  | .whenStatement _ cases none _ => casesHaveReturn cases
  | .whenStatement _ cases (some defaultBody) _ =>
    casesHaveReturn cases || blockHasReturn defaultBody
  | .loopStatement _ _ body => blockHasReturn body
  | _ => false

def anyHasReturn : List Statement → Bool
  | [] => false
  | s :: l => blockHasReturn s || anyHasReturn l

def casesHaveReturn : List (WhenCase Statement) → Bool
  | [] => false
  | ⟨_, body⟩ :: l => blockHasReturn body || casesHaveReturn l

end

mutual

/-- `all_paths_return`: whether every path through a statement ends in a `return`. -/
def allPathsReturn : Statement → Bool
  | .returnStatement => true
  | .block statements => statements.any isReturnStatement || lastReturns statements
  | .ifStatement _ none => false
  | .ifStatement consequence (some alternative) =>
    allPathsReturn consequence && allPathsReturn alternative
  | .whenStatement _ cases none isStrict => isStrict && casesReturn cases
  | .whenStatement _ cases (some defaultBody) _ => allPathsReturn defaultBody && casesReturn cases
  | .loopStatement kind label body =>
    kind == .loop && blockHasReturn body && !containsLoopBreak label body false
  | _ => false

def lastReturns : List Statement → Bool
  | [] => false
  | [s] => allPathsReturn s
  | _ :: s :: l => lastReturns (s :: l)

def casesReturn : List (WhenCase Statement) → Bool
  | [] => true
  | ⟨_, body⟩ :: l => allPathsReturn body && casesReturn l

end

/-! ### Strict exhaustiveness -/

/-- A `#strict` `when` without a default: its subject and the values of all its branches. -/
structure StrictWhen where
  subject : SubjectType
  values : List CaseValue

/-- The `when` of a subject and branches, as the exhaustiveness check reads it. -/
def strictWhen (subject : SubjectType) (cases : List (WhenCase Statement)) : StrictWhen :=
  ⟨subject, cases.flatMap WhenCase.values⟩

inductive StrictError
  | errorCodeSubject                               -- E3151
  | variantMissing (enumName variant : Text)       -- E3056
  | boolMissing (value : Bool)                     -- E3189
  | noEffect                                       -- E3190

/-- Whether a subject is of the open enum `ErrorCode`. -/
def SubjectType.isErrorCode : SubjectType → Bool
  | .enum declaration => declaration.name == bytes "ErrorCode"
  | _ => false

def isBoolValue (value : Bool) : CaseValue → Bool
  | .boolValue b => b == value
  | _ => false

/-- The exhaustiveness check of `check_when_statement`. -/
def strictErrors (enums : Enums) (w : StrictWhen) : List StrictError :=
  if w.subject.isErrorCode then [.errorCodeSubject]
  else match w.values.findSome? (caseEnumName enums) with
    | some enumName =>
      match enums enumName with
      | none => []
      | some e => (e.variants.zipIdx.filter fun v =>
          !w.values.any (caseCovers v.2 v.1.1)).map fun v => .variantMissing enumName v.1.1
    | none =>
      match w.subject with
      | .bool => (if w.values.any (isBoolValue true) then [] else [.boolMissing true]) ++
          if w.values.any (isBoolValue false) then [] else [.boolMissing false]
      | _ => [.noEffect]

mutual

/-- The `#strict` `when` statements of a statement that have no default. -/
def strictWhens : Statement → List StrictWhen
  | .block statements => strictWhensOf statements
  | .ifStatement consequence none => strictWhens consequence
  | .ifStatement consequence (some alternative) =>
    strictWhens consequence ++ strictWhens alternative
  | .whenStatement subject cases none isStrict =>
    (if isStrict then [strictWhen subject cases] else []) ++ strictWhensOfCases cases
  | .whenStatement _ cases (some defaultBody) _ =>
    strictWhensOfCases cases ++ strictWhens defaultBody
  | .loopStatement _ _ body => strictWhens body
  | _ => []

def strictWhensOf : List Statement → List StrictWhen
  | [] => []
  | s :: l => strictWhens s ++ strictWhensOf l

def strictWhensOfCases : List (WhenCase Statement) → List StrictWhen
  | [] => []
  | ⟨_, body⟩ :: l => strictWhens body ++ strictWhensOfCases l

end

end Grayscale
