import Grayscale.Library.InternTable
import Grayscale.Typechecker.Containment

/-!
# The pool of types

`type_from_name` reads one level of a type spelling, and keeps one `GrayType` for each kind and name
in a pool. The components of a type stay texts.
-/

namespace Grayscale

/-! ### Types -/

inductive TypeKind
  | void | signedInteger | unsignedInteger | floatingPoint | bool | char | string | array | map | struct
  | enum | pointer | error | function | range | nil | cFunction | literal | unknown
deriving DecidableEq

/-- `GrayFunctionSignature`: the types of the parameters with their `&`, and of the results. -/
structure FunctionText where
  parameters : List (TypeParameter Text)
  results : List Text

structure GrayType where
  kind : TypeKind
  name : Text
  elementType : Option Text
  keyType : Option Text
  valueType : Option Text
  functionSignature : Option FunctionText
  distinct : Option Text

def plainType (kind : TypeKind) (name : Text) : GrayType := ⟨kind, name, none, none, none, none, none⟩

/-! ### Reading a spelling -/

/-- The depth of brackets and parentheses after a byte. -/
def bracketDepth (depth : ℤ) (c : UInt8) : ℤ :=
  if c = byte '(' ∨ c = byte '[' then depth + 1
  else if c = byte ')' ∨ c = byte ']' then depth - 1
  else depth

/-- The loop of `split_top_commas`, with the segment before the rest of the text. -/
def splitSegments : ℤ → Text → Text → List Text
  | depth, segment, [] => if depth = 0 then [segment] else []
  | depth, segment, c :: l =>
    if bracketDepth depth c = 0 ∧ c = byte ',' then segment :: splitSegments (bracketDepth depth c) [] l
    else splitSegments (bracketDepth depth c) (segment ++ [c]) l

def splitTopCommas (source : Text) : List Text := if source.isEmpty then [] else splitSegments 0 [] source

def signatureParameter (segment : Text) : TypeParameter Text :=
  if segment.head? = some (byte '&') then ⟨true, segment.drop 1⟩ else ⟨false, segment⟩

def signatureResults (after : Text) : List Text :=
  if (bytes "->").isPrefixOf after then
    let returnText := after.drop 2
    if returnText.head? = some (byte '(') then
      if returnText.getLast? = some (byte ')') then splitTopCommas (returnText.drop 1).dropLast else []
    else if returnText = bytes "void" then [] else [returnText]
  else []

/-- `parse_function_signature` of a text that starts with `func(`. -/
def parseFunctionSignature (name : Text) : Option FunctionText :=
  (scan parenthesisStep 0 (name.drop 4)).map fun parts =>
    ⟨(splitTopCommas (parts.1.drop 1)).map signatureParameter, signatureResults parts.2⟩

/-- The step of `type_top_level_comma`, which stops at the comma or where more brackets are closed
than opened. -/
def commaStep (depth : ℤ) (c : UInt8) : Option ℤ :=
  if c = byte '[' ∨ c = byte '(' then some (depth + 1)
  else if c = byte ']' ∨ c = byte ')' then if depth - 1 < 0 then none else some (depth - 1)
  else if c = byte ',' ∧ depth = 0 then none
  else some depth

/-- The text before `type_top_level_comma`. -/
def typeTopLevelComma (text : Text) : Option Text := (scan commaStep 0 text).bind fun parts =>
    if text[parts.1.length]? = some (byte ',') then some parts.1 else none

/-- The element type of an array spelling, without a size. -/
def arrayElementText (name : Text) : Option Text :=
  if name.head? = some (byte '[') ∧ 2 < name.length ∧ name.getLast? = some (byte ']') then
    some ((typeTopLevelComma (name.drop 1).dropLast).getD (name.drop 1).dropLast)
  else none

/-- The text after the value of a map spelling starts, without the bracket that ends it. -/
def mapValueText (text : Text) : Text :=
  if text.getLast? = some (byte ']') then text.dropLast else text

def mapType (name : Text) : GrayType :=
  let start := name.drop 4
  if byte ':' ∈ start then
    ⟨.map, name, none, some (start.takeWhile (· != byte ':')),
      some (mapValueText ((start.dropWhile (· != byte ':')).drop 1)), none, none⟩
  else plainType .map name

/-! ### The pool -/

/-- The types of the pool, and the distinct types that are declared. -/
structure TypePool where
  entries : List GrayType
  distinct : List GrayType

/-- A `GrayType` that is handed out: a singleton, or one in a pool. -/
inductive TypeReference
  | singleton (kind : TypeKind) (name : Text)
  | pooled (index : ℕ)
  | distinct (index : ℕ)
deriving DecidableEq

/-- What the pool finds types by. -/
def GrayType.key (type : GrayType) : TypeKind × Text := (type.kind, type.name)

/-- `pool_find`, or `type_allocate` and `pool_insert` if it finds none. -/
def TypePool.intern (pool : TypePool) (type : GrayType) : TypePool × TypeReference :=
  let p := Grayscale.intern GrayType.key pool.entries type
  (⟨p.1, pool.distinct⟩, .pooled p.2)

def typeArray (pool : TypePool) (elementType : Text) : TypePool × TypeReference :=
  pool.intern ⟨.array, elementType, some elementType, none, none, none, none⟩

def typePointer (pool : TypePool) (pointeeType : Text) : TypePool × TypeReference :=
  pool.intern ⟨.pointer, pointeeType, some pointeeType, none, none, none, none⟩

def typeStruct (pool : TypePool) (name : Text) : TypePool × TypeReference :=
  pool.intern (plainType .struct name)

def typeEnum (pool : TypePool) (name : Text) : TypePool × TypeReference :=
  pool.intern (plainType .enum name)

inductive BuiltinType
  | singleton (kind : TypeKind)
  | allocated (kind : TypeKind) (name : Text)

def builtinTypes : List (Text × BuiltinType) := [(bytes "Error", .allocated .error (bytes "Error")),
   (bytes "ErrorCode", .allocated .enum (bytes "ErrorCode")),
   (bytes "bool", .singleton .bool), (bytes "char", .singleton .char),
   (bytes "f32", .allocated .floatingPoint (bytes "f32")), (bytes "f64", .singleton .floatingPoint),
   (bytes "func", .allocated .function (bytes "func")),
   (bytes "i128", .allocated .signedInteger (bytes "i128")),
   (bytes "i16", .allocated .signedInteger (bytes "i16")),
   (bytes "i256", .allocated .signedInteger (bytes "i256")),
   (bytes "i32", .allocated .signedInteger (bytes "i32")), (bytes "i64", .singleton .signedInteger),
   (bytes "i8", .allocated .signedInteger (bytes "i8")), (bytes "nil", .singleton .nil),
   (bytes "string", .singleton .string), (bytes "u128", .allocated .unsignedInteger (bytes "u128")),
   (bytes "u16", .allocated .unsignedInteger (bytes "u16")),
   (bytes "u256", .allocated .unsignedInteger (bytes "u256")),
   (bytes "u32", .allocated .unsignedInteger (bytes "u32")),
   (bytes "u64", .singleton .unsignedInteger), (bytes "u8", .singleton .unsignedInteger),
   (bytes "void", .singleton .void)]

/-- A byte from `A` to `Z`. -/
def isUpperByte (c : UInt8) : Bool := byte 'A' ≤ c && c ≤ byte 'Z'

def afterLastUnderscore (name : Text) : Option Text :=
  if byte '_' ∈ name then some (name.reverse.takeWhile (· != byte '_')).reverse else none

/-- A struct, or an enum that the pool has under the name. -/
def typeDeclared (pool : TypePool) (name : Text) : TypePool × TypeReference :=
  match pool.entries.findIdx? fun type => decide (type.key = (.enum, name)) with
  | some index => (pool, .pooled index)
  | none => typeStruct pool name

/-- The end of `type_from_name`: qualified names, and names of structs and enums. -/
def typeNamed (pool : TypePool) (name : Text) : TypePool × TypeReference :=
  let member := (name.dropWhile (· != byte '.')).drop 1
  if byte '.' ∈ name ∧ member.head?.any isUpperByte = true then typeDeclared pool member
  else if name.head?.any isUpperByte = true then typeDeclared pool name
  else if (afterLastUnderscore name).any (fun rest => rest.head?.any isUpperByte) = true then
    typeDeclared pool name
  else (pool, .singleton .unknown (bytes "unknown"))

def typeFromName (pool : TypePool) (name : Text) : TypePool × TypeReference :=
  match pool.distinct.findIdx? fun type => decide (type.distinct = some name) with
  | some index => (pool, .distinct index)
  | none =>
    if (bytes "func(").isPrefixOf name then
      pool.intern ⟨.function, name, none, none, none, parseFunctionSignature name, none⟩
    else match builtinTypes.lookup name with
    | some (.singleton kind) => (pool, .singleton kind name)
    | some (.allocated kind allocationName) => pool.intern (plainType kind allocationName)
    | none =>
      if (bytes "Range<").isPrefixOf name then pool.intern (plainType .range name)
      else if name.head? = some (byte '^') then typePointer pool (name.drop 1)
      else if name.head? = some (byte '?') ∧ 1 < name.length then pool.intern (plainType .unknown name)
      else match arrayElementText name with
      | some elementType => typeArray pool elementType
      | none =>
        if (bytes "map[").isPrefixOf name then pool.intern (mapType name) else typeNamed pool name

def TypePool.typeAt (pool : TypePool) : TypeReference → Option GrayType
  | .singleton kind name => some (plainType kind name)
  | .pooled index => pool.entries[index]?
  | .distinct index => pool.distinct[index]?

/-- What the checker asks of the pool. -/
inductive TypeRequest
  | fromName (name : Text)
  | array (elementType : Text)
  | pointer (pointeeType : Text)
  | struct (name : Text)
  | enum (name : Text)
  | registerDistinct (name : TypeName) (underlying : TypeName)

/-- `type_register_distinct`: a copy of the primitive type with a name of its own. -/
def registerDistinct (pool : TypePool) (name underlying : TypeName) : TypePool :=
  let p := typeFromName pool underlying.text
  let type := (p.1.typeAt p.2).getD (plainType .unknown underlying.text)
  ⟨p.1.entries, p.1.distinct ++ [{ type with distinct := some name.text }]⟩

def TypePool.serve (pool : TypePool) : TypeRequest → TypePool
  | .fromName name => (typeFromName pool name).1
  | .array elementType => (typeArray pool elementType).1
  | .pointer pointeeType => (typePointer pool pointeeType).1
  | .struct name => (typeStruct pool name).1
  | .enum name => (typeEnum pool name).1
  | .registerDistinct name underlying => registerDistinct pool name underlying

def TypePool.run (pool : TypePool) (requests : List TypeRequest) : TypePool :=
  requests.foldl TypePool.serve pool

/-! ### The other splitters -/

def arrayElementType (name : Text) : Option Text :=
  if name.head? = some (byte '[') ∧ ¬ name.length < 3 ∧ name.getLast? = some (byte ']') then
    match scan (squareStep (byte ',')) 0 (name.drop 1).dropLast with
    | some (element, _) => some element
    | none => some (name.drop 1).dropLast
  else none

/-- The element and the size that `module_resolve_type_name` finds in an array spelling. -/
def moduleArrayParts (written : Text) : Option (Text × Option Text) :=
  if written.head? = some (byte '[') ∧ written.getLast? = some (byte ']') then
    match scan (squareStep (byte ',')) 0 (written.drop 1).dropLast with
    | some (element, size) => some (element, some size)
    | none => some ((written.drop 1).dropLast, none)
  else none

/-- The pointee that `module_resolve_type_name` finds. -/
def modulePointee (written : Text) : Option Text :=
  if written.head? = some (byte '^') then some (written.drop 1) else none

/-- The key and the value that `module_resolve_type_name` finds in a map spelling. -/
def moduleMapParts (written : Text) : Option (Text × Text) :=
  if 5 < written.length ∧ (bytes "map[").isPrefixOf written = true ∧
      written.getLast? = some (byte ']') then
    scan (squareStep (byte ':')) 0 (written.drop 4).dropLast
  else none

/-- The signature that `module_resolve_type_name` finds, which is the one of `type_from_name`. -/
def moduleFunctionParts (pool : TypePool) (written : Text) : Option FunctionText :=
  if 5 < written.length ∧ (bytes "func(").isPrefixOf written = true then
    ((typeFromName pool written).1.typeAt (typeFromName pool written).2).bind fun type =>
      if type.kind = .function then type.functionSignature else none
  else none

end Grayscale
