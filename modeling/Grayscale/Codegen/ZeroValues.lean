import Grayscale.Util.Bytes

/-!
# Zero values of structs

A struct that is given no value is built by one of several emitters: the literal `T{}`, a field that
a literal leaves out, a variable without an initializer, `new(T)`, and the slots of a fixed-size
array. Each unfolds the type while the program is compiled. C's zero is not the zero value of a map,
an array, a struct with such fields or defaults, or an enum without a variant of value zero; an
emitter that stops unfolding leaves C's zero there.

A value is looked at along paths of fields and slots, so that types are unfolded on demand.
-/

namespace Grayscale.ZeroValues

/-! ### Types -/

/-- A written type, as the emitters tell types apart; `written` is the spelling of what an array or
a map is made of. For a `flat` type (a number, a string, a pointer, a function) C's zero is the zero
value. -/
inductive FieldType
  | flat
  | map (written : Text)
  | array (written : Text)
  | fixedArray (written : Text) (element : FieldType) (size : ℕ)
  | named (name : Text)
  deriving DecidableEq

/-- A field of a struct, with the expression that is its default. -/
structure StructField where
  type : FieldType
  default : Option Text
  deriving DecidableEq

/-- The type names of a program. Declarations are kept by their mangled names, their keys; a struct
and an enum have different ones. -/
structure TypeNames where
  /-- `codegen_resolve_type`: the key of a name written in a file. -/
  resolveType : Text → Text → Text
  structFields : Text → Option (List StructField)
  /-- `codegen_enum_default_variant`. -/
  enumDefaultVariant : Text → Option Text
  enum_not_struct : ∀ key, (structFields key).isSome → enumDefaultVariant key = none
  /-- `type_from_name` of a written name has the kind of a struct. -/
  isStructKind : Text → Bool
  /-- The file of a declaration, in which its fields are written. -/
  home : Text → Text
  /-- The C types of the elements of an array or a map that are spelled so in a file. -/
  cType : Text → Text → Text
  /-- What a default is emitted as in a file. -/
  emitDefault : Text → Text → Text

namespace TypeNames

variable (names : TypeNames)

def meantStruct (file name : Text) : Option Text :=
  if (names.structFields (names.resolveType file name)).isSome then
    some (names.resolveType file name)
  else none

/-- `find_struct_declaration`: the written name is tried as a key first. -/
def findStructDeclaration (file name : Text) : Option Text :=
  if (names.structFields name).isSome then some name else names.meantStruct file name

end TypeNames

/-! ### Values -/

/-- What is at a place of a value: C's zero, or something else. -/
inductive Leaf
  | zero
  | variant (enum variant : Text)
  | map (cTypes : Text)
  | array (cType : Text)
  | fixedArray (cType : Text) (size : ℕ)
  | default (code : Text)
  deriving DecidableEq

/-- A step into a value. -/
inductive Step
  | field (index : ℕ)
  | slot (index : ℕ)
  deriving DecidableEq

/-- The zero value of a place: C's zero with all in it, a value without zero values in it, a default
with all in it, the slots of a fixed-size array, a struct. -/
inductive Meant
  | zero
  | leaf (l : Leaf)
  | default (code : Text)
  | slots (file written : Text) (element : FieldType) (size : ℕ)
  | struct (key : Text)
  deriving DecidableEq

/-- The code for a place: as for `Meant`, with what `emit_zero_value_slots`,
`emit_struct_zero_value_literal` and `emit_new_struct_initializer` have been called for. -/
inductive Code
  | zero
  | leaf (l : Leaf)
  | default (code : Text)
  | slots (file written : Text) (element : FieldType) (size : ℕ)
  | literal (file name : Text) (depth : ℕ)
  | initializer (file key : Text) (depth : ℕ)
  deriving DecidableEq

section

variable (names : TypeNames)

/-- An enum with a default variant. -/
def enumLeaf (file name : Text) : Option Leaf :=
  (names.enumDefaultVariant (names.resolveType file name)).map
    (Leaf.variant (names.resolveType file name))

/-- The zero value of a type written in a file. -/
def meantType (file : Text) : FieldType → Meant
  | .flat => .zero
  | .map written => .leaf (.map (names.cType file written))
  | .array written => .leaf (.array (names.cType file written))
  | .fixedArray written element size => .slots file written element size
  | .named name =>
    match names.meantStruct file name with
    | some key => .struct key
    | none => ((enumLeaf names file name).map Meant.leaf).getD .zero

/-- The zero value of a field. -/
def meantField (file : Text) (field : StructField) : Meant :=
  match field.default with
  | some expression => .default (names.emitDefault file expression)
  | none => meantType names file field.type

/-- What is at a place. -/
def Meant.leafAt : Meant → Leaf
  | .zero | .struct _ => .zero
  | .leaf l => l
  | .default code => .default code
  | .slots file written _ size => .fixedArray (names.cType file written) size

/-- The zero value inside another one. -/
def Meant.inside : Meant → Step → Meant
  | .zero, _ | .leaf _, _ => .zero
  | .default code, _ => .default code
  | .slots file _ element size, .slot j => if j < size then meantType names file element else .zero
  | .slots _ _ _ _, .field _ => .zero
  | .struct key, .field i =>
    match ((names.structFields key).getD [])[i]? with
    | some field => meantField names (names.home key) field
    | none => .zero
  | .struct _, .slot _ => .zero

/-! ### Emitters -/

/-- `emit_element_zero_value`, where `element_needs_zero_value`, and C's zero elsewhere. -/
def emitElementZeroValue (file : Text) : FieldType → Code
  | .flat | .array _ => .zero
  | .map written => .leaf (.map (names.cType file written))
  | .fixedArray written element size => .slots file written element size
  | .named name =>
    match names.findStructDeclaration file name with
    | some _ => .literal file name 1
    | none => ((enumLeaf names file name).map Code.leaf).getD .zero

def emitStructFieldZeroDefault (file : Text) (depth : ℕ) (field : StructField) : Code :=
  match field.default with
  | some expression => .default (names.emitDefault file expression)
  | none =>
    match field.type with
    | .flat => .zero
    | .map written => .leaf (.map (names.cType file written))
    | .array written => .leaf (.array (names.cType file written))
    | .fixedArray written element size => .slots file written element size
    | .named name =>
      match enumLeaf names file name with
      | some l => .leaf l
      | none => if names.isStructKind name then .literal file name (depth + 1) else .zero

/-- `struct_needs_new_initializer`: one field, with what is found for a struct in it. -/
def fieldNeedsInitializer (file : Text) (needs : Text → Bool) (field : StructField) : Bool :=
  field.default.isSome ||
    match field.type with
    | .flat => false
    | .map _ | .array _ | .fixedArray _ _ _ => true
    | .named name =>
      (enumLeaf names file name).isSome ||
        names.isStructKind name && (names.findStructDeclaration file name).any needs

/-- `struct_needs_new_initializer`, with the depth that is left: 9 at first. -/
def structNeedsNewInitializer (file : Text) : ℕ → Text → Bool
  | 0, _ => false
  | left + 1, key =>
    ((names.structFields key).getD []).any
      (fieldNeedsInitializer names file (structNeedsNewInitializer file left))

/-- `emit_new_struct_initializer`, for one field: the file is that of the struct in `new`. -/
def emitNewField (file : Text) (depth : ℕ) (field : StructField) : Code :=
  match field.default with
  | some expression => .default (names.emitDefault file expression)
  | none =>
    match field.type with
    | .flat => .zero
    | .map written => .leaf (.map (names.cType file written))
    | .array written => .leaf (.array (names.cType file written))
    | .fixedArray written element size => .slots file written element size
    | .named name =>
      match enumLeaf names file name with
      | some l => .leaf l
      | none =>
        if names.isStructKind name then
          match names.findStructDeclaration file name with
          | some key =>
            if structNeedsNewInitializer names file (8 - depth) key then
              .initializer file key (depth + 1)
            else .zero
          | none => .zero
        else .zero

/-- What is at a place of the emitted value. -/
def Code.leafAt : Code → Leaf
  | .zero | .literal _ _ _ | .initializer _ _ _ => .zero
  | .leaf l => l
  | .default code => .default code
  | .slots file written _ size => .fixedArray (names.cType file written) size

/-- The code inside another one: the emitters stop beyond a depth of 8. -/
def Code.inside : Code → Step → Code
  | .zero, _ | .leaf _, _ => .zero
  | .default code, _ => .default code
  | .slots file _ element size, .slot j =>
    if j < size then emitElementZeroValue names file element else .zero
  | .slots _ _ _ _, .field _ => .zero
  | .literal file name depth, .field i =>
    match names.findStructDeclaration file name with
    | none => .zero
    | some key =>
      if depth > 8 then .zero
      else match ((names.structFields key).getD [])[i]? with
        | some field => emitStructFieldZeroDefault names (names.home key) depth field
        | none => .zero
  | .literal _ _ _, .slot _ => .zero
  | .initializer file key depth, .field i =>
    if depth > 8 then .zero
    else match ((names.structFields key).getD [])[i]? with
      | some field => emitNewField names file depth field
      | none => .zero
  | .initializer _ _ _, .slot _ => .zero

/-- What a value holds at a path. -/
def Meant.at (m : Meant) (path : List Step) : Leaf :=
  (path.foldl (Meant.inside names) m).leafAt names

/-- What the emitted value holds at a path. -/
def Code.at (c : Code) (path : List Step) : Leaf := (path.foldl (Code.inside names) c).leafAt names

/-- `emit_struct_value` for `T{}`, which has resolved its name: the fields are those of a literal at
depth 0, in the file of the struct. -/
def emitStructValue (file key : Text) : Code := .literal file key 0

/-- `emit_c_zero_value` for a variable of a struct type. -/
def emitCZeroValue (file name : Text) : Code :=
  match enumLeaf names file name with
  | some l => .leaf l
  | none => if names.isStructKind name then .literal file name 0 else .zero

/-- `emit_new_expression` for a struct: whether it needs initializers is asked in the file that
`new` stands in, and they are emitted in the file of the struct. -/
def emitNewExpression (file key : Text) : Code :=
  if structNeedsNewInitializer names file 9 key then .initializer (names.home key) key 0 else .zero

/-- Wherever the struct is named, all emitters build its zero value: `T{}`, a field that is left
out, a variable, `new(T)`, a slot. -/
def Agree (file name key : Text) : Prop :=
  ∀ path, (emitStructValue file key).at names path = (Meant.struct key).at names path ∧
    (emitStructFieldZeroDefault names file 0 ⟨.named name, none⟩).at names path =
      (Meant.struct key).at names path ∧
    (emitCZeroValue names file name).at names path = (Meant.struct key).at names path ∧
    (emitNewExpression names file key).at names path = (Meant.struct key).at names path ∧
    (emitElementZeroValue names file (.named name)).at names path = (Meant.struct key).at names path

/-! ### The condition -/

def fieldsOf (key : Text) : List StructField := (names.structFields key).getD []

/-- A struct that is the type of a field without a default. -/
def FieldStruct (outer inner : Text) : Prop :=
  ∃ field ∈ fieldsOf names outer, field.default = none ∧
    ∃ name, field.type = .named name ∧ names.meantStruct (names.home outer) name = some inner

/-- What a fixed-size array is made of in the end. -/
def FieldType.innermost : FieldType → FieldType
  | .fixedArray _ element _ => element.innermost
  | type => type

/-- A struct that the slots of a field without a default hold. -/
def SlotStruct (outer inner : Text) : Prop := ∃ field ∈ fieldsOf names outer, field.default = none ∧
    ∃ written element size name, field.type = .fixedArray written element size ∧
      element.innermost = .named name ∧ names.meantStruct (names.home outer) name = some inner

/-- A struct that is so many fields inside another one. -/
inductive Nested (outermost : Text) : Text → ℕ → Prop
  | self : Nested outermost outermost 0
  | field {key inner : Text} {depth : ℕ} (h : Nested outermost key depth)
    (hinner : FieldStruct names key inner) : Nested outermost inner (depth + 1)

/-- A struct in the zero value of another one, through fields and slots. -/
inductive Holds (outermost : Text) : Text → Prop
  | self : Holds outermost outermost
  | field {key inner : Text} (h : Holds outermost key) (hinner : FieldStruct names key inner) :
    Holds outermost inner
  | slot {key inner : Text} (h : Holds outermost key) (hinner : SlotStruct names key inner) :
    Holds outermost inner

/-- The zero value is C's zero all through. -/
def IsZero (m : Meant) : Prop := ∀ path, m.at names path = .zero

/-- The type of the slots of an array is read as it is meant, and is no array without a size, for
which `element_needs_zero_value` does not ask. -/
def ReadsElement (file : Text) : FieldType → Prop
  | .flat | .map _ => True
  | .array _ => False
  | .fixedArray _ element _ => ReadsElement file element
  | .named name => names.findStructDeclaration file name = names.meantStruct file name

def ReadsType (file : Text) : FieldType → Prop
  | .flat | .map _ | .array _ => True
  | .fixedArray _ element _ => ReadsElement names file element
  | .named name => names.findStructDeclaration file name = names.meantStruct file name ∧
    ((names.meantStruct file name).isSome → names.isStructKind name = true)

def SameType (file file' : Text) : FieldType → Prop
  | .flat => True
  | .map written | .array written => names.cType file written = names.cType file' written
  | .fixedArray written element _ =>
    names.cType file written = names.cType file' written ∧ SameType file file' element
  | .named name => names.resolveType file name = names.resolveType file' name

/-- A field is emitted alike in two files. -/
def SameField (file file' : Text) (field : StructField) : Prop :=
  (∀ expression, field.default = some expression →
    names.emitDefault file expression = names.emitDefault file' expression) ∧
  (field.default = none → SameType names file file' field.type)

/-- A struct that is named in a file is unfolded by all emitters as it is meant. -/
structure Unfolds (file name key : Text) : Prop where
  /-- The name is that of the struct, is found, and is taken for that of a struct. -/
  meant : names.resolveType file name = key
  found : names.findStructDeclaration file name = some key
  declared : (names.structFields key).isSome
  kind : names.isStructKind name = true
  /-- The names of the fields are found. -/
  reads : ∀ S, Holds names key S → ∀ field ∈ fieldsOf names S, field.default = none →
    ReadsType names (names.home S) field.type
  /-- Beyond the depth, counted from the struct and from the slots of each array, all is zero. -/
  depth : ∀ S, Holds names key S → ∀ S' d, Nested names S S' d → 8 ≤ d → IsZero names (.struct S')
  /-- `new` emits the fields of nested structs as if they were written in the file of the outer
  one. -/
  sameFile : ∀ S d, Nested names key S d → ∀ field ∈ fieldsOf names S,
    SameField names (names.home key) (names.home S) field
  /-- In the file that it stands in, `new` sees that there is something to initialize. -/
  needs : structNeedsNewInitializer names file 9 key = false → IsZero names (.struct key)

end

end Grayscale.ZeroValues
