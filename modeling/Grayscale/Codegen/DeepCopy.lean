import Grayscale.Util.Bytes

/-!
# Deep copies

The emitters of deep copies unfold a type while the program is compiled. They look up the names of
fields in the module whose function is being emitted, and keep the names they are inside of in
stacks, so that a type that holds itself through an array or a map does not unfold for ever.
-/

namespace Grayscale

/-! ### Types -/

/-- A written type, as the emitters of copies tell types apart. -/
inductive CopiedType
  /-- A number, a pointer, a function, an enum without payloads or another type without storage of
  its own. -/
  | flat
  | string
  | array (element : CopiedType)
  | map (hasStringKeys : Bool) (value : CopiedType)
  | named (name : Text)

/-- A declaration that the emitters unfold. -/
inductive CopiedDeclaration
  | struct (fields : List CopiedType)
  | taggedEnum (variants : List (List CopiedType))
  /-- `HttpResponse` of the standard library, a string and a map of headers. -/
  | httpResponse

/-- The fields of a struct are those of its only variant. -/
def CopiedDeclaration.variants : CopiedDeclaration → List (List CopiedType)
  | struct fields => [fields]
  | taggedEnum variants => variants
  | httpResponse => [[.string, .map true .string]]

/-- What a written type is in C. The types inside an array or a map are written in a module. -/
inductive TypeMeaning
  | flat
  | string
  | array (module : Text) (element : CopiedType)
  | map (module : Text) (hasStringKeys : Bool) (value : CopiedType)
  | declared (key : Text)

/-- The type names of a program. Declarations are kept by their mangled names, their keys. -/
structure TypeNames where
  /-- `module_resolve_type_name`: the key of a name written in a module. -/
  resolveType : Text → Text → Text
  declaration : Text → Option CopiedDeclaration
  /-- What the alias with a key stands for. -/
  aliasTarget : Text → Option TypeMeaning
  /-- The module of a declaration, in which its fields are written. -/
  home : Text → Text

namespace TypeNames

variable (names : TypeNames)

def meaning (module : Text) : CopiedType → TypeMeaning
  | .flat => .flat
  | .string => .string
  | .array element => .array module element
  | .map hasStringKeys value => .map module hasStringKeys value
  | .named name =>
    match names.declaration (names.resolveType module name) with
    | some _ => .declared (names.resolveType module name)
    | none => (names.aliasTarget (names.resolveType module name)).getD .flat

def structAt (key : Text) : Option (Text × CopiedDeclaration) :=
  match names.declaration key with
  | some (.struct fields) => some (key, .struct fields)
  | _ => none

/-- `find_struct_declaration`: the written name is tried as a key first. -/
def findStructDeclaration (module name : Text) : Option (Text × CopiedDeclaration) :=
  names.structAt name <|> names.structAt (names.resolveType module name)

/-- `tagged_enum_declaration`: the written name is not resolved. -/
def taggedEnumDeclaration (name : Text) : Option (Text × CopiedDeclaration) :=
  match names.declaration name with
  | some (.taggedEnum variants) => some (name, .taggedEnum variants)
  | _ => none

/-- `is_stdlib_http_response`. -/
def httpResponseDeclaration (module name : Text) : Option (Text × CopiedDeclaration) :=
  match names.meaning module (.named name) with
  | .declared key =>
    match names.declaration key with
    | some .httpResponse => some (key, .httpResponse)
    | _ => none
  | _ => none

/-- The declaration that the emitters find for a name, with its key. -/
def found (module name : Text) : Option (Text × CopiedDeclaration) :=
  names.findStructDeclaration module name <|> names.taggedEnumDeclaration name <|>
    names.httpResponseDeclaration module name

end TypeNames

/-! ### The walk over a type -/

/-- `CYCLE_GUARD_DEPTH`. A name that does not fit into its stack is not pushed, but one is popped
for it all the same: the depth ends below zero, and the next name is written in front of the stack.
There is no emitted code then. -/
def cycleGuardDepth : ℕ := 64

/-- `type_needs_copy_walk`, with what it does for a name. -/
def walkType (countStrings : Bool) (enter : Text → Option Bool) : CopiedType → Option Bool
  | .flat => some false
  | .string => some countStrings
  | .array _ | .map _ _ => some true
  | .named name => enter name

/-- `type_needs_copy_walk` for a name, inside of the names `visiting`. -/
def walkNamed (names : TypeNames) (module : Text) (countStrings : Bool) :
    ℕ → List Text → Text → Option Bool
  | 0, _, _ => none
  | room + 1, visiting, name =>
    match names.found module name with
    | none => some false
    | some (_, .httpResponse) => some true
    | some (_, declaration) =>
      if visiting.contains name then some false
      else if visiting.length < cycleGuardDepth then
        declaration.variants.flatten.anyM
          (walkType countStrings (walkNamed names module countStrings room (name :: visiting)))
      else none

def typeNeedsCopyWalk (names : TypeNames) (module : Text) (countStrings : Bool) :
    CopiedType → Option Bool :=
  walkType countStrings (walkNamed names module countStrings (cycleGuardDepth + 1) [])

def typeNeedsDeepCopy (names : TypeNames) (module : Text) : CopiedType → Option Bool :=
  typeNeedsCopyWalk names module true

/-! ### The emitters -/

inductive CopyPlan
  /-- The source itself, as C copies it. -/
  | bitwise
  /-- `gray_string_new`. -/
  | string
  | array (element : CopyPlan)
  | map (key value : CopyPlan)
  /-- A struct or a tagged enum of a C type, with copies of the fields of the live variant. -/
  | record (key : Text) (variants : List (List CopyPlan))

/-- `gray_array_copy` copies the elements bitwise. -/
def grayArrayCopy : CopyPlan := .array .bitwise

/-- `gray_map_set` and `gray_map_copy` copy the keys that are strings. -/
def keyCopy (hasStringKeys : Bool) : CopyPlan := if hasStringKeys then .string else .bitwise

/-- `gray_map_copy` copies the values bitwise. -/
def grayMapCopy (hasStringKeys : Bool) : CopyPlan := .map (keyCopy hasStringKeys) .bitwise

/-- `emit_struct_deep_copy_visiting` and `emit_enum_deep_copy_visiting`. -/
structure CopyGuards where
  structs : List Text
  enums : List Text

namespace CopyGuards

/-- The emitter is inside of the name. -/
def has (guards : CopyGuards) (name : Text) : CopiedDeclaration → Bool
  | .struct _ => guards.structs.contains name
  | .taggedEnum _ => guards.enums.contains name
  | .httpResponse => false

/-- The stacks inside of the name. -/
def push (guards : CopyGuards) (name : Text) : CopiedDeclaration → Option CopyGuards
  | .struct _ =>
    if guards.structs.length < cycleGuardDepth then
      some { guards with structs := name :: guards.structs }
    else none
  | .taggedEnum _ =>
    if guards.enums.length < cycleGuardDepth then
      some { guards with enums := name :: guards.enums }
    else none
  | .httpResponse => some guards

end CopyGuards

/-- `emit_value_deep_copy`, `emit_array_deep_copy` and `emit_map_deep_copy`, with what is emitted
for a name. -/
def emitCopyOf (needs : CopiedType → Option Bool) (enter : Text → Option CopyPlan) :
    CopiedType → Option CopyPlan
  | .flat => some .bitwise
  | .string => some .string
  | .array element => (needs element).bind fun isNeeded =>
    if isNeeded then (emitCopyOf needs enter element).map .array else some grayArrayCopy
  | .map hasStringKeys value => (needs value).bind fun isNeeded =>
    if isNeeded then (emitCopyOf needs enter value).map (.map (keyCopy hasStringKeys))
    else some (grayMapCopy hasStringKeys)
  | .named name => (needs (.named name)).bind fun isNeeded =>
    if isNeeded then enter name else some .bitwise

/-- `emit_struct_deep_copy` and `emit_enum_deep_copy`. -/
def emitNamedCopy (names : TypeNames) (module : Text) : ℕ → CopyGuards → Text → Option CopyPlan
  | 0, _, _ => none
  | room + 1, guards, name =>
    match names.found module name with
    | none => some .bitwise
    | some (key, declaration) =>
      if guards.has name declaration then some .bitwise
      else (guards.push name declaration).bind fun inner =>
        (declaration.variants.mapM fun types : List CopiedType => types.mapM
          (emitCopyOf (typeNeedsDeepCopy names module) (emitNamedCopy names module room inner))).map
            (.record key)

/-- The rounds that the stacks leave room for. -/
def copyRoom : ℕ := 2 * cycleGuardDepth + 1

/-- `emit_value_deep_copy` for a type written in the module of the function that is emitted. -/
def emitValueDeepCopy (names : TypeNames) (module : Text) : CopiedType → Option CopyPlan :=
  emitCopyOf (typeNeedsDeepCopy names module) (emitNamedCopy names module copyRoom ⟨[], []⟩)

/-! ### The C types of the emitted code -/

/-- The emitted code for a type has the C type `source` where it reads its source. -/
def checksType (names : TypeNames) (module : Text) (enter : TypeMeaning → Text → Prop) :
    TypeMeaning → CopiedType → Prop
  | _, .flat | _, .string => True
  -- The elements are read through a cast.
  | _, .array element | _, .map _ element =>
    checksType names module enter (names.meaning module element) element
  | source, .named name =>
    typeNeedsDeepCopy names module (.named name) = some true → enter source name

/-- The temporaries for a struct or a tagged enum have the C type of their source. -/
def checksNamed (names : TypeNames) (module : Text) : ℕ → CopyGuards → TypeMeaning → Text → Prop
  | 0, _, _, _ => True
  | room + 1, guards, source, name =>
    match names.found module name with
    | none => True
    | some (key, declaration) =>
      guards.has name declaration = false → source = .declared key ∧
        ∀ inner, guards.push name declaration = some inner →
          ∀ types ∈ declaration.variants, ∀ type ∈ types,
            checksType names module (checksNamed names module room inner)
              (names.meaning (names.home key) type) type

/-- The emitted code for a type is well-typed C. -/
def EmitsTypedC (names : TypeNames) (module : Text) (type : CopiedType) : Prop :=
  checksType names module (checksNamed names module copyRoom ⟨[], []⟩) (names.meaning module type)
    type

/-! ### Values -/

/-- A value with the storage of its strings, arrays and maps. A pointer is flat. -/
inductive CopyValue
  | flat (bits : ℤ)
  | string (storage : ℕ) (text : Text)
  | array (storage : ℕ) (elements : List CopyValue)
  | map (storage : ℕ) (keys values : List CopyValue)
  | record (key : Text) (variant : ℕ) (fields : List CopyValue)

namespace CopyValue

mutual

/-- The storage that a value holds, at any depth. -/
def storages : CopyValue → List ℕ
  | .flat _ => []
  | .string storage _ => [storage]
  | .array storage elements => storage :: storagesOf elements
  | .map storage keys values => storage :: (storagesOf keys ++ storagesOf values)
  | .record _ _ fields => storagesOf fields

def storagesOf : List CopyValue → List ℕ
  | [] => []
  | value :: values => value.storages ++ storagesOf values

end

mutual

/-- A value without its storage: two values are structurally equal when these are equal. -/
def structural : CopyValue → CopyValue
  | .flat bits => .flat bits
  | .string _ text => .string 0 text
  | .array _ elements => .array 0 (structuralOf elements)
  | .map _ keys values => .map 0 (structuralOf keys) (structuralOf values)
  | .record key variant fields => .record key variant (structuralOf fields)

/-- Values without their storage. -/
def structuralOf : List CopyValue → List CopyValue
  | [] => []
  | value :: values => value.structural :: structuralOf values

end

end CopyValue

mutual

/-- What the emitted code yields for a value, and the next storage to allocate. The source has
another C type, or bytes of another layout, where there is no result. -/
def runCopy : CopyPlan → CopyValue → ℕ → Option (CopyValue × ℕ)
  | .bitwise, value, next => some (value, next)
  | .string, .string _ text, next => some (.string next text, next + 1)
  | .array element, .array _ elements, next =>
    (runCopyOf (List.replicate elements.length element) elements (next + 1)).map fun r =>
      (.array next r.1, r.2)
  | .map key value, .map _ keys values, next =>
    (runCopyOf (List.replicate keys.length key) keys (next + 1)).bind fun copiedKeys =>
      (runCopyOf (List.replicate values.length value) values copiedKeys.2).map fun r =>
        (.map next copiedKeys.1 r.1, r.2)
  | .record key variants, .record key' variant fields, next =>
    if key = key' then
      (variants[variant]?).bind fun plans =>
        (runCopyOf plans fields next).map fun r => (.record key variant r.1, r.2)
    else none
  | _, _, _ => none

/-- What the emitted code yields for values in order. -/
def runCopyOf : List CopyPlan → List CopyValue → ℕ → Option (List CopyValue × ℕ)
  | [], [], next => some ([], next)
  | plan :: plans, value :: values, next =>
    (runCopy plan value next).bind fun r =>
      (runCopyOf plans values r.2).map fun rs => (r.1 :: rs.1, rs.2)
  | _, _, _ => none

end

/-- The emitted code for a type yields a copy of the value that is structurally equal to it and
shares no storage with it. -/
structure CopiesIndependently (names : TypeNames) (module : Text) (type : CopiedType)
    (value : CopyValue) : Prop where
  emitsTypedC : EmitsTypedC names module type
  exists_copy : ∀ next, (∀ storage ∈ value.storages, storage < next) →
    ∃ plan copy next', emitValueDeepCopy names module type = some plan ∧
      runCopy plan value next = some (copy, next') ∧ copy.structural = value.structural ∧
        ∀ storage ∈ copy.storages, storage ∉ value.storages

/-! ### The condition -/

/-- The stacks have room for the names of a type. -/
def fitsType (needs : CopiedType → Option Bool) (enter : Text → Prop) : CopiedType → Prop
  | .flat | .string => True
  | .array element | .map _ element =>
    (needs element).isSome = true ∧ (needs element = some true → fitsType needs enter element)
  | .named name =>
    (needs (.named name)).isSome = true ∧ (needs (.named name) = some true → enter name)

/-- The stacks have room for a name and for those of its fields. -/
def fitsNamed (names : TypeNames) (module : Text) : ℕ → CopyGuards → Text → Prop
  | 0, _, _ => False
  | room + 1, guards, name =>
    match names.found module name with
    | none => True
    | some (_, declaration) =>
      guards.has name declaration = false → ∃ inner, guards.push name declaration = some inner ∧
        ∀ types ∈ declaration.variants, ∀ type ∈ types,
          fitsType (typeNeedsDeepCopy names module) (fitsNamed names module room inner) type

/-- No more than `CYCLE_GUARD_DEPTH` structs, or tagged enums, are unfolded inside each other. -/
def FitsGuards (names : TypeNames) (module : Text) (type : CopiedType) : Prop :=
  fitsType (typeNeedsDeepCopy names module) (fitsNamed names module copyRoom ⟨[], []⟩) type

/-- The value has no storage that the emitted code for a type leaves shared. -/
def coversType (names : TypeNames) (module : Text) (enter : Text → CopyValue → Prop) :
    CopiedType → CopyValue → Prop
  | .flat, value => value.storages = []
  | .string, value => ∃ storage text, value = .string storage text
  | .array element, value => ∃ storage elements, value = .array storage elements ∧
      ∀ x ∈ elements, coversType names module enter element x
  | .map hasStringKeys element, value => ∃ storage keys values, value = .map storage keys values ∧
      (∀ k ∈ keys, if hasStringKeys then ∃ storage text, k = .string storage text
        else k.storages = []) ∧ ∀ x ∈ values, coversType names module enter element x
  | .named name, value =>
    if typeNeedsDeepCopy names module (.named name) = some true then enter name value
    else value.storages = []

/-- A name that the emitters do not find, or are inside of already, has values without storage; the
others have values of the declaration found, whose fields are covered. -/
def coversNamed (names : TypeNames) (module : Text) : ℕ → CopyGuards → Text → CopyValue → Prop
  | 0, _, _, _ => False
  | room + 1, guards, name, value =>
    match names.found module name with
    | none => value.storages = []
    | some (key, declaration) =>
      if guards.has name declaration then value.storages = []
      else ∃ inner variant types fields, guards.push name declaration = some inner ∧
        declaration.variants[variant]? = some types ∧ value = .record key variant fields ∧
          List.Forall₂ (coversType names module (coversNamed names module room inner)) types fields

def CoversValue (names : TypeNames) (module : Text) (type : CopiedType) (value : CopyValue) : Prop :=
  coversType names module (coversNamed names module copyRoom ⟨[], []⟩) type value

end Grayscale
