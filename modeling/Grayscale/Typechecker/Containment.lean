import Grayscale.Library.PathSearch
import Grayscale.Typechecker.AliasCycles

/-!
# Types that contain themselves

A struct or a tagged enum that contains itself by value has no size, and is reported with E3061. The
walk that looks for this reads every member with the module of the declaration that is checked,
looks declarations up by their bare names, and keeps at most 32 of them on its path.
-/

namespace Grayscale

open List

/-! ### Modules -/

/-- A source file: its module, which has the empty name for the entry file, the modules that it is
`using`, and the names that it imports modules under. -/
structure ModuleFile where
  path : Text
  moduleName : Text
  usingModules : List Text
  moduleAliases : List (Text × Text)

/-- A type declaration in the table of modules. -/
structure DeclarationEntry where
  name : Text
  file : ModuleFile
  isPrivate : Bool

/-- A struct with the types of its fields, or a tagged enum with those of its payloads. -/
structure TypeDeclaration extends DeclarationEntry where
  isEnum : Bool
  members : List WrittenType

/-- A program when its enums and structs are registered. `aliases` is the table of aliases that are
registered by then, and `enumCheckFile` the file that is current while payloads are walked. -/
structure TypeProgram where
  declarations : List TypeDeclaration
  aliasEntries : List DeclarationEntry
  aliases : Aliases
  acyclic : ¬ Cyclic aliases
  enumCheckFile : ModuleFile

section Modules

variable (program : TypeProgram)

/-- `module_scope_lookup` in the module of a name: the first declaration of a name in it. -/
def moduleScopeLookup (moduleName name : Text) : Option DeclarationEntry :=
  (program.declarations.map TypeDeclaration.toDeclarationEntry ++ program.aliasEntries).find?
    fun entry => entry.file.moduleName == moduleName && entry.name == name

/-- `module_table_resolve_alias`: the module that a file imports under a name. -/
def moduleTableResolveAlias (file : ModuleFile) (name : Text) : Text :=
  ((file.moduleAliases.find? fun binding => binding.1 == name).map Prod.snd).getD name

def isModuleDeclarationVisible (file : ModuleFile) (entry : DeclarationEntry) : Bool :=
  !entry.isPrivate || file.path == entry.file.path

/-- `module_resolve_unqualified`: the own module, and then the first used one. -/
def moduleResolveUnqualified (file : ModuleFile) (name : Text) : Option DeclarationEntry :=
  match moduleScopeLookup program file.moduleName name with
  | some entry => some entry
  | none => file.usingModules.findSome? fun used =>
    (moduleScopeLookup program (moduleTableResolveAlias file used) name).filter
      (isModuleDeclarationVisible file)

/-- `module_resolve_qualified`; whether a private declaration may be named is checked elsewhere. -/
def moduleResolveQualified (file : ModuleFile) (qualifier name : Text) : Option DeclarationEntry :=
  if qualifier.isEmpty then none
  else moduleScopeLookup program (moduleTableResolveAlias file qualifier) name

/-- `module_resolve_written`, for a name that is not a composite spelling. -/
def moduleResolveWritten (file : ModuleFile) (written : Text) : Option DeclarationEntry :=
  if written.any fun c => (bytes "[]^:?,").contains c then none
  else if written.contains (byte '.') then
    let qualifier := written.takeWhile (· != byte '.')
    if qualifier.length ≥ 256 then none
    else moduleResolveQualified program file qualifier (written.drop (qualifier.length + 1))
  else moduleResolveUnqualified program file written

/-- What a `snprintf` to a message buffer keeps. -/
def snprintfMessage (text : Text) : Text := text.take 255

def moduleMangle (entry : DeclarationEntry) : Text :=
  if entry.file.moduleName.isEmpty then entry.name
  else snprintfMessage (entry.file.moduleName ++ byte '_' :: entry.name)

/-- The step of `find_at_depth_zero`: the depth of square brackets. -/
def squareStep (separator : UInt8) (depth : ℤ) (c : UInt8) : Option ℤ :=
  if c = byte '[' then some (depth + 1)
  else if c = byte ']' then some (depth - 1)
  else if c = separator ∧ depth = 0 then none
  else some depth

/-- The registry spelling of a name that is written in a file; a leading `.` names a declaration of
the entry module. -/
def moduleResolveLeaf (file : ModuleFile) (written : Text) : Option Text :=
  (if written.head? = some (byte '.') then moduleScopeLookup program [] (written.drop 1)
    else moduleResolveWritten program file written).map moduleMangle

/-- `module_resolve_type_name`, with fuel for the nesting: `none` for the spelling itself. The
spelling of a function type is left as it is: it stays one, which no declaration is named by. -/
def moduleResolveTypeName (file : ModuleFile) : ℕ → Text → Option Text
  | 0, _ => none
  | fuel + 1, written =>
    let closed := written.getLast? = some (byte ']')
    if written.isEmpty then none
    else if written.head? = some (byte '[') ∧ closed then
      let inner := (written.drop 1).take (written.length - 2)
      match scan (squareStep (byte ',')) 0 inner with
      | some (element, size) => some (snprintfMessage (byte '[' ::
          ((moduleResolveTypeName file fuel element).getD element ++ byte ',' :: (size ++ [byte ']']))))
      | none => (moduleResolveTypeName file fuel inner).map fun element =>
          snprintfMessage (byte '[' :: (element ++ [byte ']']))
    else if written.head? = some (byte '^') then
      (moduleResolveTypeName file fuel (written.drop 1)).map fun pointee =>
        snprintfMessage (byte '^' :: pointee)
    else if written.length > 5 ∧ (bytes "map[").isPrefixOf written ∧ closed then
      match scan (squareStep (byte ':')) 0 ((written.drop 4).take (written.length - 5)) with
      | none => none
      | some (key, value) =>
        let resolvedKey := moduleResolveTypeName file fuel key
        let resolvedValue := moduleResolveTypeName file fuel value
        if resolvedKey.isSome || resolvedValue.isSome then
          some (snprintfMessage (bytes "map[" ++ resolvedKey.getD key ++
            byte ':' :: (resolvedValue.getD value ++ [byte ']'])))
        else none
    else if written.length > 5 ∧ (bytes "func(").isPrefixOf written then none
    else moduleResolveLeaf program file written

/-- `checker_resolve_type_name`, while a file is current. -/
def checkerResolveTypeName (file : ModuleFile) (written : Text) : Text :=
  (moduleResolveTypeName program file (written.length + 1) written).getD written

/-- `resolve_type_alias`, which ends on aliases that are not circular: `none` for the name
itself. -/
def resolveTypeAlias (name : Text) : Option Text := (resolveTypeAliasImpl program.aliases
    (Nat.find (terminates_of_not_cyclic program.acyclic name)) name).get
      (Nat.find_spec (terminates_of_not_cyclic program.acyclic name))

end Modules

/-! ### The walk -/

/-- The step of the search for the comma of a fixed-size array. -/
def fixedStep (depth : ℤ) (c : UInt8) : Option ℤ :=
  if c = byte '[' then some (depth + 1)
  else if c = byte ']' then if depth - 1 = 0 then none else some (depth - 1)
  else if c = byte ',' ∧ depth = 1 then none
  else some depth

/-- The element of the spelling of a fixed-size array, as `array_spelling_is_fixed` tells one. -/
def fixedArrayElement (spelling : Text) : Option Text :=
  if spelling.head? = some (byte '[') then
    match scan fixedStep 0 spelling with
    | none => none
    | some (beforeStop, _) =>
      if (spelling.drop beforeStop.length).head? = some (byte ',') then some (beforeStop.drop 1)
      else none
  else none

/-- The loop of `fixed_array_innermost_element`, with fuel for the nesting. -/
def fixedArrayInnermost : ℕ → Text → Text
  | 0, spelling => spelling
  | fuel + 1, spelling =>
    match fixedArrayElement spelling with
    | none => spelling
    | some element => fixedArrayInnermost fuel element

/-- `fixed_array_innermost_element`; every element is shorter than its array. -/
def fixedArrayInnermostElement (spelling : Text) : Text :=
  fixedArrayInnermost spelling.length spelling

/-- Whether what a spelling stands for lies behind a pointer, an array or a map. -/
def breaksChain (spelling : Text) : Bool :=
  spelling.head? == some (byte '^') || spelling.head? == some (byte '[') ||
    (bytes "map[").isPrefixOf spelling

/-- A declaration with the spellings of its members as they stand in the syntax tree. -/
structure DeclarationNode where
  declaration : TypeDeclaration
  types : List Text

/-- `find_struct_or_enum_in_program`: the first struct of a bare name, or else the first enum. -/
def findStructOrEnumInProgram (nodes : List DeclarationNode) (name : Text) :
    Option DeclarationNode :=
  match nodes.find? fun node => !node.declaration.isEnum && node.declaration.name == name with
  | some node => some node
  | none => nodes.find? fun node => node.declaration.isEnum && node.declaration.name == name

section Walk

variable (program : TypeProgram)

/-- What `type_contains_by_value` reads a member as while a file is current. -/
def readMember (file : ModuleFile) (typeName : Text) : Text :=
  let resolved := checkerResolveTypeName program file typeName
  let inline := fixedArrayInnermostElement ((resolveTypeAlias program resolved).getD resolved)
  (resolveTypeAlias program inline).getD inline

/-- `struct_contains_by_value` and `type_contains_by_value`, with the room that is left for
declarations on the path. -/
def structContainsByValue (nodes : List DeclarationNode) (file : ModuleFile) (target : Text) :
    ℕ → List Text → DeclarationNode → Bool
  | 0, _, _ => false
  | room + 1, visited, node =>
    if node.declaration.name ∈ visited then false
    else node.types.any fun typeName =>
      if typeName.isEmpty then false
      else
        let read := readMember program file typeName
        if breaksChain read then false
        else if read = target then true
        else match findStructOrEnumInProgram nodes read with
          | none => false
          | some child =>
            structContainsByValue nodes file target room (node.declaration.name :: visited) child

def memberContains (nodes : List DeclarationNode) (file : ModuleFile) (selfName inlineName : Text) :
    Bool :=
  if inlineName.isEmpty || breaksChain inlineName then false
  else if inlineName = selfName then true
  else match findStructOrEnumInProgram nodes inlineName with
    | none => false
    | some child => structContainsByValue program nodes file selfName 32 [] child

/-! ### The reports -/

/-- A payload type as the registration of its enum reads it. -/
def payloadType (file : ModuleFile) (written : Text) : Text :=
  let resolved := checkerResolveTypeName program file written
  let inline := fixedArrayInnermostElement ((resolveTypeAlias program resolved).getD resolved)
  (resolveTypeAlias program inline).getD inline

def parsedNodes : List DeclarationNode := program.declarations.map fun d => ⟨d, d.members.map spell⟩

/-- `register_declaration_enums`: whether E3061 is reported, for each declaration. -/
def registerDeclarationEnums : List Bool :=
  program.declarations.map fun d => d.isEnum && (d.members.map spell).any fun written =>
    memberContains program (parsedNodes program) program.enumCheckFile d.name
      (payloadType program d.file written)

/-- What is left in the syntax tree for the type of a field. -/
def rewriteField (file : ModuleFile) (typeName : Text) : Text :=
  (resolveTypeAlias program (checkerResolveTypeName program file typeName)).getD typeName

/-- The loop over the fields of a struct, between the nodes before and after it: its fields as they
are left, and whether E3061 is reported. -/
def registerFields (before after : List DeclarationNode) (d : TypeDeclaration) :
    List Text → List Text → List Text × Bool
  | done, [] => (done, false)
  | done, typeName :: rest =>
    let fieldType := rewriteField program d.file typeName
    let nodes := before ++ ⟨d, done ++ fieldType :: rest⟩ :: after
    let registered := registerFields before after d (done ++ [fieldType]) rest
    (registered.1, memberContains program nodes d.file d.name (fixedArrayInnermostElement fieldType) ||
      registered.2)

/-- The loop of `register_declaration_structs`. -/
def registerStructs : List DeclarationNode → List DeclarationNode → List Bool
  | _, [] => []
  | before, node :: after =>
    if node.declaration.isEnum then false :: registerStructs (before ++ [node]) after
    else
      let registered := registerFields program before after node.declaration [] node.types
      registered.2 :: registerStructs (before ++ [⟨node.declaration, registered.1⟩]) after

/-- `register_declaration_structs`: whether E3061 is reported, for each declaration. -/
def registerDeclarationStructs : List Bool := registerStructs program [] (parsedNodes program)

/-- E3061 is reported for the declaration at a position. -/
def IsReported (i : ℕ) : Prop := (registerDeclarationEnums program)[i]? = some true ∨
    (registerDeclarationStructs program)[i]? = some true

end Walk
/-! ### Containment by value -/

/-- The names of which a type stores a value inline: its own one, that of the target of an alias,
and those of the elements of a fixed-size array. Names are resolved in a module where the type is
written, and not at all in the target of a registered alias. -/
inductive InlineName (aliases : Aliases) : (Text → Text) → WrittenType → Text → Prop
  | name {resolve : Text → Text} {n : TypeName} (h : aliases.find (resolve n.text) = none) :
    InlineName aliases resolve (.name n) (resolve n.text)
  | target {resolve : Text → Text} {n : TypeName} {d : AliasDeclaration} {key : Text}
    (h : aliases.find (resolve n.text) = some d) (hd : InlineName aliases id d.target key) :
    InlineName aliases resolve (.name n) key
  | element {resolve : Text → Text} {element : WrittenType} {size : TypeName} {key : Text}
    (h : InlineName aliases resolve element key) :
    InlineName aliases resolve (.fixedArray element size) key

section Containment

variable (program : TypeProgram)

def registryKey (file : ModuleFile) (name : Text) : Text :=
  (moduleResolveLeaf program file name).getD name

/-- A member of a declaration is another one by value. -/
def Contains (d d' : TypeDeclaration) : Prop := d' ∈ program.declarations ∧ ∃ type ∈ d.members,
    InlineName program.aliases (registryKey program d.file) type
      (moduleMangle d'.toDeclarationEntry)

/-- A declaration contains itself by value, directly or through others. -/
def ContainsItself (d : TypeDeclaration) : Prop := Relation.TransGen (Contains program) d d

/-! ### Chains as the walk reads them -/

/-- The names that the walk reads in the members of the declaration of a bare name. -/
def readNames (nodes : List DeclarationNode) (file : ModuleFile) (name : Text) : List Text :=
  match findStructOrEnumInProgram nodes name with
  | none => []
  | some node => ((node.types.filter fun typeName => !typeName.isEmpty).map
      (readMember program file)).filter fun read => !breaksChain read

/-- A member is read as the declaration itself, or as a name that leads back to it over fewer than
32 others. -/
def ReadsBack (nodes : List DeclarationNode) (file : ModuleFile) (selfName inlineName : Text) : Prop :=
  (inlineName.isEmpty || breaksChain inlineName) = false ∧ (inlineName = selfName ∨
    ∃ l, PathTo (readNames program nodes file) selfName inlineName l ∧ l.length < 32)

def parsedNode (d : TypeDeclaration) : DeclarationNode := ⟨d, d.members.map spell⟩

/-- A declaration once it is registered: the fields of a struct are rewritten. -/
def registeredNode (d : TypeDeclaration) : DeclarationNode :=
  if d.isEnum then parsedNode d
  else ⟨d, (d.members.map spell).map (rewriteField program d.file)⟩

/-- A field of a struct, when it is its turn, leads back to the struct. -/
def FieldReadsBack (before after : List TypeDeclaration) (d : TypeDeclaration) : Prop :=
  ∃ done typeName rest, d.members.map spell = done ++ typeName :: rest ∧
    ReadsBack program (before.map (registeredNode program) ++
      ⟨d, (done ++ [typeName]).map (rewriteField program d.file) ++ rest⟩ :: after.map parsedNode)
      d.file d.name (fixedArrayInnermostElement (rewriteField program d.file typeName))

/-- A payload of an enum leads back to the enum. -/
def PayloadReadsBack (d : TypeDeclaration) : Prop :=
  ∃ written ∈ d.members.map spell, ReadsBack program (parsedNodes program) program.enumCheckFile
    d.name (payloadType program d.file written)

/-- A member of the declaration at a position leads back to it, over at most 32 others, as the walk
reads them. -/
def ChainReadsBack (i : ℕ) : Prop :=
  ∃ before d after, program.declarations = before ++ d :: after ∧ before.length = i ∧
    if d.isEnum then PayloadReadsBack program d else FieldReadsBack program before after d

end Containment

/-! ### The walk is a search -/

section Search

variable {program : TypeProgram} {nodes : List DeclarationNode} {file : ModuleFile}

theorem name_of_findStructOrEnumInProgram {name : Text} {node : DeclarationNode}
    (h : findStructOrEnumInProgram nodes name = some node) : node.declaration.name = name := by
  unfold findStructOrEnumInProgram at h
  split at h
  · rename_i found hfnd
    cases h
    have hname := find?_some hfnd
    rw [Bool.and_eq_true, beq_iff_eq] at hname
    exact hname.2
  · have hname := find?_some h
    rw [Bool.and_eq_true, beq_iff_eq] at hname
    exact hname.2

theorem pathSearch_of_not_found {target name : Text}
    (h : findStructOrEnumInProgram nodes name = none) (room : ℕ) (path : List Text) :
    pathSearch (readNames program nodes file) target room path name = false := by
  cases room with
  | zero => rfl
  | succ room =>
    rw [pathSearch, show readNames program nodes file name = [] by rw [readNames, h]]
    split_ifs <;> rfl

theorem structContainsByValue_eq {target : Text} {room : ℕ} {visited : List Text}
    {node : DeclarationNode}
    (h : findStructOrEnumInProgram nodes node.declaration.name = some node) :
    structContainsByValue program nodes file target room visited node =
      pathSearch (readNames program nodes file) target room visited node.declaration.name := by
  induction room generalizing visited node with
  | zero => rfl
  | succ room ih =>
    rw [structContainsByValue, pathSearch]
    by_cases hvis : node.declaration.name ∈ visited
    · rw [if_pos hvis, if_pos hvis]
    · rw [if_neg hvis, if_neg hvis, readNames, h]
      dsimp only
      rw [any_filter, any_map, any_filter]
      congr 1
      funext typeName
      dsimp only [Function.comp]
      cases hemp : typeName.isEmpty with
      | true => rfl
      | false =>
        rw [if_neg Bool.false_ne_true]
        cases hbreaks : breaksChain (readMember program file typeName) with
        | true => rfl
        | false =>
          rw [if_neg Bool.false_ne_true]
          by_cases htgt : readMember program file typeName = target
          · rw [if_pos htgt, decide_eq_true htgt]
            rfl
          · rw [if_neg htgt, decide_eq_false htgt]
            cases hfind : findStructOrEnumInProgram nodes (readMember program file typeName) with
            | none => rw [pathSearch_of_not_found hfind]; rfl
            | some child =>
              have hname := name_of_findStructOrEnumInProgram hfind
              dsimp only
              rw [← hname] at hfind
              rw [ih hfind, hname]
              rfl

theorem memberContains_iff {selfName inlineName : Text} :
    memberContains program nodes file selfName inlineName = true ↔
      ReadsBack program nodes file selfName inlineName := by
  unfold memberContains ReadsBack
  cases hindirect : (inlineName.isEmpty || breaksChain inlineName) with
  | true => simp
  | false =>
    rw [if_neg Bool.false_ne_true]
    by_cases hself : inlineName = selfName
    · rw [if_pos hself]
      exact iff_of_true rfl ⟨rfl, .inl hself⟩
    · rw [if_neg hself, ← pathSearch_iff]
      cases hfind : findStructOrEnumInProgram nodes inlineName with
      | none =>
        rw [pathSearch_of_not_found hfind]
        exact iff_of_false Bool.false_ne_true fun h => h.2.elim hself Bool.false_ne_true
      | some child =>
        have hname := name_of_findStructOrEnumInProgram hfind
        dsimp only
        rw [← hname] at hfind hself
        rw [structContainsByValue_eq hfind, ← hname]
        exact ⟨fun h => ⟨rfl, .inr h⟩, fun h => h.2.resolve_left hself⟩

end Search
/-! ### The reports are the chains -/

section Reports

variable {program : TypeProgram}

theorem registerFields_fst (before after : List DeclarationNode) (d : TypeDeclaration)
    (done rest : List Text) : (registerFields program before after d done rest).1 =
      done ++ rest.map (rewriteField program d.file) := by
  induction rest generalizing done with
  | nil => rw [registerFields, map_nil, append_nil]
  | cons typeName rest ih => rw [registerFields, ih, map_cons, append_assoc]; rfl

theorem registerFields_snd (before after : List DeclarationNode) (d : TypeDeclaration)
    (done rest : List Text) : (registerFields program before after d done rest).2 = true ↔
      ∃ front typeName back, rest = front ++ typeName :: back ∧
        ReadsBack program (before ++ ⟨d, done ++ (front ++ [typeName]).map
          (rewriteField program d.file) ++ back⟩ :: after) d.file d.name
            (fixedArrayInnermostElement (rewriteField program d.file typeName)) := by
  induction rest generalizing done with
  | nil =>
    refine ⟨fun h => (by cases h), ?_⟩
    rintro ⟨front, typeName, back, h, -⟩
    cases front <;> cases h
  | cons typeName rest ih =>
    rw [registerFields, Bool.or_eq_true, memberContains_iff, ih]
    constructor
    · rintro (h | ⟨front, typeName', back, rfl, h⟩)
      · refine ⟨[], typeName, rest, rfl, ?_⟩
        simpa only [nil_append, map_cons, map_nil, append_assoc, singleton_append] using h
      · refine ⟨typeName :: front, typeName', back, rfl, ?_⟩
        simpa only [cons_append, nil_append, map_cons, append_assoc, singleton_append] using h
    · rintro ⟨front, typeName', back, heq, h⟩
      cases front with
      | nil =>
        obtain ⟨rfl, rfl⟩ := List.cons.inj heq
        refine .inl ?_
        simpa only [nil_append, map_cons, map_nil, append_assoc, singleton_append] using h
      | cons first front =>
        obtain ⟨rfl, rfl⟩ := List.cons.inj heq
        refine .inr ⟨front, typeName', back, rfl, ?_⟩
        simpa only [cons_append, nil_append, map_cons, append_assoc, singleton_append] using h

/-- The struct at a position is reported if one of its fields leads back, when the structs before it
are registered. -/
theorem registerStructs_iff (before after : List TypeDeclaration) (i : ℕ) :
    (registerStructs program (before.map (registeredNode program)) (after.map parsedNode))[i]? =
      some true ↔ ∃ mid d rest, after = mid ++ d :: rest ∧ mid.length = i ∧ d.isEnum = false ∧
        FieldReadsBack program (before ++ mid) rest d := by
  induction after generalizing before i with
  | nil =>
    refine ⟨fun h => (by cases h), ?_⟩
    rintro ⟨mid, d, rest, h, -⟩
    cases mid <;> cases h
  | cons d after ih =>
    have hrest : registerStructs program (before.map (registeredNode program))
        ((d :: after).map parsedNode) =
          (!d.isEnum && (registerFields program (before.map (registeredNode program))
            (after.map parsedNode) d [] (d.members.map spell)).2) ::
            registerStructs program ((before ++ [d]).map (registeredNode program))
              (after.map parsedNode) := by
      rw [map_cons, registerStructs, map_append, map_singleton, registeredNode]
      cases henum : d.isEnum with
      | true =>
        rw [if_pos (show (parsedNode d).declaration.isEnum = true from henum)]
        rfl
      | false =>
        rw [if_neg (show ¬ (parsedNode d).declaration.isEnum = true by
          rw [show (parsedNode d).declaration.isEnum = false from henum]; exact Bool.false_ne_true)]
        dsimp only
        rw [registerFields_fst]
        rfl
    rw [hrest]
    cases i with
    | zero =>
      rw [getElem?_cons_zero, Option.some_inj, Bool.and_eq_true, Bool.not_eq_true',
        registerFields_snd]
      constructor
      · rintro ⟨henum, front, typeName, back, hmems, h⟩
        exact ⟨[], d, after, rfl, rfl, henum, front, typeName, back, hmems,
          by rwa [append_nil]⟩
      · rintro ⟨mid, d', rest, heq, hlen, henum, front, typeName, back, hmems, h⟩
        obtain rfl := eq_nil_of_length_eq_zero hlen
        obtain ⟨rfl, rfl⟩ := List.cons.inj heq
        rw [append_nil] at h
        exact ⟨henum, front, typeName, back, hmems, h⟩
    | succ i =>
      rw [getElem?_cons_succ, ih]
      constructor
      · rintro ⟨mid, d', rest, rfl, rfl, henum, h⟩
        refine ⟨d :: mid, d', rest, rfl, rfl, henum, ?_⟩
        rwa [append_assoc, singleton_append] at h
      · rintro ⟨mid, d', rest, heq, hlen, henum, h⟩
        cases mid with
        | nil => cases hlen
        | cons first mid =>
          obtain ⟨rfl, rfl⟩ := List.cons.inj heq
          refine ⟨mid, d', rest, rfl, Nat.succ.inj hlen, henum, ?_⟩
          rwa [append_assoc, singleton_append]

theorem registerDeclarationEnums_iff (i : ℕ) : (registerDeclarationEnums program)[i]? = some true ↔
      ∃ before d after, program.declarations = before ++ d :: after ∧ before.length = i ∧
        d.isEnum = true ∧ PayloadReadsBack program d := by
  have hpayload : ∀ d : TypeDeclaration, ((d.members.map spell).any fun written =>
      memberContains program (parsedNodes program) program.enumCheckFile d.name
        (payloadType program d.file written)) = true ↔ PayloadReadsBack program d := fun d => by
    rw [any_eq_true]
    exact exists_congr fun _ => and_congr_right fun _ => memberContains_iff
  rw [registerDeclarationEnums, getElem?_map, Option.map_eq_some_iff]
  constructor
  · rintro ⟨d, hd, h⟩
    rw [Bool.and_eq_true, hpayload] at h
    obtain ⟨hlt, rfl⟩ := List.getElem?_eq_some_iff.mp hd
    refine ⟨program.declarations.take i, _, program.declarations.drop (i + 1), ?_,
      length_take_of_le (Nat.le_of_lt hlt), h⟩
    rw [getElem_cons_drop, take_append_drop]
  · rintro ⟨before, d, after, heq, rfl, henum, h⟩
    refine ⟨d, ?_, ?_⟩
    · rw [heq, getElem?_append_right le_rfl, Nat.sub_self, getElem?_cons_zero]
    · rw [Bool.and_eq_true, hpayload]
      exact ⟨henum, h⟩

theorem isReported_iff (i : ℕ) : IsReported program i ↔ ChainReadsBack program i := by
  have hstructs := @registerStructs_iff program [] program.declarations i
  rw [IsReported, registerDeclarationEnums_iff]
  refine (or_congr_right hstructs).trans ?_
  unfold ChainReadsBack
  constructor
  · rintro (⟨before, d, after, heq, hlen, henum, h⟩ | ⟨before, d, after, heq, hlen, henum, h⟩)
    · exact ⟨before, d, after, heq, hlen, by rwa [if_pos henum]⟩
    · refine ⟨before, d, after, heq, hlen, ?_⟩
      rwa [henum, if_neg Bool.false_ne_true]
  · rintro ⟨before, d, after, heq, hlen, h⟩
    cases henum : d.isEnum with
    | true =>
      rw [if_pos henum] at h
      exact .inl ⟨before, d, after, heq, hlen, henum, h⟩
    | false =>
      rw [henum, if_neg Bool.false_ne_true] at h
      exact .inr ⟨before, d, after, heq, hlen, henum, h⟩

end Reports
theorem resolveTypeAlias_of_impl {program : TypeProgram} {fuel : ℕ} {name : Text}
    {resolved : Option Text}
    (h : resolveTypeAliasImpl program.aliases fuel name = some resolved) :
    resolveTypeAlias program name = resolved := by
  have hspec := Nat.find_spec (terminates_of_not_cyclic program.acyclic name)
  have hmax := extends_resolveImpl program.aliases
    (Nat.le_max_left fuel (Nat.find (terminates_of_not_cyclic program.acyclic name))) _ _ h
  have hmax' := extends_resolveImpl program.aliases
    (Nat.le_max_right fuel (Nat.find (terminates_of_not_cyclic program.acyclic name))) _ _
      (Option.some_get hspec).symm
  exact Option.some.inj (hmax'.symm.trans hmax)

def importedFile : ModuleFile := ⟨bytes "m.gray", bytes "m", [], []⟩

/-- `struct A { b B }` and `struct B { a A }` in an imported module. -/
def importedStructs : List TypeDeclaration :=
  [⟨⟨bytes "A", importedFile, false⟩, false, [.name ⟨bytes "B", by decide, by decide⟩]⟩,
    ⟨⟨bytes "B", importedFile, false⟩, false, [.name nameUpperA]⟩]

/-- A program whose only types are those of an imported module. -/
def importedProgram : TypeProgram where
  declarations := importedStructs
  aliasEntries := []
  aliases := ⟨[], nodup_nil⟩
  acyclic := fun ⟨d, _⟩ => absurd d.2 not_mem_nil
  enumCheckFile := ⟨bytes "main.gray", [], [], []⟩

theorem rewriteField_imported :
    rewriteField importedProgram importedFile (bytes "B") = bytes "B" := by
  have hnone : resolveTypeAlias importedProgram (bytes "m_B") = none :=
    @resolveTypeAlias_of_impl _ 1 _ _ (by decide)
  rw [rewriteField, show checkerResolveTypeName importedProgram importedFile (bytes "B") =
    bytes "m_B" by decide, hnone]
  rfl

theorem readMember_imported :
    readMember importedProgram importedFile (bytes "A") = bytes "m_A" := by
  have hnone : resolveTypeAlias importedProgram (bytes "m_A") = none :=
    @resolveTypeAlias_of_impl _ 1 _ _ (by decide)
  rw [readMember, show checkerResolveTypeName importedProgram importedFile (bytes "A") =
    bytes "m_A" by decide, hnone, Option.getD_none, show fixedArrayInnermostElement (bytes "m_A") = bytes "m_A" by decide,
    hnone]
  rfl

end Grayscale
