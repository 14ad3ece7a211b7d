import Grayscale.Typechecker.TypeSpelling

/-!
# Qualified names in types

`module_resolve_type_name` of `module_table.c` replaces the names in the spelling of a type by the
mangled names of the declarations that they resolve to. It takes the spelling apart and writes it
again, each piece into a buffer of 256 bytes, and returns the spelling itself if nothing changes.

The look-ups of names are a parameter, so the results are about every table and every scope.
-/

namespace Grayscale.QualifiedTypes

open List

/-! ### Names -/

inductive DeclarationKind
  | struct | enum | function | alias | const
  deriving DecidableEq

/-- The name of a module, which is empty for the entry module. -/
structure ModuleName where
  text : Text
  isName : text.all isTypeNameByte = true

/-- What mangling reads of a declaration; `moduleName` is `none` for a null pointer. -/
structure DeclarationEntry where
  name : TypeName
  kind : DeclarationKind
  moduleName : Option ModuleName
  isExternal : Bool
  isModuleEntry : Bool

def moduleMangle (entry : DeclarationEntry) : Text :=
  if entry.isExternal then entry.name.text
  else if entry.isModuleEntry then entry.name.text
  else match entry.moduleName with
    | none => entry.name.text
    | some moduleName => snprintfMessage (moduleName.text ++ byte '_' :: entry.name.text)

theorem moduleMangle_isName (entry : DeclarationEntry) :
    moduleMangle entry ≠ [] ∧ (moduleMangle entry).all isTypeNameByte = true := by
  have hname := entry.name.isName
  rw [moduleMangle]
  split_ifs
  · exact ⟨entry.name.ne_nil, hname⟩
  · exact ⟨entry.name.ne_nil, hname⟩
  · cases entry.moduleName with
    | none => exact ⟨entry.name.ne_nil, hname⟩
    | some moduleName =>
      have hbyt : (moduleName.text ++ byte '_' :: entry.name.text).all isTypeNameByte = true := by
        rw [all_append, all_cons, moduleName.isName, hname]
        rfl
      refine ⟨fun hnil => ?_, ?_⟩
      · have hlen := congrArg List.length hnil
        simp [snprintfMessage] at hlen
      · exact all_eq_true.mpr fun c hc =>
          all_eq_true.mp hbyt c (mem_of_mem_take hc)

def DeclarationEntry.mangledName (entry : DeclarationEntry) : TypeName :=
  ⟨moduleMangle entry, (moduleMangle_isName entry).1, (moduleMangle_isName entry).2⟩

/-- The look-ups of one table from one scope. -/
structure Lookups where
  /-- `module_resolve_written`. -/
  resolveWritten : Text → Option DeclarationEntry
  /-- `module_scope_lookup` in the entry module. -/
  entryModule : Text → Option DeclarationEntry

/-- The declaration of a leaf, if it names a type. -/
def Lookups.leafEntry (lookups : Lookups) (written : Text) : Option DeclarationEntry :=
  (if written.head? = some (byte '.') then lookups.entryModule (written.drop 1)
    else lookups.resolveWritten written).filter fun entry => entry.kind ∈ [.struct, .enum, .alias]

/-- The mangled name of a leaf, if it names a type. -/
def Lookups.leaf (lookups : Lookups) (written : Text) : Option Text :=
  (lookups.leafEntry written).map moduleMangle

/-! ### The resolution -/

/-- The loops that append types to a buffer, with commas between them. -/
def joinMessage : List Text → Text
  | [] => []
  | first :: rest =>
    rest.foldl (fun buffer text => snprintfMessage (buffer ++ byte ',' :: text))
      (snprintfMessage first)

/-- A function type that is written again, if one of its types changes. -/
def rebuildFunction (resolve : Text → Option Text) (signature : FunctionText) : Option Text :=
  let resolved := fun text => (resolve text).getD text
  let parameterList := joinMessage (signature.parameters.map fun parameter =>
    (if parameter.isMutable then [byte '&'] else []) ++ resolved parameter.type)
  let returnList := match signature.results with
    | [] => []
    | [result] => snprintfMessage (resolved result)
    | results => snprintfMessage (byte '(' :: (joinMessage (results.map resolved) ++ [byte ')']))
  if (signature.parameters.any fun parameter => (resolve parameter.type).isSome) ||
      signature.results.any fun result => (resolve result).isSome then
    some (snprintfMessage (if signature.results.isEmpty then
        bytes "func(" ++ (parameterList ++ [byte ')'])
      else bytes "func(" ++ (parameterList ++ byte ')' :: (bytes "->" ++ returnList))))
  else none

/-- `module_resolve_type_name`, with fuel for the nesting: `none` for the spelling itself. The
signature is the one that `type_from_name` reads. -/
@[grind =] def moduleResolveTypeName (lookups : Lookups) : ℕ → Text → Option Text
  | 0, _ => none
  | fuel + 1, written =>
    if written.isEmpty then none
    else match moduleArrayParts written with
    | some (element, some size) => some (snprintfMessage (byte '[' ::
        ((moduleResolveTypeName lookups fuel element).getD element ++
          byte ',' :: (size ++ [byte ']']))))
    | some (element, none) => (moduleResolveTypeName lookups fuel element).map fun element =>
        snprintfMessage (byte '[' :: (element ++ [byte ']']))
    | none =>
      match modulePointee written with
      | some pointee => (moduleResolveTypeName lookups fuel pointee).map fun pointee =>
          snprintfMessage (byte '^' :: pointee)
      | none =>
        if 5 < written.length ∧ (bytes "map[").isPrefixOf written = true ∧
            written.getLast? = some (byte ']') then
          (moduleMapParts written).bind fun parts =>
            let resolvedKey := moduleResolveTypeName lookups fuel parts.1
            let resolvedValue := moduleResolveTypeName lookups fuel parts.2
            if resolvedKey.isSome || resolvedValue.isSome then
              some (snprintfMessage (bytes "map[" ++ (resolvedKey.getD parts.1 ++
                byte ':' :: (resolvedValue.getD parts.2 ++ [byte ']']))))
            else none
        else if 5 < written.length ∧ (bytes "func(").isPrefixOf written = true then
          (parseFunctionSignature written).bind
            (rebuildFunction (moduleResolveTypeName lookups fuel))
        else lookups.leaf written

/-- The text that `module_resolve_type_name` returns. -/
def resolveTypeName (lookups : Lookups) (written : Text) : Text :=
  (moduleResolveTypeName lookups (written.length + 1) written).getD written

/-! ### Renaming -/

/-- What a name is replaced by. -/
def Lookups.rename (lookups : Lookups) (n : TypeName) : TypeName :=
  match lookups.leafEntry n.text with
  | some entry => entry.mangledName
  | none => n

section Rename

variable (f : TypeName → TypeName)

mutual

/-- The same type with other names; the sizes of arrays are no names. -/
@[grind =] def mapNames : WrittenType → WrittenType
  | .name n => .name (f n)
  | .pointer pointee => .pointer (mapNames pointee)
  | .array element => .array (mapNames element)
  | .fixedArray element size => .fixedArray (mapNames element) size
  | .map key value => .map (mapNames key) (mapNames value)
  | .procedure parameters => .procedure (mapParameterNames parameters)
  | .function parameters result => .function (mapParameterNames parameters) (mapNames result)
  | .functionList parameters results =>
    .functionList (mapParameterNames parameters) (mapResultNames results)

@[grind =]
def mapParameterNames : List (TypeParameter WrittenType) → List (TypeParameter WrittenType)
  | [] => []
  | ⟨isMutable, type⟩ :: l => ⟨isMutable, mapNames type⟩ :: mapParameterNames l

@[grind =] def mapResultNames : List WrittenType → List WrittenType
  | [] => []
  | type :: l => mapNames type :: mapResultNames l

end

end Rename

/-! ### The renamed spelling -/

@[grind =] def commaList : List Text → Text
  | [] => []
  | [text] => text
  | text :: text' :: rest => text ++ byte ',' :: commaList (text' :: rest)

section Respell

variable (lookups : Lookups)

mutual

/-- The spelling of a type with the mangled names of the names that resolve to a type. -/
@[grind =] def respell : WrittenType → Text
  | .name n => (lookups.leaf n.text).getD n.text
  | .pointer pointee => byte '^' :: respell pointee
  | .array element => byte '[' :: (respell element ++ [byte ']'])
  | .fixedArray element size =>
    byte '[' :: (respell element ++ byte ',' :: (size.text ++ [byte ']']))
  | .map key value => bytes "map[" ++ (respell key ++ byte ':' :: (respell value ++ [byte ']']))
  | .procedure parameters =>
    bytes "func(" ++ (commaList (respellParameters parameters) ++ [byte ')'])
  | .function parameters result =>
    bytes "func(" ++ (commaList (respellParameters parameters) ++
      byte ')' :: (bytes "->" ++ respell result))
  | .functionList parameters results =>
    bytes "func(" ++ (commaList (respellParameters parameters) ++
      byte ')' :: (bytes "->" ++ byte '(' :: (commaList (respellResults results) ++ [byte ')'])))

def respellParameters : List (TypeParameter WrittenType) → List Text
  | [] => []
  | ⟨isMutable, type⟩ :: l =>
    ((if isMutable then [byte '&'] else []) ++ respell type) :: respellParameters l

@[grind =] def respellResults : List WrittenType → List Text
  | [] => []
  | type :: l => respell type :: respellResults l

end

mutual

/-- The spelling is written again: a name resolves, or an array has a size. -/
@[grind =] def isRebuilt : WrittenType → Bool
  | .name n => (lookups.leaf n.text).isSome
  | .pointer pointee => isRebuilt pointee
  | .array element => isRebuilt element
  | .fixedArray _ _ => true
  | .map key value => isRebuilt key || isRebuilt value
  | .procedure parameters => areParametersRebuilt parameters
  | .function parameters result => areParametersRebuilt parameters || isRebuilt result
  | .functionList parameters results => areParametersRebuilt parameters || areResultsRebuilt results

@[grind =] def areParametersRebuilt : List (TypeParameter WrittenType) → Bool
  | [] => false
  | ⟨_, type⟩ :: l => isRebuilt type || areParametersRebuilt l

@[grind =] def areResultsRebuilt : List WrittenType → Bool
  | [] => false
  | type :: l => isRebuilt type || areResultsRebuilt l

end

/-- What is written again fits in a buffer. -/
def Fits (type : WrittenType) : Prop := isRebuilt lookups type = true →
  (respell lookups type).length < 256

mutual

/-- The spelling is taken apart as it was written, and fits wherever it is written again. A result
`void` and a list of less than two results are not written again as they were. -/
def Keeps : WrittenType → Prop
  | .name _ => True
  | .pointer pointee => Keeps pointee ∧ Fits lookups (.pointer pointee)
  | .array element =>
    exposesComma element = false ∧ Keeps element ∧ Fits lookups (.array element)
  | .fixedArray element size =>
    exposesComma element = false ∧ Keeps element ∧ Fits lookups (.fixedArray element size)
  | .map key value => Keeps key ∧ Keeps value ∧ Fits lookups (.map key value)
  | .procedure parameters => ParametersKeep parameters ∧ Fits lookups (.procedure parameters)
  | .function parameters result =>
    ParametersKeep parameters ∧ Keeps result ∧ Fits lookups (.function parameters result) ∧
      (isRebuilt lookups (.function parameters result) = true →
        spell result ≠ bytes "void" ∧ respell lookups result ≠ bytes "void")
  | .functionList parameters results =>
    ParametersKeep parameters ∧ ResultsKeep results ∧
      Fits lookups (.functionList parameters results) ∧
      (isRebuilt lookups (.functionList parameters results) = true → 2 ≤ results.length)

def ParametersKeep : List (TypeParameter WrittenType) → Prop
  | [] => True
  | ⟨_, type⟩ :: l => Keeps type ∧ ParametersKeep l

def ResultsKeep : List WrittenType → Prop
  | [] => True
  | type :: l => Keeps type ∧ ResultsKeep l

end

end Respell

/-! ### Lists of types -/

theorem sizeOf_type_lt {parameter : TypeParameter WrittenType}
    {parameters : List (TypeParameter WrittenType)} (h : parameter ∈ parameters) :
    sizeOf parameter.type < sizeOf parameters := by
  have hlt := sizeOf_lt_of_mem h
  obtain ⟨isMutable, type⟩ := parameter
  simp only [TypeParameter.mk.sizeOf_spec] at hlt ⊢
  omega

theorem writtenType_induction {P : WrittenType → Prop} (hname : ∀ n, P (.name n))
    (hpointer : ∀ pointee, P pointee → P (.pointer pointee))
    (harray : ∀ element, P element → P (.array element))
    (hfixed : ∀ element size, P element → P (.fixedArray element size))
    (hmap : ∀ key value, P key → P value → P (.map key value))
    (hproc : ∀ parameters, (∀ parameter ∈ parameters, P parameter.type) → P (.procedure parameters))
    (hfn : ∀ parameters result, (∀ parameter ∈ parameters, P parameter.type) → P result →
      P (.function parameters result))
    (hlist : ∀ parameters results, (∀ parameter ∈ parameters, P parameter.type) →
      (∀ result ∈ results, P result) → P (.functionList parameters results)) (type : WrittenType) :
    P type := by
  induction hsize : sizeOf type using Nat.strong_induction_on generalizing type with
  | _ n ih =>
    subst hsize
    have hless : ∀ other : WrittenType, sizeOf other < sizeOf type → P other :=
      fun other hlt => ih _ hlt other rfl
    cases type with
    | name n => exact hname n
    | pointer pointee => exact hpointer _ (hless _ (by simp))
    | array element => exact harray _ (hless _ (by simp))
    | fixedArray element size =>
      exact hfixed _ _ (hless _ (by simp only [WrittenType.fixedArray.sizeOf_spec]; omega))
    | map key value =>
      exact hmap _ _ (hless _ (by simp only [WrittenType.map.sizeOf_spec]; omega))
        (hless _ (by simp only [WrittenType.map.sizeOf_spec]; omega))
    | procedure parameters =>
      refine hproc _ fun parameter hpar => hless _ ?_
      have hlt := sizeOf_type_lt hpar
      simp only [WrittenType.procedure.sizeOf_spec]
      omega
    | function parameters result =>
      refine hfn _ _ (fun parameter hpar => hless _ ?_) (hless _ ?_)
      · have hlt := sizeOf_type_lt hpar
        simp only [WrittenType.function.sizeOf_spec]
        omega
      · simp only [WrittenType.function.sizeOf_spec]
        omega
    | functionList parameters results =>
      refine hlist _ _ (fun parameter hpar => hless _ ?_)
        fun result hres => hless _ ?_
      · have hlt := sizeOf_type_lt hpar
        simp only [WrittenType.functionList.sizeOf_spec]
        omega
      · have hlt := sizeOf_lt_of_mem hres
        simp only [WrittenType.functionList.sizeOf_spec]
        omega

section Lists

variable (lookups : Lookups)

theorem respellParameters_eq (parameters : List (TypeParameter WrittenType)) :
    respellParameters lookups parameters = parameters.map fun parameter =>
      (if parameter.isMutable then [byte '&'] else []) ++ respell lookups parameter.type := by
  induction parameters with
  | nil => rw [respellParameters, map_nil]
  | cons parameter l ih => rw [respellParameters, ih, map_cons]

theorem respellResults_eq (results : List WrittenType) :
    respellResults lookups results = results.map (respell lookups) := by
  induction results with
  | nil => rw [respellResults, map_nil]
  | cons result l ih => rw [respellResults, ih, map_cons]

theorem areRebuilt_eq (parameters : List (TypeParameter WrittenType)) :
    areParametersRebuilt lookups parameters =
      parameters.any fun parameter => isRebuilt lookups parameter.type := by
  induction parameters with
  | nil => rw [areParametersRebuilt, any_nil]
  | cons parameter l ih => rw [areParametersRebuilt, ih, any_cons]

theorem areResultsRebuilt_eq (results : List WrittenType) :
    areResultsRebuilt lookups results = results.any (isRebuilt lookups) := by
  induction results with
  | nil => rw [areResultsRebuilt, any_nil]
  | cons result l ih => rw [areResultsRebuilt, ih, any_cons]

theorem parametersKeep_iff {parameters : List (TypeParameter WrittenType)} :
    ParametersKeep lookups parameters ↔ ∀ parameter ∈ parameters, Keeps lookups parameter.type := by
  induction parameters with
  | nil => simp [ParametersKeep]
  | cons parameter l ih => simp [ParametersKeep, ih]

theorem resultsKeep_iff {results : List WrittenType} :
    ResultsKeep lookups results ↔ ∀ result ∈ results, Keeps lookups result := by
  induction results with
  | nil => simp [ResultsKeep]
  | cons result l ih => simp [ResultsKeep, ih]

end Lists

theorem commaList_cons (text : Text) (l : List Text) :
    commaList (text :: l) = text ++ (if l.isEmpty then [] else byte ',' :: commaList l) := by
  cases l with
  | nil => exact (append_nil text).symm
  | cons => rfl

theorem parameters_eq (parameters : List (TypeParameter WrittenType)) :
    spellParameters parameters = commaList (parameters.map spellParameter) := by
  induction parameters with
  | nil => rfl
  | cons parameter l ih =>
    change spellParameter parameter ++ (if l.isEmpty then [] else byte ',' :: spellParameters l) = _
    rw [ih, map_cons, commaList_cons, isEmpty_map]

theorem results_eq (results : List WrittenType) :
    spellResults results = commaList (results.map spell) := by
  induction results with
  | nil => rfl
  | cons result l ih =>
    rw [spellResults, ih, map_cons, commaList_cons, isEmpty_map]

theorem joinMessage_eq {texts : List Text} (h : (commaList texts).length < 256) :
    joinMessage texts = commaList texts := by
  have hloop : ∀ (rest : List Text) (buffer : Text), (commaList (buffer :: rest)).length < 256 →
      rest.foldl (fun buffer text => snprintfMessage (buffer ++ byte ',' :: text)) buffer =
        commaList (buffer :: rest) := by
    intro rest
    induction rest with
    | nil => exact fun _ _ => rfl
    | cons text rest ih =>
      intro buffer hlen
      have hmerge : commaList ((buffer ++ byte ',' :: text) :: rest) =
          commaList (buffer :: text :: rest) := by
        rw [commaList_cons, commaList, commaList_cons text]
        simp
      have hfits : (buffer ++ byte ',' :: text).length ≤ 255 := by
        rw [← hmerge, commaList_cons, length_append] at hlen
        omega
      rw [foldl_cons, snprintfMessage, take_of_length_le hfits, ih _ (by rwa [hmerge]), hmerge]
  cases texts with
  | nil => rfl
  | cons first rest =>
    have hfits : first.length ≤ 255 := by
      rw [commaList_cons, length_append] at h
      omega
    rw [joinMessage, snprintfMessage, take_of_length_le hfits]
    exact hloop rest first h

theorem respell_of_not_isRebuilt {lookups : Lookups} (type : WrittenType)
    (h : isRebuilt lookups type = false) : respell lookups type = spell type := by
  have hpars : ∀ {parameters : List (TypeParameter WrittenType)},
      (∀ parameter ∈ parameters, isRebuilt lookups parameter.type = false →
        respell lookups parameter.type = spell parameter.type) →
      areParametersRebuilt lookups parameters = false →
        commaList (respellParameters lookups parameters) = spellParameters parameters := by
    intro parameters ih hblt
    rw [areRebuilt_eq, any_eq_false] at hblt
    rw [parameters_eq, respellParameters_eq]
    refine congrArg commaList (map_congr_left fun parameter hpar => ?_)
    rw [ih parameter hpar (Bool.eq_false_iff.mpr (hblt parameter hpar))]
    rfl
  induction type using writtenType_induction with
  | hname n => rw [respell, Option.not_isSome_iff_eq_none.mp (Bool.eq_false_iff.mp h)]; rfl
  | hpointer pointee ih => rw [respell, spell, ih h]
  | harray element ih => rw [respell, spell, ih h]
  | hfixed element size => cases h
  | hmap key value ihkey ihvalue =>
    obtain ⟨hkey, hval⟩ := Bool.or_eq_false_iff.mp h
    rw [respell, spell, ihkey hkey, ihvalue hval]
  | hproc parameters ih => rw [respell, spell, hpars ih h]
  | hfn parameters result ih ihresult =>
    obtain ⟨hfst, hres⟩ := Bool.or_eq_false_iff.mp h
    rw [respell, spell, hpars ih hfst, ihresult hres]
  | hlist parameters results ih ihresults =>
    obtain ⟨hfst, hress⟩ := Bool.or_eq_false_iff.mp h
    rw [areResultsRebuilt_eq, any_eq_false] at hress
    have hlist : commaList (respellResults lookups results) = spellResults results := by
      rw [results_eq, respellResults_eq]
      exact congrArg commaList (map_congr_left fun result hres =>
        ihresults result hres (Bool.eq_false_iff.mpr (hress result hres)))
    rw [respell, spell, hpars ih hfst, hlist]

/-! ### One step of the resolution -/

section Steps

variable {lookups : Lookups} {fuel : ℕ}

theorem resolveName_name (n : TypeName) :
    moduleResolveTypeName lookups (fuel + 1) n.text = lookups.leaf n.text := by
  have hemp : n.text.isEmpty = false := isEmpty_eq_false_iff.mpr n.ne_nil
  have harray : moduleArrayParts n.text = none := by
    rw [moduleArrayParts, if_neg (fun h => n.head_ne rfl h.1)]
  have hpointer : modulePointee n.text = none := by
    rw [modulePointee, if_neg (n.head_ne rfl)]
  have hmap := @TypeName.isPrefixOf_eq_false n (bytes "map[") ⟨byte '[', by decide, rfl⟩
  have hfunc := @TypeName.isPrefixOf_eq_false n (bytes "func(") ⟨byte '(', by decide, rfl⟩
  rw [moduleResolveTypeName, hemp, if_neg Bool.false_ne_true, harray]
  simp [hpointer, hmap, hfunc]

theorem resolveName_pointer (pointee : WrittenType) :
    moduleResolveTypeName lookups (fuel + 1) (spell (.pointer pointee)) =
      (moduleResolveTypeName lookups fuel (spell pointee)).map fun pointee =>
        snprintfMessage (byte '^' :: pointee) := by
  have harray : moduleArrayParts (spell (.pointer pointee)) = none := by
    rw [moduleArrayParts, if_neg fun h => absurd h.1 (by rw [spell]; intro h; cases h)]
  rw [moduleResolveTypeName, harray]
  rfl

theorem resolveName_array {element : WrittenType}
    (h : exposesComma element = false) :
    moduleResolveTypeName lookups (fuel + 1) (spell (.array element)) =
      (moduleResolveTypeName lookups fuel (spell element)).map fun element =>
        snprintfMessage (byte '[' :: (element ++ [byte ']'])) := by
  have hpts : moduleArrayParts (spell (.array element)) = some (spell element, none) := by
    rw [spell, moduleArrayParts_bracketed (spell_ne_nil element),
      scan_eq_none (walk_squareStep_spell (Or.inl rfl) element fun _ => h)]
    rfl
  rw [moduleResolveTypeName, hpts]
  rfl

theorem resolveName_fixedArray {element : WrittenType} (size : TypeName)
    (h : exposesComma element = false) :
    moduleResolveTypeName lookups (fuel + 1) (spell (.fixedArray element size)) =
      some (snprintfMessage (byte '[' ::
        ((moduleResolveTypeName lookups fuel (spell element)).getD (spell element) ++
          byte ',' :: (size.text ++ [byte ']'])))) := by
  have hpts : moduleArrayParts (spell (.fixedArray element size)) =
      some (spell element, some size.text) := by
    rw [spell_fixedArray, moduleArrayParts_bracketed (by simp),
      scan_stop (walk_squareStep_spell (Or.inl rfl) element fun _ => h) rfl]
    rfl
  rw [moduleResolveTypeName, hpts]
  rfl

theorem resolveName_map (key value : WrittenType) :
    moduleResolveTypeName lookups (fuel + 1) (spell (.map key value)) =
      if (moduleResolveTypeName lookups fuel (spell key)).isSome ||
          (moduleResolveTypeName lookups fuel (spell value)).isSome then
        some (snprintfMessage (bytes "map[" ++
          ((moduleResolveTypeName lookups fuel (spell key)).getD (spell key) ++ byte ':' ::
            ((moduleResolveTypeName lookups fuel (spell value)).getD (spell value) ++ [byte ']']))))
      else none := by
  have harray : moduleArrayParts (spell (.map key value)) = none := by
    rw [moduleArrayParts, if_neg fun h => absurd h.1 (by rw [spell]; intro h; cases h)]
  have hpointer : modulePointee (spell (.map key value)) = none := by
    rw [modulePointee, if_neg (by rw [spell]; intro h; cases h)]
  have hpts := moduleMapParts_spell key value
  have hmap : 5 < (spell (.map key value)).length ∧
      (bytes "map[").isPrefixOf (spell (.map key value)) = true ∧
      (spell (.map key value)).getLast? = some (byte ']') := by
    by_contra hnot
    rw [moduleMapParts, if_neg hnot] at hpts
    cases hpts
  rw [moduleResolveTypeName, harray, hpointer]
  dsimp only
  rw [if_neg (by rw [spell]; exact Bool.false_ne_true), if_pos hmap, hpts, Option.bind_some]

theorem resolveName_func (parameters : List (TypeParameter WrittenType)) (tail : Text) :
    moduleResolveTypeName lookups (fuel + 1)
        (bytes "func(" ++ (spellParameters parameters ++ byte ')' :: tail)) =
      rebuildFunction (moduleResolveTypeName lookups fuel)
        ⟨parameterTexts parameters, signatureResults tail⟩ := by
  have hsig := parseFunctionSignature_eq parameters tail
  have hlen : 5 < (bytes "func(" ++ (spellParameters parameters ++ byte ')' :: tail)).length := by
    rw [length_append, length_append, length_cons,
      show (bytes "func(").length = 5 from rfl]
    omega
  have harray : moduleArrayParts
      (bytes "func(" ++ (spellParameters parameters ++ byte ')' :: tail)) = none := by
    rw [moduleArrayParts, if_neg fun h => absurd h.1 fun h => by cases h]
  have hpointer : modulePointee
      (bytes "func(" ++ (spellParameters parameters ++ byte ')' :: tail)) = none := by
    rw [modulePointee, if_neg fun h => by cases h]
  have hemp : (bytes "func(" ++ (spellParameters parameters ++ byte ')' :: tail)).isEmpty =
      false := rfl
  rw [moduleResolveTypeName, hemp, if_neg Bool.false_ne_true, harray, hpointer]
  dsimp only
  rw [if_neg fun h => absurd h.2.1 Bool.false_ne_true, if_pos ⟨hlen, rfl⟩, hsig, Option.bind_some]

end Steps

/-! ### The whole spelling -/

section Resolution

variable {lookups : Lookups}

theorem message_of_lt {text : Text} (h : text.length < 256) : snprintfMessage text = text :=
  take_of_length_le (by omega)

def Replaces (lookups : Lookups) (resolve : Text → Option Text) (type : WrittenType) : Prop :=
  resolve (spell type) = if isRebuilt lookups type then some (respell lookups type) else none

variable {resolve : Text → Option Text}

theorem Replaces.getD_eq {type : WrittenType}
    (h : Replaces lookups resolve type) :
    (resolve (spell type)).getD (spell type) = respell lookups type := by
  rw [h]
  split_ifs with hblt
  · rfl
  · exact (respell_of_not_isRebuilt type (Bool.eq_false_iff.mpr hblt)).symm

theorem Replaces.isSome_eq {type : WrittenType}
    (h : Replaces lookups resolve type) :
    (resolve (spell type)).isSome = isRebuilt lookups type := by
  rw [h]
  cases isRebuilt lookups type <;> rfl

variable {parameters : List (TypeParameter WrittenType)}

theorem areRebuilt_of_replaces
    (h : ∀ parameter ∈ parameters, Replaces lookups resolve parameter.type) :
    ((parameterTexts parameters).any fun parameter => (resolve parameter.type).isSome) =
      areParametersRebuilt lookups parameters := by
  induction parameters with
  | nil => rfl
  | cons parameter l ih =>
    have hrest := ih fun p hp => h p (mem_cons_of_mem _ hp)
    have hfst := (h parameter mem_cons_self).isSome_eq
    rw [areParametersRebuilt, ← hrest, ← hfst]
    rfl

variable {results : List WrittenType}

theorem areResultsRebuilt_of_replaces
    (h : ∀ result ∈ results, Replaces lookups resolve result) :
    ((results.map spell).any fun result => (resolve result).isSome) =
      areResultsRebuilt lookups results := by
  induction results with
  | nil => rfl
  | cons result l ih =>
    have hrest := ih fun r hr => h r (mem_cons_of_mem _ hr)
    have hfst := (h result mem_cons_self).isSome_eq
    rw [areResultsRebuilt, ← hrest, ← hfst]
    rfl

def functionText (parameters results : List Text) : Text :=
  match results with
  | [] => bytes "func(" ++ (commaList parameters ++ [byte ')'])
  | [result] => bytes "func(" ++ (commaList parameters ++ byte ')' :: (bytes "->" ++ result))
  | results => bytes "func(" ++ (commaList parameters ++
      byte ')' :: (bytes "->" ++ byte '(' :: (commaList results ++ [byte ')'])))

theorem rebuildFunction_eq
    (hpars : ∀ parameter ∈ parameters, Replaces lookups resolve parameter.type)
    (hress : ∀ result ∈ results, Replaces lookups resolve result)
    (hlen : areParametersRebuilt lookups parameters || areResultsRebuilt lookups results →
      (functionText (respellParameters lookups parameters)
        (respellResults lookups results)).length < 256) :
    rebuildFunction resolve ⟨parameterTexts parameters, results.map spell⟩ =
      if areParametersRebuilt lookups parameters || areResultsRebuilt lookups results then
        some (functionText (respellParameters lookups parameters) (respellResults lookups results))
      else none := by
  have hparameterTexts : ((parameterTexts parameters).map fun parameter =>
      (if parameter.isMutable then [byte '&'] else []) ++
        (resolve parameter.type).getD parameter.type) = respellParameters lookups parameters := by
    rw [respellParameters_eq, parameterTexts, map_map]
    refine map_congr_left fun parameter hpar => ?_
    change (if parameter.isMutable then [byte '&'] else []) ++
      (resolve (spell parameter.type)).getD (spell parameter.type) = _
    rw [(hpars parameter hpar).getD_eq]
  have hresultTexts : (results.map spell).map (fun text => (resolve text).getD text) =
      respellResults lookups results := by
    rw [respellResults_eq, map_map]
    exact map_congr_left fun result hres => (hress result hres).getD_eq
  rw [rebuildFunction, areRebuilt_of_replaces hpars, areResultsRebuilt_of_replaces hress]
  dsimp only
  rw [hparameterTexts]
  by_cases hblt : (areParametersRebuilt lookups parameters ||
      areResultsRebuilt lookups results) = true
  · rw [if_pos hblt, if_pos hblt]
    have hfits := hlen hblt
    rcases results with _ | ⟨result, _ | ⟨result', rest⟩⟩
    · simp only [respellResults, functionText, length_append] at hfits ⊢
      rw [joinMessage_eq (by omega)]
      exact congrArg some (message_of_lt (by simpa using hfits))
    · have hres := (hress result mem_cons_self).getD_eq
      simp only [respellResults, functionText, length_append, length_cons] at hfits ⊢
      simp only [map_cons, map_nil, hres, isEmpty_cons, Bool.false_eq_true, if_false]
      have hmsg : snprintfMessage (respell lookups result) = respell lookups result :=
        message_of_lt (by omega)
      rw [joinMessage_eq (by omega), hmsg]
      exact congrArg some (message_of_lt (by simpa using hfits))
    · simp only [map_cons] at hresultTexts
      simp only [respellResults, functionText, length_append, length_cons] at hfits ⊢
      simp only [map_cons, hresultTexts, isEmpty_cons, Bool.false_eq_true, if_false, respellResults]
      rw [joinMessage_eq (by omega), joinMessage_eq (by omega)]
      generalize commaList (respell lookups result :: respell lookups result' ::
        respellResults lookups rest) = list at hfits ⊢
      have hmsg : snprintfMessage (byte '(' :: (list ++ [byte ')'])) =
          byte '(' :: (list ++ [byte ')']) := by
        refine message_of_lt ?_
        rw [length_cons, length_append, length_singleton]
        omega
      rw [hmsg]
      exact congrArg some (message_of_lt (by simpa using hfits))
  · rw [if_neg hblt, if_neg hblt]

theorem length_le_commaList {texts : List Text} {text : Text} (h : text ∈ texts) :
    text.length ≤ (commaList texts).length := by
  induction texts with
  | nil => cases h
  | cons first rest ih =>
    rw [commaList_cons, length_append]
    rcases mem_cons.mp h with rfl | hrest
    · exact Nat.le_add_right _ _
    · have hle := ih hrest
      rw [if_neg (by rw [isEmpty_eq_false_iff.mpr (ne_nil_of_mem hrest)]; simp), length_cons]
      omega

theorem length_le_spellParameters
    {parameter : TypeParameter WrittenType} (h : parameter ∈ parameters) :
    (spell parameter.type).length ≤ (spellParameters parameters).length := by
  have hle := length_le_commaList (mem_map_of_mem (f := spellParameter) h)
  rw [← parameters_eq, spellParameter, length_append] at hle
  omega

theorem length_le_results {result : WrittenType}
    (h : result ∈ results) : (spell result).length ≤ (spellResults results).length := by
  rw [results_eq]
  exact length_le_commaList (mem_map_of_mem h)

theorem replaces_parameters {fuel : ℕ}
    (ih : ∀ parameter ∈ parameters, ∀ fuel, Keeps lookups parameter.type →
      (spell parameter.type).length < fuel →
        Replaces lookups (moduleResolveTypeName lookups fuel) parameter.type)
    (hkp : ParametersKeep lookups parameters)
    (hfuel : (spellParameters parameters).length < fuel) : ∀ parameter ∈ parameters,
      Replaces lookups (moduleResolveTypeName lookups fuel) parameter.type := by
  intro parameter hpar
  have hle := length_le_spellParameters hpar
  exact ih parameter hpar fuel ((parametersKeep_iff lookups).mp hkp _ hpar)
    (by omega)

/-- The names of a type are replaced, if every component is taken apart and written again as it
was. -/
theorem replaces_of_keeps (type : WrittenType) : ∀ fuel, Keeps lookups type →
    (spell type).length < fuel → Replaces lookups (moduleResolveTypeName lookups fuel) type := by
  induction type using writtenType_induction with
  | hname n =>
    intro fuel _ hfuel
    obtain ⟨fuel, rfl⟩ := Nat.exists_eq_add_of_lt hfuel
    rw [Replaces, spell, resolveName_name, isRebuilt, respell]
    cases lookups.leaf n.text <;> rfl
  | hpointer pointee ih =>
    rintro (_ | fuel) ⟨hkp, hfits⟩ hfuel
    · cases hfuel
    have hpointee := ih fuel hkp (by simpa [spell] using hfuel)
    rw [Replaces, resolveName_pointer, hpointee]
    change _ = if isRebuilt lookups pointee then _ else _
    split_ifs with hblt
    · exact congrArg some (message_of_lt (hfits hblt))
    · rfl
  | harray element ih =>
    rintro (_ | fuel) ⟨hcom, hkp, hfits⟩ hfuel
    · cases hfuel
    have helem := ih fuel hkp (by simp [spell] at hfuel; omega)
    rw [Replaces, resolveName_array hcom, helem]
    change _ = if isRebuilt lookups element then _ else _
    split_ifs with hblt
    · exact congrArg some (message_of_lt (hfits hblt))
    · rfl
  | hfixed element size ih =>
    rintro (_ | fuel) ⟨hcom, hkp, hfits⟩ hfuel
    · cases hfuel
    have helem := ih fuel hkp (by simp [spell] at hfuel; omega)
    rw [Replaces, resolveName_fixedArray size hcom, helem.getD_eq]
    exact congrArg some (message_of_lt (hfits rfl))
  | hmap key value ihkey ihvalue =>
    rintro (_ | fuel) ⟨hkey, hval, hfits⟩ hfuel
    · cases hfuel
    have hfst := ihkey fuel hkey (by simp [spell] at hfuel; omega)
    have hsnd := ihvalue fuel hval (by simp [spell] at hfuel; omega)
    rw [Replaces, resolveName_map, hfst.isSome_eq, hsnd.isSome_eq, hfst.getD_eq, hsnd.getD_eq]
    change _ = if isRebuilt lookups key || isRebuilt lookups value then _ else _
    split_ifs with hblt
    · exact congrArg some (message_of_lt (hfits hblt))
    · rfl
  | hproc parameters ih =>
    rintro (_ | fuel) ⟨hkp, hfits⟩ hfuel
    · cases hfuel
    have hpars := @replaces_parameters lookups _ fuel ih hkp (by
      simp [spell] at hfuel
      omega)
    have hrebuild := @rebuildFunction_eq lookups _ parameters [] hpars (by simp) (by
      rw [areResultsRebuilt, Bool.or_false]
      exact hfits)
    rw [areResultsRebuilt, Bool.or_false] at hrebuild
    rw [Replaces, spell, resolveName_func]
    exact hrebuild
  | hfn parameters result ih ihresult =>
    rintro (_ | fuel) ⟨hkp, hres, hfits, hvoid⟩ hfuel
    · cases hfuel
    rw [spell, length_append, length_append, length_cons, length_append] at hfuel
    have hpars := @replaces_parameters lookups _ fuel ih hkp (by omega)
    have hreplaces := ihresult fuel hres (by omega)
    rw [Replaces, spell, resolveName_func]
    change _ = if areParametersRebuilt lookups parameters || isRebuilt lookups result then _ else _
    by_cases hname : spell result = bytes "void"
    · -- No result is read, so the type must not be written again.
      have hblt : ¬ (areParametersRebuilt lookups parameters || isRebuilt lookups result) =
          true := fun hblt => (hvoid hblt).1 hname
      obtain ⟨hfst, -⟩ := Bool.or_eq_false_iff.mp (Bool.eq_false_iff.mpr hblt)
      have hress : signatureResults (bytes "->" ++ spell result) = [] := by
        rw [hname]
        rfl
      have hrebuild := @rebuildFunction_eq lookups _ parameters [] hpars (by simp) (by
        rw [areResultsRebuilt, Bool.or_false, hfst]
        nofun)
      rw [areResultsRebuilt, Bool.or_false, hfst] at hrebuild
      rw [hress, if_neg hblt]
      exact hrebuild
    · have hrebuild := @rebuildFunction_eq lookups _ parameters [result] hpars
        (fun other hoth => mem_singleton.mp hoth ▸ hreplaces) (by
          rw [areResultsRebuilt, areResultsRebuilt, Bool.or_false]
          exact hfits)
      rw [areResultsRebuilt, areResultsRebuilt, Bool.or_false] at hrebuild
      rw [signatureResults_spell hname]
      exact hrebuild
  | hlist parameters results ih ihresults =>
    rintro (_ | fuel) ⟨hkp, hress, hfits, htwo⟩ hfuel
    · cases hfuel
    rw [spell, length_append, length_append, length_cons, length_append,
      length_cons, length_append] at hfuel
    have hpars := @replaces_parameters lookups _ fuel ih hkp (by omega)
    have hreplaces : ∀ result ∈ results,
        Replaces lookups (moduleResolveTypeName lookups fuel) result := by
      intro result hres
      have hle := length_le_results hres
      exact ihresults result hres fuel ((resultsKeep_iff lookups).mp hress _ hres)
        (by omega)
    -- A list of two results or more is written again with its parentheses.
    have htext : isRebuilt lookups (.functionList parameters results) = true →
        functionText (respellParameters lookups parameters) (respellResults lookups results) =
          respell lookups (.functionList parameters results) := by
      intro hblt
      have hlen := htwo hblt
      rcases results with _ | ⟨result, _ | ⟨result', rest⟩⟩
      · exact absurd hlen (by decide)
      · exact absurd hlen (by simp)
      · rfl
    have hrebuild := rebuildFunction_eq hpars hreplaces fun hblt =>
      (congrArg List.length (htext hblt)).trans_lt (hfits hblt)
    rw [Replaces, spell, resolveName_func, signatureResults_results, hrebuild]
    change _ = if areParametersRebuilt lookups parameters || areResultsRebuilt lookups results
      then _ else _
    split_ifs with hblt
    · rw [htext hblt]
    · rfl

end Resolution

/-! ### Resolving again -/

section Renaming

variable (f : TypeName → TypeName)

theorem mapParameters_eq
    (parameters : List (TypeParameter WrittenType)) : mapParameterNames f parameters =
      parameters.map fun parameter => ⟨parameter.isMutable, mapNames f parameter.type⟩ := by
  induction parameters with
  | nil => rw [mapParameterNames, map_nil]
  | cons parameter l ih => rw [mapParameterNames, ih, map_cons]

theorem mapResults_eq (results : List WrittenType) :
    mapResultNames f results = results.map (mapNames f) := by
  induction results with
  | nil => rw [mapResultNames, map_nil]
  | cons result l ih => rw [mapResultNames, ih, map_cons]

theorem mapNames_mapNames {f g : TypeName → TypeName} (h : ∀ n, g (f n) = f n)
    (type : WrittenType) : mapNames g (mapNames f type) = mapNames f type := by
  have hpars : ∀ {parameters : List (TypeParameter WrittenType)}, (∀ parameter ∈ parameters,
        mapNames g (mapNames f parameter.type) = mapNames f parameter.type) →
      mapParameterNames g (mapParameterNames f parameters) = mapParameterNames f parameters := by
    intro parameters ih
    rw [mapParameters_eq, mapParameters_eq, map_map]
    refine map_congr_left fun parameter hpar => ?_
    rw [Function.comp_apply, ih parameter hpar]
  induction type using writtenType_induction with
  | hname n => rw [mapNames, mapNames, h]
  | hpointer pointee ih => rw [mapNames, mapNames, ih]
  | harray element ih => rw [mapNames, mapNames, ih]
  | hfixed element size ih => rw [mapNames, mapNames, ih]
  | hmap key value ihkey ihvalue => rw [mapNames, mapNames, ihkey, ihvalue]
  | hproc parameters ih => rw [mapNames, mapNames, hpars ih]
  | hfn parameters result ih ihresult =>
    rw [mapNames, mapNames, hpars ih, ihresult]
  | hlist parameters results ih ihresults =>
    have hress : mapResultNames g (mapResultNames f results) = mapResultNames f results := by
      rw [mapResults_eq, mapResults_eq, map_map]
      exact map_congr_left ihresults
    rw [mapNames, mapNames, hpars ih, hress]

variable (type : WrittenType)

theorem exposesComma_mapNames : exposesComma (mapNames f type) = exposesComma type := by
  have hpars : ∀ {parameters : List (TypeParameter WrittenType)}, (∀ parameter ∈ parameters,
        exposesComma (mapNames f parameter.type) = exposesComma parameter.type) →
      parametersExposeComma (mapParameterNames f parameters) =
        parametersExposeComma parameters := by
    intro parameters ih
    induction parameters with
    | nil => rfl
    | cons parameter l ihl =>
      have hemp : (mapParameterNames f l).isEmpty = l.isEmpty := by
        rw [mapParameters_eq, isEmpty_map]
      rw [mapParameterNames, parametersExposeComma, parametersExposeComma, hemp,
        ih parameter mem_cons_self, ihl fun p hp => ih p (mem_cons_of_mem _ hp)]
  induction type using writtenType_induction with
  | hname | harray | hfixed | hmap => rfl
  | hpointer pointee ih => exact ih
  | hproc parameters ih => exact hpars ih
  | hfn parameters result ih ihresult =>
    rw [mapNames, exposesComma, exposesComma, hpars ih, ihresult]
  | hlist parameters results ih ihresults =>
    have hress : resultsExposeComma (mapResultNames f results) = resultsExposeComma results := by
      clear ih
      induction results with
      | nil => rfl
      | cons result l ihl =>
        have hemp : (mapResultNames f l).isEmpty = l.isEmpty := by
          rw [mapResults_eq, isEmpty_map]
        rw [mapResultNames, resultsExposeComma, resultsExposeComma, hemp,
          ihresults result mem_cons_self, ihl fun r hr => ihresults r (mem_cons_of_mem _ hr)]
    rw [mapNames, exposesComma, exposesComma, hpars ih, hress]

variable {lookups : Lookups}

theorem spell_mapNames_rename : spell (mapNames lookups.rename type) = respell lookups type := by
  have hpars : ∀ {parameters : List (TypeParameter WrittenType)}, (∀ parameter ∈ parameters,
        spell (mapNames lookups.rename parameter.type) = respell lookups parameter.type) →
      spellParameters (mapParameterNames lookups.rename parameters) =
        commaList (respellParameters lookups parameters) := by
    intro parameters ih
    rw [parameters_eq, respellParameters_eq, mapParameters_eq, map_map]
    refine congrArg commaList (map_congr_left fun parameter hpar => ?_)
    rw [Function.comp_apply, spellParameter, ih parameter hpar]
  induction type using writtenType_induction with
  | hname n =>
    rw [mapNames, spell, respell, Lookups.rename, Lookups.leaf]
    cases lookups.leafEntry n.text <;> rfl
  | hpointer pointee ih => rw [mapNames, spell, respell, ih]
  | harray element ih => rw [mapNames, spell, respell, ih]
  | hfixed element size ih => rw [mapNames, spell, respell, ih]
  | hmap key value ihkey ihvalue => rw [mapNames, spell, respell, ihkey, ihvalue]
  | hproc parameters ih => rw [mapNames, spell, respell, hpars ih]
  | hfn parameters result ih ihresult =>
    rw [mapNames, spell, respell, hpars ih, ihresult]
  | hlist parameters results ih ihresults =>
    have hress : spellResults (mapResultNames lookups.rename results) =
        commaList (respellResults lookups results) := by
      rw [results_eq, respellResults_eq, mapResults_eq, map_map]
      exact congrArg commaList (map_congr_left ihresults)
    rw [mapNames, spell, respell, hpars ih, hress]

theorem isRebuilt_of_mapNames_rename
    (h : isRebuilt lookups (mapNames lookups.rename type) = true) :
    isRebuilt lookups type = true := by
  have hpars : ∀ {parameters : List (TypeParameter WrittenType)},
      (∀ parameter ∈ parameters, isRebuilt lookups (mapNames lookups.rename parameter.type) = true →
        isRebuilt lookups parameter.type = true) →
      areParametersRebuilt lookups (mapParameterNames lookups.rename parameters) = true →
        areParametersRebuilt lookups parameters = true := by
    intro parameters ih hblt
    rw [areRebuilt_eq, mapParameters_eq, any_map, any_eq_true] at hblt
    obtain ⟨parameter, hmem, hpar⟩ := hblt
    rw [areRebuilt_eq, any_eq_true]
    exact ⟨parameter, hmem, ih parameter hmem hpar⟩
  induction type using writtenType_induction with
  | hname n =>
    rw [mapNames, isRebuilt, Lookups.rename] at h
    rw [isRebuilt, Lookups.leaf]
    cases hent : lookups.leafEntry n.text with
    | some entry => rfl
    | none =>
      rw [hent] at h
      rwa [Lookups.leaf, hent] at h
  | hpointer pointee ih => exact ih h
  | harray element ih => exact ih h
  | hfixed => rfl
  | hmap key value ihkey ihvalue =>
    rw [mapNames, isRebuilt, Bool.or_eq_true] at h
    rw [isRebuilt, Bool.or_eq_true]
    exact h.imp ihkey ihvalue
  | hproc parameters ih => exact hpars ih h
  | hfn parameters result ih ihresult =>
    rw [mapNames, isRebuilt, Bool.or_eq_true] at h
    rw [isRebuilt, Bool.or_eq_true]
    exact h.imp (hpars ih) ihresult
  | hlist parameters results ih ihresults =>
    rw [mapNames, isRebuilt, Bool.or_eq_true] at h
    rw [isRebuilt, Bool.or_eq_true]
    refine h.imp (hpars ih) fun hblt => ?_
    rw [areResultsRebuilt_eq, mapResults_eq, any_map, any_eq_true] at hblt
    obtain ⟨result, hmem, hres⟩ := hblt
    rw [areResultsRebuilt_eq, any_eq_true]
    exact ⟨result, hmem, ihresults result hmem hres⟩

/-- No mangled name resolves to a type with another mangled name. -/
def MangledNamesStay (lookups : Lookups) : Prop :=
  ∀ written entry, lookups.leafEntry written = some entry →
    ∀ entry', lookups.leafEntry (moduleMangle entry) = some entry' →
      moduleMangle entry' = moduleMangle entry

theorem rename_rename (h : MangledNamesStay lookups) (n : TypeName) :
    lookups.rename (lookups.rename n) = lookups.rename n := by
  cases hent : lookups.leafEntry n.text with
  | none =>
    have hsame : lookups.rename n = n := by rw [Lookups.rename, hent]
    rw [hsame, hsame]
  | some entry =>
    have hname : lookups.rename n = entry.mangledName := by rw [Lookups.rename, hent]
    rw [hname, Lookups.rename]
    change (match lookups.leafEntry (moduleMangle entry) with
      | some entry => entry.mangledName
      | none => entry.mangledName) = _
    cases hagain : lookups.leafEntry (moduleMangle entry) with
    | none => rfl
    | some entry' => exact (TypeName.mk.injEq ..).mpr (h _ _ hent _ hagain)

section Again

variable (h : MangledNamesStay lookups)

include h

theorem respell_mapNames_rename (type : WrittenType) :
    respell lookups (mapNames lookups.rename type) = respell lookups type := by
  rw [← spell_mapNames_rename, mapNames_mapNames (rename_rename h), spell_mapNames_rename]

theorem fits_mapNames_rename {type : WrittenType} (hfits : Fits lookups type) :
    Fits lookups (mapNames lookups.rename type) := by
  intro hblt
  rw [respell_mapNames_rename h]
  exact hfits (isRebuilt_of_mapNames_rename type hblt)

theorem keeps_mapNames_rename (type : WrittenType) (hkp : Keeps lookups type) :
    Keeps lookups (mapNames lookups.rename type) := by
  have hpars : ∀ {parameters : List (TypeParameter WrittenType)},
      (∀ parameter ∈ parameters, Keeps lookups parameter.type →
        Keeps lookups (mapNames lookups.rename parameter.type)) →
      ParametersKeep lookups parameters →
        ParametersKeep lookups (mapParameterNames lookups.rename parameters) := by
    intro parameters ih hkeep
    rw [parametersKeep_iff] at hkeep ⊢
    rw [mapParameters_eq]
    intro renamed hrenamed
    obtain ⟨parameter, hmem, rfl⟩ := mem_map.mp hrenamed
    exact ih parameter hmem (hkeep parameter hmem)
  induction type using writtenType_induction with
  | hname n => trivial
  | hpointer pointee ih => exact ⟨ih hkp.1, fits_mapNames_rename h hkp.2⟩
  | harray element ih =>
    obtain ⟨hcom, helem, hfits⟩ := hkp
    exact ⟨(exposesComma_mapNames _ element).trans hcom, ih helem, fits_mapNames_rename h hfits⟩
  | hfixed element size ih =>
    obtain ⟨hcom, helem, hfits⟩ := hkp
    exact ⟨(exposesComma_mapNames _ element).trans hcom, ih helem, fits_mapNames_rename h hfits⟩
  | hmap key value ihkey ihvalue =>
    obtain ⟨hkey, hval, hfits⟩ := hkp
    exact ⟨ihkey hkey, ihvalue hval, fits_mapNames_rename h hfits⟩
  | hproc parameters ih =>
    exact ⟨hpars ih hkp.1, fits_mapNames_rename h hkp.2⟩
  | hfn parameters result ih ihresult =>
    obtain ⟨hfst, hres, hfits, hvoid⟩ := hkp
    refine ⟨hpars ih hfst, ihresult hres, fits_mapNames_rename h hfits, fun hblt => ?_⟩
    have hname := (hvoid (isRebuilt_of_mapNames_rename (.function parameters result) hblt)).2
    rw [spell_mapNames_rename, respell_mapNames_rename h]
    exact ⟨hname, hname⟩
  | hlist parameters results ih ihresults =>
    obtain ⟨hfst, hress, hfits, htwo⟩ := hkp
    refine ⟨hpars ih hfst, ?_, fits_mapNames_rename h hfits, fun hblt => ?_⟩
    · rw [resultsKeep_iff] at hress ⊢
      rw [mapResults_eq]
      intro renamed hrenamed
      obtain ⟨result, hmem, rfl⟩ := mem_map.mp hrenamed
      exact ihresults result hmem (hress result hmem)
    · rw [mapResults_eq, length_map]
      exact htwo (isRebuilt_of_mapNames_rename (.functionList parameters results) hblt)

end Again

theorem resolveTypeName_of_keeps {type : WrittenType} (hkp : Keeps lookups type) :
    resolveTypeName lookups (spell type) = spell (mapNames lookups.rename type) := by
  rw [resolveTypeName, (replaces_of_keeps type _ hkp (Nat.lt_succ_self _)).getD_eq,
    spell_mapNames_rename]

/-- If the spelling is kept, the names that resolve to types are replaced and nothing else is. What
comes out is resolved to itself, unless a mangled name resolves to something else. -/
theorem resolveTypeName_spec (lookups : Lookups) (type : WrittenType)
    (hkeeps : Keeps lookups type) :
    resolveTypeName lookups (spell type) = spell (mapNames lookups.rename type) ∧
      (MangledNamesStay lookups → resolveTypeName lookups (resolveTypeName lookups (spell type)) =
          resolveTypeName lookups (spell type)) := by
  refine ⟨resolveTypeName_of_keeps hkeeps, fun hstay => ?_⟩
  rw [resolveTypeName_of_keeps hkeeps,
    resolveTypeName_of_keeps (keeps_mapNames_rename hstay type hkeeps),
    mapNames_mapNames (rename_rename hstay)]

end Renaming

/-- Look-ups in which only `Rec` is declared, in a module `mod`. -/
def recordLookups : Lookups where
  resolveWritten written :=
    if written = bytes "Rec" then
      some ⟨⟨bytes "Rec", by decide, by decide⟩, .struct, some ⟨bytes "mod", by decide⟩, false,
        false⟩
    else none
  entryModule _ := none

def recordName : WrittenType := .name ⟨bytes "Rec", by decide, by decide⟩

def integerName : WrittenType := .name nameI64

theorem mangledNamesStay_recordLookups : MangledNamesStay recordLookups := by
  intro written entry hent entry' hent'
  rw [Lookups.leafEntry] at hent
  split_ifs at hent with hdot
  · cases hent
  · obtain ⟨hfnd, -⟩ := Option.filter_eq_some_iff.mp hent
    simp only [recordLookups] at hfnd
    split_ifs at hfnd
    cases hfnd
    cases hent'

/-- `func([Rec],^Rec)->(i64,Rec)` is renamed. -/
theorem resolveTypeName_spec_record :
    resolveTypeName recordLookups (bytes "func([Rec],^Rec)->(i64,Rec)") =
        bytes "func([mod_Rec],^mod_Rec)->(i64,mod_Rec)" ∧
      resolveTypeName recordLookups (bytes "func([mod_Rec],^mod_Rec)->(i64,mod_Rec)") =
        bytes "func([mod_Rec],^mod_Rec)->(i64,mod_Rec)" := by
  have hspec := resolveTypeName_spec recordLookups
    (.functionList [⟨false, .array recordName⟩, ⟨false, .pointer recordName⟩]
      [integerName, recordName])
    ⟨⟨⟨rfl, trivial, fun _ => by decide⟩, ⟨trivial, fun _ => by decide⟩, trivial⟩,
      ⟨trivial, trivial, trivial⟩, fun _ => by decide, fun _ => by decide⟩
  have hagain := hspec.2 mangledNamesStay_recordLookups
  rw [hspec.1] at hagain
  exact ⟨hspec.1, hagain⟩

/-- The comma in `[func(Rec,i64)->Rec]` is taken for the one before the size of an array. -/
theorem resolveTypeName_exposed : resolveTypeName recordLookups
        (spell (.array (.function [⟨false, recordName⟩, ⟨false, integerName⟩] recordName))) =
      bytes "[func(Rec,i64)->Rec]" ∧ spell (mapNames recordLookups.rename
        (.array (.function [⟨false, recordName⟩, ⟨false, integerName⟩] recordName))) =
      bytes "[func(mod_Rec,i64)->mod_Rec]" := by
  decide

end Grayscale.QualifiedTypes
