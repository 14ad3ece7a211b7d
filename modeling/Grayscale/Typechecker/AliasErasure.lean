import Grayscale.Typechecker.AliasCycles
import Mathlib.Data.List.Chain

/-!
# Alias erasure

On an acyclic table every type has an expansion without alias names. The resolution gives its
spelling where the limits of its buffers and of its loop over a chain of names are met, and
resolving that spelling again changes nothing.
-/

namespace Grayscale

open List
open Option (bind_eq_some_iff bind_some getD_none map_eq_some_iff map_some some.inj)

/-! ### Expansion -/

mutual

/-- A type with other types in place of its names. -/
def substitute (f : TypeName → WrittenType) : WrittenType → WrittenType
  | .name n => f n
  | .pointer pointee => .pointer (substitute f pointee)
  | .array element => .array (substitute f element)
  | .fixedArray element size => .fixedArray (substitute f element) size
  | .map key value => .map (substitute f key) (substitute f value)
  | .procedure parameters => .procedure (substituteParameters f parameters)
  | .function parameters result =>
    .function (substituteParameters f parameters) (substitute f result)
  | .functionList parameters results =>
    .functionList (substituteParameters f parameters) (substituteResults f results)

/-- The parameters of a function type with other types in place of their names. -/
def substituteParameters (f : TypeName → WrittenType) :
    List (TypeParameter WrittenType) → List (TypeParameter WrittenType)
  | [] => []
  | ⟨isMutable, type⟩ :: l => ⟨isMutable, substitute f type⟩ :: substituteParameters f l

def substituteResults (f : TypeName → WrittenType) : List WrittenType → List WrittenType
  | [] => []
  | type :: l => substitute f type :: substituteResults f l

end

/-- A type with its aliases replaced by their targets, and so on to a depth. -/
def expand (aliases : Aliases) : ℕ → WrittenType → WrittenType
  | 0, type => type
  | k + 1, type => substitute (fun n =>
    match aliases.find n.text with
    | none => .name n
    | some d => expand aliases k d.target) type

/-- A type with every alias in it replaced by its expanded target. No chain of references is longer
than the table. -/
def expanded (aliases : Aliases) (type : WrittenType) : WrittenType :=
  expand aliases aliases.declarations.length type

/-- The parameters of a function type with every alias in them replaced. -/
def expandedParameters (aliases : Aliases) (parameters : List (TypeParameter WrittenType)) :
    List (TypeParameter WrittenType) :=
  parameters.map fun parameter => ⟨parameter.isMutable, expanded aliases parameter.type⟩

theorem TypeName.eq_of_text {n m : TypeName} (h : n.text = m.text) : n = m := by
  cases n
  cases m
  cases h
  rfl

section Substitute

variable {f g : TypeName → WrittenType}

mutual

theorem mem_typeNames_substitute : ∀ (type : WrittenType) {name : Text},
    name ∈ typeNames (substitute f type) ↔
      ∃ n : TypeName, n.text ∈ typeNames type ∧ name ∈ typeNames (f n)
  | .name n, name => by
    refine ⟨fun h => ⟨n, mem_singleton_self _, h⟩, fun ⟨m, hm, h⟩ => ?_⟩
    rwa [TypeName.eq_of_text (mem_singleton.mp hm)] at h
  | .pointer pointee, name => mem_typeNames_substitute pointee
  | .array element, name => mem_typeNames_substitute element
  | .fixedArray element _, name => mem_typeNames_substitute element
  | .map key value, name => by
    simp only [substitute, typeNames, mem_append, mem_typeNames_substitute key,
      mem_typeNames_substitute value, or_and_right, exists_or]
  | .procedure parameters, name => mem_parameterNames_substitute parameters
  | .function parameters result, name => by
    simp only [substitute, typeNames, mem_append, mem_parameterNames_substitute parameters,
      mem_typeNames_substitute result, or_and_right, exists_or]
  | .functionList parameters results, name => by
    simp only [substitute, typeNames, mem_append, mem_parameterNames_substitute parameters,
      mem_resultNames_substitute results, or_and_right, exists_or]

theorem mem_parameterNames_substitute : ∀ (parameters : List (TypeParameter WrittenType))
    {name : Text}, name ∈ parameterNames (substituteParameters f parameters) ↔
      ∃ n : TypeName, n.text ∈ parameterNames parameters ∧ name ∈ typeNames (f n)
  | [], name => by simp [substituteParameters, parameterNames]
  | ⟨_, type⟩ :: l, name => by
    simp only [substituteParameters, parameterNames, mem_append, mem_typeNames_substitute type,
      mem_parameterNames_substitute l, or_and_right, exists_or]

theorem mem_resultNames_substitute : ∀ (results : List WrittenType) {name : Text},
    name ∈ resultNames (substituteResults f results) ↔
      ∃ n : TypeName, n.text ∈ resultNames results ∧ name ∈ typeNames (f n)
  | [], name => by simp [substituteResults, resultNames]
  | type :: l, name => by
    simp only [substituteResults, resultNames, mem_append, mem_typeNames_substitute type,
      mem_resultNames_substitute l, or_and_right, exists_or]

end

mutual

theorem substitute_congr : ∀ (type : WrittenType),
    (∀ n : TypeName, n.text ∈ typeNames type → f n = g n) → substitute f type = substitute g type
  | .name n, h => h n (mem_singleton_self _)
  | .pointer pointee, h => congrArg WrittenType.pointer (substitute_congr pointee h)
  | .array element, h => congrArg WrittenType.array (substitute_congr element h)
  | .fixedArray element size, h =>
    congrArg (WrittenType.fixedArray · size) (substitute_congr element h)
  | .map key value, h => by
    rw [substitute, substitute, substitute_congr key fun n hn => h n (mem_append_left _ hn),
      substitute_congr value fun n hn => h n (mem_append_right _ hn)]
  | .procedure parameters, h => congrArg WrittenType.procedure (parameters_congr parameters h)
  | .function parameters result, h => by
    rw [substitute, substitute, parameters_congr parameters fun n hn => h n (mem_append_left _ hn),
      substitute_congr result fun n hn => h n (mem_append_right _ hn)]
  | .functionList parameters results, h => by
    rw [substitute, substitute, parameters_congr parameters fun n hn => h n (mem_append_left _ hn),
      results_congr results fun n hn => h n (mem_append_right _ hn)]

theorem parameters_congr : ∀ (parameters : List (TypeParameter WrittenType)),
    (∀ n : TypeName, n.text ∈ parameterNames parameters → f n = g n) →
      substituteParameters f parameters = substituteParameters g parameters
  | [], _ => rfl
  | ⟨_, type⟩ :: l, h => by
    rw [substituteParameters, substituteParameters,
      substitute_congr type fun n hn => h n (mem_append_left _ hn),
      parameters_congr l fun n hn => h n (mem_append_right _ hn)]

theorem results_congr : ∀ (results : List WrittenType),
    (∀ n : TypeName, n.text ∈ resultNames results → f n = g n) →
      substituteResults f results = substituteResults g results
  | [], _ => rfl
  | type :: l, h => by
    rw [substituteResults, substituteResults,
      substitute_congr type fun n hn => h n (mem_append_left _ hn),
      results_congr l fun n hn => h n (mem_append_right _ hn)]

end

mutual

theorem substitute_name : ∀ type : WrittenType, substitute .name type = type
  | .name _ => rfl
  | .pointer pointee => congrArg WrittenType.pointer (substitute_name pointee)
  | .array element => congrArg WrittenType.array (substitute_name element)
  | .fixedArray element size => congrArg (WrittenType.fixedArray · size) (substitute_name element)
  | .map key value => by rw [substitute, substitute_name key, substitute_name value]
  | .procedure parameters => congrArg WrittenType.procedure (parameters_name parameters)
  | .function parameters result => by
    rw [substitute, parameters_name parameters, substitute_name result]
  | .functionList parameters results => by
    rw [substitute, parameters_name parameters, results_name results]

theorem parameters_name : ∀ parameters : List (TypeParameter WrittenType),
    substituteParameters .name parameters = parameters
  | [] => rfl
  | ⟨_, type⟩ :: l => by
    rw [substituteParameters, substitute_name type, parameters_name l]

theorem results_name : ∀ results : List WrittenType, substituteResults .name results = results
  | [] => rfl
  | type :: l => by rw [substituteResults, substitute_name type, results_name l]

end

theorem parameters_eq_map (parameters : List (TypeParameter WrittenType)) :
    substituteParameters f parameters =
      parameters.map fun parameter => ⟨parameter.isMutable, substitute f parameter.type⟩ := by
  induction parameters with
  | nil => rfl
  | cons parameter l ih => rw [substituteParameters, map_cons, ih]

end Substitute

/-! ### Chains of references -/

section Acyclic

variable {aliases : Aliases}

theorem Aliases.find_eq_some {name : Text} {d : AliasDeclaration}
    (h : aliases.find name = some d) : d ∈ aliases.declarations ∧ d.name.text = name :=
  ⟨mem_of_find?_eq_some h,
    beq_iff_eq.mp (find?_some (p := fun d : AliasDeclaration => d.name.text == name) h)⟩

theorem Aliases.target_eq_none {name : Text} : aliases.target name = none ↔ aliases.find name = none :=
  Option.map_eq_none_iff

theorem exists_chain {k : ℕ} {type : WrittenType} {name : Text} {d' : AliasDeclaration}
    (hname : name ∈ typeNames (expand aliases k type)) (h : aliases.find name = some d') :
    ∃ (d : aliases.Declared) (l : List aliases.Declared), d.1.name.text ∈ typeNames type ∧
      (d :: l).IsChain (References aliases) ∧ l.length = k := by
  induction k generalizing type with
  | zero =>
    obtain ⟨hmem, rfl⟩ := aliases.find_eq_some h
    exact ⟨⟨d', hmem⟩, [], hname, isChain_singleton _, rfl⟩
  | succ k ih =>
    obtain ⟨n, hn, hname⟩ := (mem_typeNames_substitute type).mp hname
    cases hfind : aliases.find n.text with
    | none =>
      rw [hfind] at hname
      rw [mem_singleton.mp hname, hfind] at h
      cases h
    | some first =>
      rw [hfind] at hname
      obtain ⟨d, l, hd, hch, hlen⟩ := ih hname
      obtain ⟨hmem, htext⟩ := aliases.find_eq_some hfind
      refine ⟨⟨first, hmem⟩, d :: l, ?_, isChain_cons_cons.mpr ⟨hd, hch⟩, ?_⟩
      · rwa [htext]
      · rw [length_cons, hlen]

theorem length_le_of_isChain (hacyc : ¬ Cyclic aliases) {l : List aliases.Declared}
    (h : l.IsChain (References aliases)) : l.length ≤ aliases.declarations.length := by
  have hpair : l.Pairwise (Relation.TransGen (References aliases)) :=
    isChain_iff_pairwise.mp (h.imp fun _ _ hstep => .single hstep)
  have hnd : l.Nodup := hpair.imp fun {a b} hpath heq => by
    subst heq
    exact hacyc ⟨a, hpath⟩
  have hsub : l.map Subtype.val ⊆ aliases.declarations := fun d hd => by
    obtain ⟨d', -, rfl⟩ := mem_map.mp hd
    exact d'.2
  have hlen := (subperm_of_subset (hnd.map Subtype.val_injective) hsub).length_le
  rwa [length_map] at hlen

theorem not_isAlias_of_mem_expanded (hacyc : ¬ Cyclic aliases) {type : WrittenType} {name : Text}
    (h : name ∈ typeNames (expanded aliases type)) : aliases.find name = none := by
  cases hfind : aliases.find name with
  | none => rfl
  | some d' =>
    obtain ⟨d, l, -, hch, hlen⟩ := exists_chain h hfind
    have hle := length_le_of_isChain hacyc hch
    rw [length_cons] at hle
    omega

theorem expand_succ {k : ℕ} {type : WrittenType}
    (h : ∀ name ∈ typeNames (expand aliases k type), aliases.find name = none) :
    expand aliases (k + 1) type = expand aliases k type := by
  induction k generalizing type with
  | zero =>
    refine (substitute_congr type fun n hn => ?_).trans (substitute_name type)
    rw [h n.text hn]
  | succ k ih =>
    refine substitute_congr type fun n hn => ?_
    cases hfind : aliases.find n.text with
    | none => rfl
    | some d =>
      refine ih fun name hname => h name ((mem_typeNames_substitute type).mpr ⟨n, hn, ?_⟩)
      rwa [hfind]

theorem expanded_of_find (hacyc : ¬ Cyclic aliases) {n : TypeName} {d : AliasDeclaration}
    (h : aliases.find n.text = some d) :
    expanded aliases (.name n) = expanded aliases d.target := by
  obtain ⟨hmem, -⟩ := aliases.find_eq_some h
  obtain ⟨k, hk⟩ : ∃ k, aliases.declarations.length = k + 1 :=
    ⟨_, (Nat.succ_pred_eq_of_pos (length_pos_of_mem hmem)).symm⟩
  have hnam : ∀ name ∈ typeNames (expand aliases k d.target), aliases.find name = none := by
    intro name hname
    cases hfind : aliases.find name with
    | none => rfl
    | some d' =>
      obtain ⟨next, l, hnext, hch, hlen⟩ := exists_chain hname hfind
      have hle := length_le_of_isChain hacyc (l := ⟨d, hmem⟩ :: next :: l)
        (isChain_cons_cons.mpr ⟨hnext, hch⟩)
      rw [length_cons, length_cons] at hle
      omega
  rw [expanded, expanded, hk, expand_succ hnam, expand, substitute, h]

end Acyclic
/-! ### The expansion of a container -/

section Expanded

variable {aliases : Aliases}

theorem expanded_of_find_none {n : TypeName} (h : aliases.find n.text = none) :
    expanded aliases (.name n) = .name n := by
  unfold expanded
  cases aliases.declarations.length with
  | zero => rfl
  | succ k => rw [expand, substitute, h]

theorem expanded_pointer (pointee : WrittenType) :
    expanded aliases (.pointer pointee) = .pointer (expanded aliases pointee) := by
  unfold expanded
  cases aliases.declarations.length with
  | zero | succ => rfl

theorem expanded_array (element : WrittenType) :
    expanded aliases (.array element) = .array (expanded aliases element) := by
  unfold expanded
  cases aliases.declarations.length with
  | zero | succ => rfl

theorem expanded_fixedArray (element : WrittenType) (size : TypeName) :
    expanded aliases (.fixedArray element size) = .fixedArray (expanded aliases element) size := by
  unfold expanded
  cases aliases.declarations.length with
  | zero | succ => rfl

theorem expanded_map (key value : WrittenType) :
    expanded aliases (.map key value) = .map (expanded aliases key) (expanded aliases value) := by
  unfold expanded
  cases aliases.declarations.length with
  | zero | succ => rfl

theorem expanded_procedure (parameters : List (TypeParameter WrittenType)) :
    expanded aliases (.procedure parameters) = .procedure (expandedParameters aliases parameters) := by
  unfold expanded expandedParameters expanded
  cases aliases.declarations.length with
  | zero => exact congrArg WrittenType.procedure (map_id' _).symm
  | succ k => exact congrArg WrittenType.procedure (parameters_eq_map parameters)

theorem expanded_function (parameters : List (TypeParameter WrittenType)) (result : WrittenType) :
    expanded aliases (.function parameters result) =
      .function (expandedParameters aliases parameters) (expanded aliases result) := by
  unfold expanded expandedParameters expanded
  cases aliases.declarations.length with
  | zero => exact congrArg (WrittenType.function · result) (map_id' _).symm
  | succ k => exact congrArg (WrittenType.function · _) (parameters_eq_map parameters)

end Expanded

/-! ### The limits -/

/-- A chain of names has at most a number of links. -/
def ChainWithin (aliases : Aliases) : ℕ → WrittenType → Prop
  | 0, .name n => aliases.find n.text = none
  | k + 1, .name n => ∀ d, aliases.find n.text = some d → ChainWithin aliases k d.target
  | _, _ => True

/-- The types that the resolution takes apart as a whole: a chain of names has at most 32 links,
what stands in the brackets of an array, of a map or of a parameter list has less than 256 bytes,
the size of an array less than 63, and the parameters of a function less than 256 once they are
expanded. There are no lists of results. -/
inductive WithinLimits (aliases : Aliases) : WrittenType → Prop
  | name {n : TypeName} (h : aliases.find n.text = none) : WithinLimits aliases (.name n)
  | aliased {n : TypeName} {d : AliasDeclaration} (h : aliases.find n.text = some d)
    (hchain : ChainWithin aliases 32 (.name n)) (htarget : WithinLimits aliases d.target) :
    WithinLimits aliases (.name n)
  | pointer {pointee : WrittenType} (h : WithinLimits aliases pointee) :
    WithinLimits aliases (.pointer pointee)
  | array {element : WrittenType} (hlength : (spell element).length < 256)
    (h : WithinLimits aliases element) : WithinLimits aliases (.array element)
  | fixedArray {element : WrittenType} {size : TypeName}
    (hlength : (spell element ++ byte ',' :: size.text).length < 256)
    (hsize : size.text.length < 63) (h : WithinLimits aliases element) :
    WithinLimits aliases (.fixedArray element size)
  | map {key value : WrittenType} (hlength : (spell key ++ byte ':' :: spell value).length < 256)
    (hkey : WithinLimits aliases key) (hvalue : WithinLimits aliases value) :
    WithinLimits aliases (.map key value)
  | procedure {parameters : List (TypeParameter WrittenType)}
    (hlength : (spellParameters parameters).length < 256)
    (hexpanded : (spellParameters (expandedParameters aliases parameters)).length < 256)
    (h : ∀ parameter ∈ parameters, WithinLimits aliases parameter.type) :
    WithinLimits aliases (.procedure parameters)
  | function {parameters : List (TypeParameter WrittenType)} {result : WrittenType}
    (hlength : (spellParameters parameters).length < 256)
    (hexpanded : (spellParameters (expandedParameters aliases parameters)).length < 256)
    (h : ∀ parameter ∈ parameters, WithinLimits aliases parameter.type)
    (hresult : WithinLimits aliases result) : WithinLimits aliases (.function parameters result)

/-- The resolution of a spelling ends with another one, or with the spelling itself. -/
def ResolvesTo (aliases : Aliases) (text result : Text) : Prop :=
  ∃ fuel resolved, resolveTypeAliasImpl aliases fuel text = some resolved ∧
    resolved.getD text = result

/-! ### The parts of a spelling -/

theorem arrayParts_of_length {element : WrittenType} (h : (spell element).length < 256) :
    arrayParts (spell (.array element)) = some (spell element, []) := by
  have hinn := @inner_eq [byte '['] _ (spell_ne_nil element)
  rw [if_pos h, singleton_append, length_singleton] at hinn
  rw [spell, arrayParts, hinn, map_some, topSeparator_spell element separator_comma]

theorem arrayParts_of_size {element : WrittenType} {size : TypeName}
    (h : (spell element ++ byte ',' :: size.text).length < 256) (hsize : size.text.length < 63) :
    arrayParts (spell (.fixedArray element size)) = some (spell element, byte ',' :: size.text) := by
  have hinn := @inner_eq [byte '['] (spell element ++ byte ',' :: size.text) (by simp)
  rw [if_pos h, singleton_append, length_singleton, append_assoc, cons_append]
    at hinn
  rw [spell, arrayParts, hinn, map_some, topSeparator_spell_append element separator_comma]
  dsimp only
  rw [take_of_length_le (by rw [length_cons]; omega)]

theorem mapParts_of_length {key value : WrittenType}
    (h : (spell key ++ byte ':' :: spell value).length < 256) :
    mapParts (spell (.map key value)) = some (spell key, spell value) := by
  have hinn := @inner_eq (bytes "map[") (spell key ++ byte ':' :: spell value) (by simp)
  rw [if_pos h, append_assoc, cons_append] at hinn
  rw [spell, mapParts, show (4 : ℕ) = (bytes "map[").length from rfl, hinn, bind_some,
    topSeparator_spell_append key (.inr rfl)]

theorem functionParts_of_length {parameters : List (TypeParameter WrittenType)} (tail : Text)
    (h : (spellParameters parameters).length < 256) :
    functionParts (bytes "func(" ++ (spellParameters parameters ++ byte ')' :: tail)) =
      some (spellParameters parameters,
        if (bytes "->").isPrefixOf tail then some (tail.drop 2) else none) := by
  cases hpts : functionParts (bytes "func(" ++ (spellParameters parameters ++ byte ')' :: tail)) with
  | some parts => rw [functionParts_eq hpts]
  | none =>
    unfold functionParts at hpts
    rw [scan_parenthesisStep_parameters] at hpts
    change (if (spellParameters parameters).length < 256 then some (spellParameters parameters, _)
      else none) = none at hpts
    rw [if_pos h] at hpts
    cases hpts
/-! ### The resolution of a parameter list -/

/-- Segments, separated by commas, after a text. -/
def joinSegments : Text → List Text → Text
  | text, [] => text
  | text, segment :: l =>
    joinSegments (text ++ ((if text.isEmpty then [] else [byte ',']) ++ segment)) l

theorem parameter_ne_nil (parameter : TypeParameter WrittenType) :
    spellParameter parameter ≠ [] := by
  simp [spellParameter, spell_ne_nil]

theorem parameters_cons (parameter : TypeParameter WrittenType)
    (l : List (TypeParameter WrittenType)) :
    spellParameters (parameter :: l) = spellParameter parameter ++
      (if l.isEmpty then [] else byte ',' :: spellParameters l) := rfl

theorem joinSegments_append {text : Text} (h : text ≠ []) (l : List (TypeParameter WrittenType)) :
    joinSegments text (l.map spellParameter) =
      text ++ (if l.isEmpty then [] else byte ',' :: spellParameters l) := by
  induction l generalizing text with
  | nil => exact (append_nil text).symm
  | cons parameter l ih =>
    have hne : text ++ ([byte ','] ++ spellParameter parameter) ≠ [] :=
      append_ne_nil_of_left_ne_nil h _
    rw [map_cons, joinSegments, isEmpty_eq_false_iff.mpr h, if_neg Bool.false_ne_true, ih hne,
      isEmpty_cons, if_neg Bool.false_ne_true, parameters_cons]
    simp

theorem joinSegments_parameter (parameters : List (TypeParameter WrittenType)) :
    joinSegments [] (parameters.map spellParameter) = spellParameters parameters := by
  cases parameters with
  | nil => rfl
  | cons parameter l => exact joinSegments_append (parameter_ne_nil parameter) l

theorem length_le_joinSegments (text : Text) (l : List Text) :
    text.length ≤ (joinSegments text l).length := by
  induction l generalizing text with
  | nil => exact le_rfl
  | cons segment l ih => exact Nat.le_trans (by simp) (ih _)

section Resolution

variable {aliases : Aliases} {resolve : Text → Option (Option Text)}

/-- A resolution gives the expansion of a type. -/
def Erases (aliases : Aliases) (resolve : Text → Option (Option Text)) (type : WrittenType) : Prop :=
  ∃ resolved, resolve (spell type) = some resolved ∧
    resolved.getD (spell type) = spell (expanded aliases type)

theorem resolvedPart_parameter {text : Text} {parameter : TypeParameter WrittenType}
    {resolved : Option Text}
    (h : resolved.getD (spell parameter.type) = spell (expanded aliases parameter.type)) :
    resolvedPart text (spellParameter parameter) resolved =
      (if text.isEmpty then [] else [byte ',']) ++
        spellParameter ⟨parameter.isMutable, expanded aliases parameter.type⟩ := by
  rw [resolvedPart, segmentType_parameter, h, append_assoc, spellParameter, spellParameter]
  cases parameter.isMutable with
  | true => rfl
  | false =>
    change _ ++ ((if (spell parameter.type).head? = some (byte '&') then _ else _) ++ _) = _
    rw [if_neg (spell_head _)]
    rfl

theorem resolveList_erases {parameters : List (TypeParameter WrittenType)} {text : Text}
    (h : ∀ parameter ∈ parameters, Erases aliases resolve parameter.type) (changed : Bool)
    (hlen : (joinSegments text
      ((expandedParameters aliases parameters).map spellParameter)).length < 256) :
    ∃ changed', aliasResolveTypeList resolve (parameters.map spellParameter) text changed =
        some (some (joinSegments text ((expandedParameters aliases parameters).map spellParameter),
          changed')) ∧ (changed' = false → changed = false ∧
        (expandedParameters aliases parameters).map spellParameter = parameters.map spellParameter) := by
  induction parameters generalizing text changed with
  | nil => exact ⟨changed, rfl, fun hchg => ⟨hchg, rfl⟩⟩
  | cons parameter l ih =>
    obtain ⟨resolved, hres, hexp⟩ := h parameter (mem_cons_self ..)
    have hpart := @resolvedPart_parameter aliases text parameter resolved hexp
    obtain ⟨changed', hlist, hsame⟩ := ih (fun p hp => h p (mem_cons_of_mem _ hp))
      (changed || resolved.isSome) hlen
    have hroom : text.length + ((if text.isEmpty then [] else [byte ',']) ++
        spellParameter ⟨parameter.isMutable, expanded aliases parameter.type⟩).length < 256 := by
      rw [← length_append]
      exact Nat.lt_of_le_of_lt (length_le_joinSegments _ _) hlen
    refine ⟨changed', ?_, fun hunchanged => ?_⟩
    · rw [map_cons, aliasResolveTypeList, segmentType_parameter, hres, bind_some,
        hpart, if_neg (by omega)]
      exact hlist
    · obtain ⟨hfst, hrest⟩ := hsame hunchanged
      rw [Bool.or_eq_false_iff, Option.isSome_eq_false_iff, Option.isNone_iff_eq_none] at hfst
      rw [hfst.2, getD_none] at hexp
      refine ⟨hfst.1, ?_⟩
      rw [expandedParameters, map_cons, map_cons, map_cons]
      refine congrArg₂ List.cons ?_ hrest
      rw [spellParameter, spellParameter, hexp]

/-- What follows the parameters of a function spelling. -/
def resultText : Option Text → Text
  | none => []
  | some text => bytes "->" ++ text

theorem resolveStep_function {parameters : List (TypeParameter WrittenType)}
    (result : Option Text) {resolvedResult : Option Text} (hlen : (spellParameters parameters).length < 256)
    (hexp : (spellParameters (expandedParameters aliases parameters)).length < 256)
    (h : ∀ parameter ∈ parameters, Erases aliases resolve parameter.type)
    (hres : resolveResult resolve result = some resolvedResult) :
    ∃ resolved, resolveStep aliases resolve
        (bytes "func(" ++ (spellParameters parameters ++ byte ')' :: resultText result)) =
          some resolved ∧
      resolved.getD (bytes "func(" ++ (spellParameters parameters ++ byte ')' :: resultText result)) =
        bytes "func(" ++ (spellParameters (expandedParameters aliases parameters) ++ byte ')' ::
          resultText (result.map resolvedResult.getD)) := by
  have hsh := typeShape_func (spellParameters parameters ++ byte ')' :: resultText result)
  have htail : (if (bytes "->").isPrefixOf (resultText result) then some ((resultText result).drop 2)
      else none) = result := by
    cases result <;> rfl
  rw [functionParts_of_length _ hlen, htail] at hsh
  rw [← joinSegments_parameter] at hexp
  obtain ⟨changed, hlist, hsame⟩ := resolveList_erases h false hexp
  rw [joinSegments_parameter] at hlist
  rw [resolveStep, hsh]
  dsimp only
  rw [typeListSegments_parameters parameters (length_le_spellParameters parameters), hlist,
    bind_some, hres, map_some, bind_some]
  refine ⟨_, rfl, ?_⟩
  dsimp only
  by_cases hchg : (changed || resolvedResult.isSome) = true
  · rw [if_pos hchg, Option.getD_some, append_assoc]
    cases result <;> rfl
  · rw [if_neg hchg, getD_none]
    rw [Bool.or_eq_true, not_or, Bool.not_eq_true, Bool.not_eq_true, Option.isSome_eq_false_iff,
      Option.isNone_iff_eq_none] at hchg
    have hpars : spellParameters (expandedParameters aliases parameters) =
        spellParameters parameters := by
      rw [← joinSegments_parameter, (hsame hchg.1).2, joinSegments_parameter]
    rw [hpars, hchg.2]
    cases result <;> rfl

end Resolution
/-! ### The resolution of a type -/

section Erases

variable {aliases : Aliases}

/-- A resolution ends with the expansion of a type. -/
def ResolvesFully (aliases : Aliases) (type : WrittenType) : Prop :=
  ResolvesTo aliases (spell type) (spell (expanded aliases type))

/-- A chain of names from a name ends at a container that is resolved, or at a name that is no
alias. -/
def ChainErases (aliases : Aliases) (k : ℕ) (n : TypeName) : Prop :=
  (∃ container, followAliases aliases k n.text = (spell container, true) ∧
      ResolvesFully aliases container ∧ expanded aliases container = expanded aliases (.name n)) ∨
    ∃ m : TypeName, followAliases aliases k n.text = (m.text, false) ∧
      expanded aliases (.name n) = .name m

theorem Erases.mono {type : WrittenType} {fuel fuel' : ℕ}
    (h : Erases aliases (resolveTypeAliasImpl aliases fuel) type) (hfuel : fuel ≤ fuel') :
    Erases aliases (resolveTypeAliasImpl aliases fuel') type := by
  obtain ⟨resolved, hres, hexp⟩ := h
  exact ⟨resolved, extends_resolveImpl aliases hfuel _ _ hres, hexp⟩

variable {parameters : List (TypeParameter WrittenType)}

theorem exists_fuel_parameters
    (h : ∀ parameter ∈ parameters, ResolvesFully aliases parameter.type) :
    ∃ fuel, ∀ parameter ∈ parameters,
      Erases aliases (resolveTypeAliasImpl aliases fuel) parameter.type := by
  induction parameters with
  | nil => exact ⟨0, fun _ hmem => absurd hmem not_mem_nil⟩
  | cons parameter l ih =>
    obtain ⟨fuel, hfuel⟩ := h parameter (mem_cons_self ..)
    obtain ⟨fuel', hfuel'⟩ := ih fun p hp => h p (mem_cons_of_mem _ hp)
    refine ⟨max fuel fuel', fun p hp => ?_⟩
    rcases mem_cons.mp hp with rfl | hp
    · exact Erases.mono hfuel (Nat.le_max_left ..)
    · exact (hfuel' p hp).mono (Nat.le_max_right ..)

theorem isContainer_name (n : TypeName) : isContainer n.text = false := by
  rw [← Bool.not_eq_true]
  exact fun h => typeShape_ne_name h (typeShape_of_name n)

theorem ChainErases.of_target (hacyc : ¬ Cyclic aliases) {n : TypeName} {d : AliasDeclaration}
    (h : aliases.find n.text = some d) (htgt : ResolvesFully aliases d.target) {k : ℕ}
    (hnext : ∀ m : TypeName, d.target = .name m → ChainErases aliases k m) :
    ChainErases aliases (k + 1) n := by
  have hfollow : followAliases aliases (k + 1) n.text =
      if isContainer (spell d.target) then (spell d.target, true)
        else followAliases aliases k (spell d.target) := by
    rw [followAliases, Aliases.target, h]
    rfl
  have hexp := expanded_of_find hacyc h
  by_cases hcont : isContainer (spell d.target) = true
  · rw [if_pos hcont] at hfollow
    exact .inl ⟨d.target, hfollow, htgt, hexp.symm⟩
  · rw [if_neg hcont] at hfollow
    obtain ⟨m, hm⟩ : ∃ m, d.target = .name m := by
      cases hd : d.target with
      | name m => exact ⟨m, rfl⟩
      | pointer | array | fixedArray | map | procedure | function | functionList =>
        rw [hd] at hcont
        exact absurd rfl hcont
    rw [hm] at hfollow hexp
    unfold ChainErases
    rw [hfollow, hexp]
    exact hnext m hm

theorem resolvesFully_of_chain {n : TypeName} {d : AliasDeclaration}
    (h : aliases.find n.text = some d) (hch : ChainErases aliases 32 n) :
    ResolvesFully aliases (.name n) := by
  have hstep : ∀ fuel, resolveTypeAliasImpl aliases (fuel + 1) n.text =
      if (followAliases aliases 32 n.text).2 then
        (resolveTypeAliasImpl aliases fuel (followAliases aliases 32 n.text).1).map fun resolved =>
          some (resolved.getD (followAliases aliases 32 n.text).1)
      else some (some (followAliases aliases 32 n.text).1) := fun fuel => by
    rw [resolveTypeAliasImpl, resolveStep, typeShape_of_name]
    dsimp only
    rw [Aliases.target, h]
    rfl
  rcases hch with ⟨container, hfollow, ⟨fuel, resolved, hres, hgetD⟩, hexp⟩ |
    ⟨m, hfollow, hexp⟩
  · rw [hfollow] at hstep
    refine ⟨fuel + 1, some (resolved.getD (spell container)), ?_, ?_⟩
    · rw [spell, hstep, if_pos rfl, hres]
      rfl
    · rw [← hexp]
      exact hgetD
  · rw [hfollow] at hstep
    refine ⟨1, some m.text, hstep 0, ?_⟩
    rw [hexp]
    rfl

/-! ### Containers -/

theorem ResolvesFully.pointer {pointee : WrittenType} (h : ResolvesFully aliases pointee) :
    ResolvesFully aliases (.pointer pointee) := by
  obtain ⟨fuel, resolved, hres, hgetD⟩ := h
  refine ⟨fuel + 1, resolved.map fun t => byte '^' :: t, ?_, ?_⟩
  · rw [resolveTypeAliasImpl, resolveStep, typeShape_pointer]
    dsimp only
    rw [hres]
    rfl
  · rw [expanded_pointer, spell, spell, Option.getD_map, hgetD]

theorem ResolvesFully.array {element : WrittenType} (h : ResolvesFully aliases element)
    (hlen : (spell element).length < 256) : ResolvesFully aliases (.array element) := by
  obtain ⟨fuel, resolved, hres, hgetD⟩ := h
  have hsh : typeShape (spell (.array element)) = .array (spell element) [] := by
    rw [typeShape, arrayParts_of_length hlen]
    rfl
  refine ⟨fuel + 1, resolved.map fun t => byte '[' :: (t ++ [] ++ [byte ']']), ?_, ?_⟩
  · rw [resolveTypeAliasImpl, resolveStep, hsh]
    dsimp only
    rw [hres]
    rfl
  · rw [expanded_array, spell, spell, ← hgetD]
    cases resolved with
    | none => rfl
    | some t => simp

theorem ResolvesFully.fixedArray {element : WrittenType} {size : TypeName}
    (h : ResolvesFully aliases element)
    (hlen : (spell element ++ byte ',' :: size.text).length < 256)
    (hsize : size.text.length < 63) : ResolvesFully aliases (.fixedArray element size) := by
  obtain ⟨fuel, resolved, hres, hgetD⟩ := h
  have hsh : typeShape (spell (.fixedArray element size)) =
      .array (spell element) (byte ',' :: size.text) := by
    rw [typeShape, arrayParts_of_size hlen hsize]
    rfl
  refine ⟨fuel + 1,
    resolved.map fun t => byte '[' :: (t ++ (byte ',' :: size.text) ++ [byte ']']), ?_, ?_⟩
  · rw [resolveTypeAliasImpl, resolveStep, hsh]
    dsimp only
    rw [hres]
    rfl
  · rw [expanded_fixedArray, spell, spell, ← hgetD]
    cases resolved with
    | none => rfl
    | some t => simp

theorem ResolvesFully.map {key value : WrittenType} (hkey : ResolvesFully aliases key)
    (hval : ResolvesFully aliases value)
    (hlen : (spell key ++ byte ':' :: spell value).length < 256) :
    ResolvesFully aliases (.map key value) := by
  obtain ⟨fuel, k, hk, hkey⟩ := hkey
  obtain ⟨fuel', v, hv, hval⟩ := hval
  have hk' := extends_resolveImpl aliases (Nat.le_max_left fuel fuel') _ _ hk
  have hv' := extends_resolveImpl aliases (Nat.le_max_right fuel fuel') _ _ hv
  have hsh : typeShape (spell (.map key value)) = .map (spell key) (spell value) := by
    rw [typeShape, mapParts_of_length hlen]
    rfl
  have hstep : resolveTypeAliasImpl aliases (max fuel fuel' + 1) (spell (.map key value)) =
      some (if k.isSome || v.isSome then
        some (bytes "map[" ++ k.getD (spell key) ++ byte ':' :: (v.getD (spell value) ++ [byte ']']))
      else none) := by
    rw [resolveTypeAliasImpl, resolveStep, hsh]
    dsimp only
    rw [hk', bind_some, hv', map_some]
  refine ⟨_, _, hstep, ?_⟩
  rw [expanded_map, spell, spell, ← hkey, ← hval]
  cases k <;> cases v <;> simp

theorem ResolvesFully.procedure
    (h : ∀ parameter ∈ parameters, ResolvesFully aliases parameter.type)
    (hlen : (spellParameters parameters).length < 256)
    (hexp : (spellParameters (expandedParameters aliases parameters)).length < 256) :
    ResolvesFully aliases (.procedure parameters) := by
  obtain ⟨fuel, hfuel⟩ := exists_fuel_parameters h
  obtain ⟨resolved, hres, hgetD⟩ := resolveStep_function none hlen hexp hfuel rfl
  refine ⟨fuel + 1, resolved, hres, ?_⟩
  rw [expanded_procedure]
  exact hgetD

theorem ResolvesFully.function {result : WrittenType}
    (h : ∀ parameter ∈ parameters, ResolvesFully aliases parameter.type)
    (hresult : ResolvesFully aliases result) (hlen : (spellParameters parameters).length < 256)
    (hexp : (spellParameters (expandedParameters aliases parameters)).length < 256) :
    ResolvesFully aliases (.function parameters result) := by
  obtain ⟨fuel, hfuel⟩ := exists_fuel_parameters h
  obtain ⟨fuel', r, hr, hresult⟩ := hresult
  obtain ⟨resolved, hres, hgetD⟩ := resolveStep_function (some (spell result)) hlen hexp
    (fun p hp => (hfuel p hp).mono (Nat.le_max_left fuel fuel'))
    (extends_resolveImpl aliases (Nat.le_max_right fuel fuel') _ _ hr)
  refine ⟨max fuel fuel' + 1, resolved, hres, ?_⟩
  rw [expanded_function]
  refine hgetD.trans ?_
  rw [map_some, hresult]
  rfl

/-- Within the limits, a resolution ends with the expansion, and chains of names are followed to
their ends. -/
theorem WithinLimits.resolvesFully (hacyc : ¬ Cyclic aliases) {type : WrittenType}
    (h : WithinLimits aliases type) : ResolvesFully aliases type ∧
      ∀ n, type = .name n → ∀ k, ChainWithin aliases k (.name n) → ChainErases aliases k n := by
  have hlimit : ∀ {container : WrittenType}, isContainer (spell container) = true →
      ∀ n, container = .name n → ∀ k, ChainWithin aliases k (.name n) → ChainErases aliases k n := by
    rintro container hcont n rfl
    rw [spell, isContainer_name] at hcont
    cases hcont
  induction h with
  | @name n h =>
    have hnone : aliases.target n.text = none := Aliases.target_eq_none.mpr h
    refine ⟨⟨1, none, ?_, ?_⟩, ?_⟩
    · rw [spell, resolveTypeAliasImpl, resolveStep, typeShape_of_name]
      dsimp only
      rw [hnone]
    · rw [expanded_of_find_none h]
      rfl
    · rintro m ⟨rfl⟩ k -
      exact .inr ⟨n, follow_of_none hnone k, expanded_of_find_none h⟩
  | @aliased n d h hch _ ih =>
    have hends : ∀ k, ChainWithin aliases k (.name n) → ChainErases aliases k n := fun k hk => by
      cases k with
      | zero =>
        rw [ChainWithin, h] at hk
        cases hk
      | succ k =>
        refine .of_target hacyc h ih.1 fun m hm => ih.2 m hm k ?_
        rw [← hm]
        exact hk d h
    refine ⟨resolvesFully_of_chain h (hends 32 hch), ?_⟩
    rintro m ⟨rfl⟩
    exact hends
  | pointer _ ih => exact ⟨ih.1.pointer, hlimit rfl⟩
  | array hlen _ ih => exact ⟨ih.1.array hlen, hlimit rfl⟩
  | fixedArray hlen hsize _ ih => exact ⟨ih.1.fixedArray hlen hsize, hlimit rfl⟩
  | map hlen _ _ ihKey ihValue => exact ⟨ihKey.1.map ihValue.1 hlen, hlimit rfl⟩
  | procedure hlen hexp _ ih =>
    exact ⟨.procedure (fun p hp => (ih p hp).1) hlen hexp, hlimit rfl⟩
  | function hlen hexp _ _ ih ihResult =>
    exact ⟨.function (fun p hp => (ih p hp).1) ihResult.1 hlen hexp, hlimit rfl⟩

end Erases
/-! ### Resolving again -/

section Again

variable {aliases : Aliases} {fuel : ℕ}

theorem resolveList_unchanged {segments : List Text} {text : Text} {changed : Bool}
    {list : Text × Bool}
    (hslt : ∀ sub resolved, EntersSegment aliases text segments sub →
      resolveTypeAliasImpl aliases fuel sub = some resolved → resolved = none)
    (h : aliasResolveTypeList (resolveTypeAliasImpl aliases fuel) segments text changed =
      some (some list)) : list.2 = changed := by
  induction segments generalizing text changed with
  | nil =>
    obtain rfl := some.inj (some.inj h)
    rfl
  | cons segment l ih =>
    obtain ⟨resolved, hres, hrest⟩ := bind_eq_some_iff.mp h
    obtain rfl := hslt _ _ .head hres
    split_ifs at hrest with hfull
    · cases hrest
    rw [Option.isSome_none, Bool.or_false] at hrest
    exact ih (fun sub r hsub => hslt sub r (.tail hres (Nat.lt_of_not_le hfull) hsub)) hrest

theorem resolveImpl_unchanged {name : Text} {resolved : Option Text}
    (hslt : ∀ sub resolved, Enters aliases name sub →
      resolveTypeAliasImpl aliases fuel sub = some resolved → resolved = none)
    (hname : typeShape name = .name → aliases.target name = none)
    (h : resolveTypeAliasImpl aliases (fuel + 1) name = some resolved) : resolved = none := by
  rw [resolveTypeAliasImpl, resolveStep] at h
  cases hsh : typeShape name with
  | pointer pointee =>
    rw [hsh] at h
    obtain ⟨r, hr, rfl⟩ := map_eq_some_iff.mp h
    rw [hslt _ _ (.pointee hsh) hr]
    rfl
  | array element suffix =>
    rw [hsh] at h
    obtain ⟨r, hr, rfl⟩ := map_eq_some_iff.mp h
    rw [hslt _ _ (.element hsh) hr]
    rfl
  | map key value =>
    rw [hsh] at h
    obtain ⟨k, hk, hrest⟩ := bind_eq_some_iff.mp h
    obtain ⟨v, hv, rfl⟩ := map_eq_some_iff.mp hrest
    rw [hslt _ _ (.key hsh) hk, hslt _ _ (.value hsh) hv]
    rfl
  | function parameters result =>
    rw [hsh] at h
    obtain ⟨list, hlist, hrest⟩ := bind_eq_some_iff.mp h
    obtain ⟨r, hr, rfl⟩ := map_eq_some_iff.mp hrest
    have hres : r = none := by
      cases result with
      | none => exact (some.inj hr).symm
      | some text => exact hslt _ _ (.result hsh) hr
    cases list with
    | none => rfl
    | some rebuilt =>
      have hsame := resolveList_unchanged
        (fun sub r' hsub => hslt sub r' (.parameter hsh hsub)) hlist
      rw [bind_some, hsame, hres]
      rfl
  | whole =>
    rw [hsh] at h
    exact (some.inj h).symm
  | name =>
    rw [hsh] at h
    dsimp only at h
    rw [hname hsh] at h
    exact (some.inj h).symm

theorem unchanged_of_isSlot {names : List Text} (hnam : ∀ name ∈ names, aliases.find name = none)
    {text : Text} (htext : IsSlot names text) {resolved : Option Text}
    (h : resolveTypeAliasImpl aliases fuel text = some resolved) : resolved = none := by
  induction fuel generalizing text resolved with
  | zero => cases h
  | succ fuel ih =>
    have hname : typeShape text = .name → aliases.target text = none := fun hsh => by
      rcases htext with ⟨type, rfl, hsubset⟩ | ⟨l, rfl⟩
      · obtain ⟨n, rfl⟩ := exists_name_of_typeShape hsh
        exact Aliases.target_eq_none.mpr (hnam _ (hsubset (mem_singleton_self _)))
      · exact target_results l
    refine resolveImpl_unchanged (fun sub r hsub hr => ih ?_ hr) hname h
    rcases htext with ⟨type, rfl, hsubset⟩ | ⟨l, rfl⟩
    · by_cases hsh : typeShape (spell type) = .name
      · have hnone := hname hsh
        cases hsub with
        | target _ htgt =>
          rw [follow_of_none hnone] at htgt
          cases htgt
        | pointee hoth | element hoth | key hoth | value hoth | parameter hoth
        | result hoth =>
          rw [hsh] at hoth
          cases hoth
      · rcases hsub.isSlot hsh with ⟨slot, rfl, hslot⟩ | hresults
        · exact isSlot_spell (List.Subset.trans hslot hsubset)
        · exact .inr hresults
    · exact (not_enters_results hsub).elim

end Again

/-! ### Erasure -/

/-- The aliases in a type are erased: its resolution ends with the spelling of its expansion, which
has no alias names and does not change when it is resolved again. -/
def AliasesErased (aliases : Aliases) (type : WrittenType) : Prop :=
  ResolvesTo aliases (spell type) (spell (expanded aliases type)) ∧
    (∀ name ∈ typeNames (expanded aliases type), aliases.find name = none) ∧
    ∃ fuel, resolveTypeAliasImpl aliases fuel (spell (expanded aliases type)) = some none

/-- Within the limits of the resolution, aliases are erased. -/
theorem resolveTypeAlias_erases (aliases : Aliases) (hacyclic : ¬ Cyclic aliases)
    (type : WrittenType) (h : WithinLimits aliases type) : AliasesErased aliases type := by
  have hnam : ∀ name ∈ typeNames (expanded aliases type), aliases.find name = none :=
    fun name hname => not_isAlias_of_mem_expanded hacyclic hname
  refine ⟨(h.resolvesFully hacyclic).1, hnam, ?_⟩
  obtain ⟨fuel, hfuel⟩ := terminates_of_not_cyclic hacyclic (spell (expanded aliases type))
  obtain ⟨resolved, hres⟩ := Option.isSome_iff_exists.mp hfuel
  obtain rfl := unchanged_of_isSlot hnam (isSlot_spell (List.Subset.refl _)) hres
  exact ⟨fuel, hres⟩

theorem not_cyclic_of_rank {aliases : Aliases} (rank : AliasDeclaration → ℕ)
    (h : ∀ d ∈ aliases.declarations, ∀ d' ∈ aliases.declarations,
      d'.name.text ∈ typeNames d.target → rank d' < rank d) : ¬ Cyclic aliases := by
  rintro ⟨d, hcycle⟩
  have hlt : ∀ {d d' : aliases.Declared}, Relation.TransGen (References aliases) d d' →
      rank d'.1 < rank d.1 := fun hpath => by
    induction hpath with
    | single hstep => exact h _ (Subtype.prop _) _ (Subtype.prop _) hstep
    | tail _ hstep ih => exact Nat.lt_trans (h _ (Subtype.prop _) _ (Subtype.prop _) hstep) ih
  exact Nat.lt_irrefl _ (hlt hcycle)

/-- `alias M = map[K:A]` and `alias A = I`. -/
def nestedAliases : Aliases where
  declarations :=
    [⟨⟨bytes "M", by decide, by decide⟩, .map (.name ⟨bytes "K", by decide, by decide⟩)
      (.name nameUpperA)⟩, ⟨nameUpperA, .name ⟨bytes "I", by decide, by decide⟩⟩]
  nodup := by decide

/-- `func(&M)->[A]`. -/
def nestedFunction : WrittenType := .function [⟨true, .name ⟨bytes "M", by decide, by decide⟩⟩]
    (.array (.name nameUpperA))

theorem nestedFunction_erased : AliasesErased nestedAliases nestedFunction := by
  have hA : WithinLimits nestedAliases (.name nameUpperA) :=
    .aliased rfl (by rintro d ⟨rfl⟩ d' h; cases h) (.name rfl)
  refine resolveTypeAlias_erases nestedAliases
    (not_cyclic_of_rank (fun d => if d.name.text = bytes "M" then 1 else 0) (by decide))
    nestedFunction (.function (by decide) (by decide) (fun p hp => ?_) (.array (by decide) hA))
  obtain rfl := mem_singleton.mp hp
  exact .aliased rfl (by rintro d ⟨rfl⟩; trivial) (.map (by decide) (.name rfl) hA)

/-! ### Chains that are too long -/

/-- A name of as many letters. -/
def longName (n : ℕ) : TypeName :=
  ⟨replicate (n + 1) (byte 'A'), by simp, by simp [isTypeNameByte, isalnum]; decide⟩

/-- 33 aliases, each of which stands for the next. -/
def longChain : Aliases where
  declarations := (List.range 33).map fun i => ⟨longName i, .name (longName (i + 1))⟩
  nodup := by decide +kernel

theorem longChain_not_cyclic : ¬ Cyclic longChain :=
  not_cyclic_of_rank (fun d => 33 - d.name.text.length) (by decide +kernel)

theorem longChain_resolve :
    resolveTypeAliasImpl longChain 1 (longName 0).text = some (some (longName 32).text) := by
  decide

/-- What the last of 33 aliases stands for is not reached from the first. -/
theorem resolveTypeAlias_not_erases :
    ¬ ∀ aliases : Aliases, ¬ Cyclic aliases → ∀ type, AliasesErased aliases type := by
  intro h
  obtain ⟨⟨fuel, resolved, hres, hgetD⟩, hnam, -⟩ :=
    h longChain longChain_not_cyclic (.name (longName 0))
  obtain rfl := resolveImpl_unique hres longChain_resolve
  have hmem : (longName 32).text ∈ typeNames (expanded longChain (.name (longName 0))) := by
    rw [typeNames_of_spell hgetD.symm]
    exact mem_singleton_self _
  cases hnam _ hmem

end Grayscale
