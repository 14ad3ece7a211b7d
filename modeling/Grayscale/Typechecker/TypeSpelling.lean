import Grayscale.Parser.ComplexType
import Grayscale.Typechecker.TypePool

/-!
# Spellings decompose

A type that the parser has spelled is taken apart into the components that were written, and is one
type of the pool for each spelling.
-/

namespace Grayscale

open List
open Option (bind_some some.inj)

/-! ### Balanced spellings -/

theorem spell_fixedArray (element : WrittenType) (size : TypeName) :
    spell (.fixedArray element size) =
      byte '[' :: ((spell element ++ byte ',' :: size.text) ++ [byte ']']) := by
  rw [spell, append_assoc, cons_append]

theorem spell_map (key value : WrittenType) :
    spell (.map key value) = bytes "map" ++ byte '[' :: ((spell key ++ byte ':' :: spell value) ++ [byte ']']) := by
  rw [spell, append_assoc, cons_append]
  rfl

theorem nests_commaStep : Nests commaStep (0 ≤ ·) (1 ≤ ·) where
  outer_of_inner d hd := by omega
  plain d c hd hc := by
    simp only [isBracketByte, Bool.or_eq_false_iff, beq_eq_false_iff_ne] at hc
    obtain ⟨⟨⟨⟨⟨h1, h2⟩, h3⟩, h4⟩, h5⟩, -⟩ := hc
    simp only [commaStep, h1, h2, h3, h4, h5, or_self, if_false, false_and]
  separator d c hd hc := by
    have hd0 : d ≠ 0 := by omega
    have hopen : ¬ (c = byte '[' ∨ c = byte '(') := by rcases hc with rfl | rfl <;> decide
    have hcl : ¬ (c = byte ']' ∨ c = byte ')') := by rcases hc with rfl | rfl <;> decide
    rw [commaStep, if_neg hopen, if_neg hcl, if_neg (fun hstop => hd0 hstop.2)]
  square d hd := by
    refine ⟨d + 1, by omega, rfl, ?_⟩
    rw [commaStep, if_neg (by decide), if_pos (by decide), Int.add_sub_cancel, if_neg (by omega)]
  round d hd := by
    refine ⟨d + 1, by omega, rfl, ?_⟩
    rw [commaStep, if_neg (by decide), if_pos (by decide), Int.add_sub_cancel, if_neg (by omega)]

theorem nests_squareStep (separator : UInt8) : Nests (squareStep separator) (1 ≤ ·) (1 ≤ ·) where
  outer_of_inner d hd := hd
  plain d c hd hc := by
    simp only [isBracketByte, Bool.or_eq_false_iff, beq_eq_false_iff_ne] at hc
    obtain ⟨⟨⟨⟨⟨h1, h2⟩, -⟩, -⟩, -⟩, -⟩ := hc
    rw [squareStep, if_neg h1, if_neg h2, if_neg (by omega)]
  separator d c hd hc := by
    have hopen : c ≠ byte '[' := by rcases hc with rfl | rfl <;> decide
    have hcl : c ≠ byte ']' := by rcases hc with rfl | rfl <;> decide
    rw [squareStep, if_neg hopen, if_neg hcl, if_neg (by omega)]
  square d hd := by
    refine ⟨d + 1, by omega, rfl, ?_⟩
    rw [squareStep, if_neg (by decide), if_pos rfl, Int.add_sub_cancel]
  round d hd := by
    refine ⟨d, hd, ?_, ?_⟩ <;> rw [squareStep, if_neg (by decide), if_neg (by decide), if_neg (by omega)]

mutual

/-- A comma that only parentheses enclose is in the spelling. -/
def exposesComma : WrittenType → Bool
  | .name _ => false
  | .pointer pointee => exposesComma pointee
  | .array _ => false
  | .fixedArray _ _ => false
  | .map _ _ => false
  | .procedure parameters => parametersExposeComma parameters
  | .function parameters result => parametersExposeComma parameters || exposesComma result
  | .functionList parameters results => parametersExposeComma parameters || resultsExposeComma results

/-- `exposesComma` of a parameter list. -/
def parametersExposeComma : List (TypeParameter WrittenType) → Bool
  | [] => false
  | ⟨_, type⟩ :: l => exposesComma type || !l.isEmpty || parametersExposeComma l

/-- `exposesComma` of a list of results. -/
def resultsExposeComma : List WrittenType → Bool
  | [] => false
  | type :: l => exposesComma type || !l.isEmpty || resultsExposeComma l

end

variable {l : Text}

theorem isBracketByte_of_all (h : l.all (fun c => !isBracketByte c) = true) :
    ∀ c ∈ l, isBracketByte c = false := fun c hc => (Bool.not_eq_true' _).mp (all_eq_true.mp h c hc)

theorem squareStep_zero {separator c : UInt8} (hopen : c ≠ byte '[') (hcl : c ≠ byte ']')
    (hc : c ≠ separator) : squareStep separator 0 c = some 0 := by
  rw [squareStep, if_neg hopen, if_neg hcl, if_neg (fun hstop => hc hstop.1)]

theorem walk_squareStep_square {separator : UInt8} {l : Text}
    (hl : walk (squareStep separator) 1 l = some 1) (l' : Text) :
    walk (squareStep separator) 0 (byte '[' :: (l ++ byte ']' :: l')) =
      walk (squareStep separator) 0 l' := by
  rw [walk, show squareStep separator 0 (byte '[') = some 1 from rfl, bind_some, walk_append hl,
    walk, squareStep, if_neg (by decide), if_pos rfl]
  rfl

section SquareDepth

variable {separator : UInt8} (h : separator = byte ',' ∨ separator = byte ':')

include h

theorem squareStep_comma (hne : separator ≠ byte ',') :
    squareStep separator 0 (byte ',') = some 0 := by
  rw [h.resolve_left hne]
  rfl

theorem walk_squareStep_plain {l : Text} (hl : ∀ c ∈ l, isBracketByte c = false) :
    walk (squareStep separator) 0 l = some 0 := by
  induction l with
  | nil => rfl
  | cons c l ih =>
    have hc := hl c (mem_cons_self ..)
    simp only [isBracketByte, Bool.or_eq_false_iff, beq_eq_false_iff_ne] at hc
    obtain ⟨⟨⟨⟨⟨h1, h2⟩, -⟩, -⟩, h5⟩, h6⟩ := hc
    have hne : c ≠ separator := by
      rcases h with rfl | rfl
      · exact h5
      · exact h6
    rw [walk, squareStep_zero h1 h2 hne, bind_some]
    exact ih fun c hc => hl c (mem_cons_of_mem _ hc)

theorem walk_squareStep_cons {c : UInt8} (hc : c = byte '(' ∨ c = byte ')' ∨ c = byte '^' ∨ c = byte '&')
    (l : Text) : walk (squareStep separator) 0 (c :: l) = walk (squareStep separator) 0 l := by
  have hopen : c ≠ byte '[' := by rcases hc with rfl | rfl | rfl | rfl <;> decide
  have hcl : c ≠ byte ']' := by rcases hc with rfl | rfl | rfl | rfl <;> decide
  have hne : c ≠ separator := by
    rcases h with rfl | rfl <;> rcases hc with rfl | rfl | rfl | rfl <;> decide
  rw [walk, squareStep_zero hopen hcl hne]
  rfl

theorem walk_squareStep_func (l : Text) :
    walk (squareStep separator) 0 (bytes "func(" ++ l) = walk (squareStep separator) 0 l := by
  have hpl : ∀ c ∈ bytes "func", isBracketByte c = false := isBracketByte_of_all rfl
  rw [show bytes "func(" ++ l = bytes "func" ++ byte '(' :: l from rfl,
    walk_append (walk_squareStep_plain h hpl), walk_squareStep_cons h (.inl rfl)]

theorem walk_squareStep_arrow (l : Text) :
    walk (squareStep separator) 0 (bytes "->" ++ l) = walk (squareStep separator) 0 l :=
  walk_append (walk_squareStep_plain h (isBracketByte_of_all rfl)) l

mutual

theorem walk_squareStep_spell : ∀ (type : WrittenType),
    (separator = byte ',' → exposesComma type = false) →
      walk (squareStep separator) 0 (spell type) = some 0
  | .name n, _ =>
    walk_squareStep_plain h fun c hc =>
      isBracketByte_of_isTypeNameByte (all_eq_true.mp n.isName c hc)
  | .pointer pointee, hcom => by
    rw [spell, walk_squareStep_cons h (by simp)]
    exact walk_squareStep_spell pointee hcom
  | .array element, _ => by
    rw [spell, walk_squareStep_square ((nests_squareStep separator).walk_spell element 1 (Int.le_refl 1))]
    rfl
  | .fixedArray element size, _ => by
    have hinn : walk (squareStep separator) 1 (spell element ++ byte ',' :: size.text) = some 1 :=
      (nests_squareStep separator).walk_separated (.inl rfl) (Int.le_refl 1)
        ((nests_squareStep separator).walk_spell element 1 (Int.le_refl 1))
        ((nests_squareStep separator).walk_name size (Int.le_refl 1))
    rw [spell_fixedArray, walk_squareStep_square hinn]
    rfl
  | .map key value, _ => by
    have hinn : walk (squareStep separator) 1 (spell key ++ byte ':' :: spell value) = some 1 :=
      (nests_squareStep separator).walk_separated (.inr rfl) (Int.le_refl 1)
        ((nests_squareStep separator).walk_spell key 1 (Int.le_refl 1))
        ((nests_squareStep separator).walk_spell value 1 (Int.le_refl 1))
    have hpl : ∀ c ∈ bytes "map", isBracketByte c = false := isBracketByte_of_all rfl
    rw [spell_map, walk_append (walk_squareStep_plain h hpl), walk_squareStep_square hinn]
    rfl
  | .procedure parameters, hcom => by
    rw [spell, walk_squareStep_func h, walk_append (walk_squareStep_parameters parameters hcom),
      walk_squareStep_cons h (by simp)]
    rfl
  | .function parameters result, hcom => by
    have hpts := fun hsep => Bool.or_eq_false_iff.mp (hcom hsep)
    rw [spell, walk_squareStep_func h,
      walk_append (walk_squareStep_parameters parameters fun hs => (hpts hs).1),
      walk_squareStep_cons h (by simp), walk_squareStep_arrow h]
    exact walk_squareStep_spell result fun hs => (hpts hs).2
  | .functionList parameters results, hcom => by
    have hpts := fun hsep => Bool.or_eq_false_iff.mp (hcom hsep)
    rw [spell, walk_squareStep_func h,
      walk_append (walk_squareStep_parameters parameters fun hs => (hpts hs).1),
      walk_squareStep_cons h (by simp), walk_squareStep_arrow h, walk_squareStep_cons h (by simp),
      walk_append (walk_squareStep_results results fun hs => (hpts hs).2),
      walk_squareStep_cons h (by simp)]
    rfl

theorem walk_squareStep_parameters : ∀ (parameters : List (TypeParameter WrittenType)),
    (separator = byte ',' → parametersExposeComma parameters = false) →
      walk (squareStep separator) 0 (spellParameters parameters) = some 0
  | [], _ => rfl
  | ⟨isMutable, type⟩ :: l, hcom => by
    have hpts := fun hs => Bool.or_eq_false_iff.mp (hcom hs)
    have hfst := fun hs => Bool.or_eq_false_iff.mp (hpts hs).1
    have htype := walk_squareStep_spell type fun hs => (hfst hs).1
    have hpar : walk (squareStep separator) 0
        ((if isMutable then [byte '&'] else []) ++ spell type) = some 0 := by
      cases isMutable with
      | true => exact (walk_squareStep_cons h (by simp) _).trans htype
      | false => exact htype
    rw [spellParameters, walk_append hpar]
    cases l with
    | nil => rfl
    | cons parameter l =>
      have hsep : separator ≠ byte ',' := fun hs => by
        have hemp := (hfst hs).2
        rw [isEmpty_cons] at hemp
        cases hemp
      rw [isEmpty_cons, if_neg Bool.false_ne_true, walk, squareStep_comma h hsep, bind_some]
      exact walk_squareStep_parameters (parameter :: l) fun hs => (hpts hs).2

theorem walk_squareStep_results : ∀ (results : List WrittenType),
    (separator = byte ',' → resultsExposeComma results = false) →
      walk (squareStep separator) 0 (spellResults results) = some 0
  | [], _ => rfl
  | type :: l, hcom => by
    have hpts := fun hs => Bool.or_eq_false_iff.mp (hcom hs)
    have hfst := fun hs => Bool.or_eq_false_iff.mp (hpts hs).1
    rw [spellResults, walk_append (walk_squareStep_spell type fun hs => (hfst hs).1)]
    cases l with
    | nil => rfl
    | cons result l =>
      have hsep : separator ≠ byte ',' := fun hs => by
        have hemp := (hfst hs).2
        rw [isEmpty_cons] at hemp
        cases hemp
      rw [isEmpty_cons, if_neg Bool.false_ne_true, walk, squareStep_comma h hsep, bind_some]
      exact walk_squareStep_results (result :: l) fun hs => (hpts hs).2

end

end SquareDepth
/-! ### The splitters -/

theorem spell_head_ne {c : UInt8} (hname : isTypeNameByte c = false) (hptr : c ≠ byte '^')
    (harr : c ≠ byte '[') (type : WrittenType) : (spell type).head? ≠ some c := by
  cases type with
  | name n =>
    obtain ⟨c', l, hcons, hc⟩ := n.exists_cons
    rw [spell, hcons, head?_cons]
    intro h
    rw [some.inj h, hname] at hc
    cases hc
  | pointer => exact fun h => hptr (some.inj h).symm
  | array | fixedArray => exact fun h => harr (some.inj h).symm
  | map =>
    intro h
    rw [← show byte 'm' = c from some.inj h] at hname
    revert hname
    decide
  | procedure | function | functionList =>
    intro h
    rw [← show byte 'f' = c from some.inj h] at hname
    revert hname
    decide

theorem splitSegments_append {depth depth' : ℤ}
    (h : walk (separatorStep (byte ',')) depth l = some depth') (segment rest : Text) :
    splitSegments depth segment (l ++ rest) = splitSegments depth' (segment ++ l) rest := by
  induction l generalizing depth segment with
  | nil =>
    cases h
    rw [nil_append, append_nil]
  | cons c l ih =>
    obtain ⟨next, hnext, hrest⟩ := Option.bind_eq_some_iff.mp h
    have hstep : bracketDepth depth c = next ∧ ¬ (bracketDepth depth c = 0 ∧ c = byte ',') := by
      rw [separatorStep] at hnext
      unfold bracketDepth
      by_cases hopen : c = byte '[' ∨ c = byte '('
      · rw [if_pos hopen] at hnext
        rw [if_pos hopen.symm]
        refine ⟨some.inj hnext, fun hcom => ?_⟩
        rw [hcom.2] at hopen
        revert hopen
        decide
      · rw [if_neg hopen] at hnext
        rw [if_neg (fun hc => hopen hc.symm)]
        by_cases hcl : c = byte ']' ∨ c = byte ')'
        · rw [if_pos hcl] at hnext
          rw [if_pos hcl.symm]
          refine ⟨some.inj hnext, fun hcom => ?_⟩
          rw [hcom.2] at hcl
          revert hcl
          decide
        · rw [if_neg hcl] at hnext
          rw [if_neg (fun hc => hcl hc.symm)]
          split_ifs at hnext with hcom
          exact ⟨some.inj hnext, fun hstop => hcom hstop.symm⟩
    rw [cons_append, splitSegments, if_neg hstep.2, hstep.1, ih hrest, append_assoc,
      singleton_append]

theorem splitSegments_comma (segment l : Text) :
    splitSegments 0 segment (byte ',' :: l) = segment :: splitSegments 0 [] l := rfl

theorem splitTopCommas_parameters (parameters : List (TypeParameter WrittenType)) :
    splitTopCommas (spellParameters parameters) = parameters.map spellParameter := by
  have hsegments : ∀ (parameter : TypeParameter WrittenType) (l : List (TypeParameter WrittenType)),
      splitSegments 0 [] (spellParameters (parameter :: l)) = (parameter :: l).map spellParameter := by
    intro parameter l
    induction l generalizing parameter with
    | nil => exact splitSegments_append (walk_parameter parameter) [] []
    | cons parameter' l ih =>
      change splitSegments 0 [] (spellParameter parameter ++ byte ',' :: spellParameters (parameter' :: l)) = _
      rw [splitSegments_append (walk_parameter parameter), nil_append, splitSegments_comma, ih]
      rfl
  cases parameters with
  | nil => rfl
  | cons parameter l =>
    have hne : (spellParameters (parameter :: l)).isEmpty = false := by
      change ((_ ++ spell parameter.type) ++ _).isEmpty = false
      simp [spell_ne_nil]
    rw [splitTopCommas, hne, if_neg Bool.false_ne_true, hsegments]

theorem splitTopCommas_results (results : List WrittenType) :
    splitTopCommas (spellResults results) = results.map spell := by
  have hwalk := fun (type : WrittenType) =>
    (nests_separatorStep separator_comma).walk_spell type 0 (Int.le_refl 0)
  have hsegments : ∀ (type : WrittenType) (l : List WrittenType),
      splitSegments 0 [] (spellResults (type :: l)) = (type :: l).map spell := by
    intro type l
    induction l generalizing type with
    | nil => exact splitSegments_append (hwalk type) [] []
    | cons type' l ih =>
      change splitSegments 0 [] (spell type ++ byte ',' :: spellResults (type' :: l)) = _
      rw [splitSegments_append (hwalk type), nil_append, splitSegments_comma, ih]
      rfl
  cases results with
  | nil => rfl
  | cons type l =>
    have hne : (spellResults (type :: l)).isEmpty = false := by
      change (spell type ++ _).isEmpty = false
      simp [spell_ne_nil]
    rw [splitTopCommas, hne, if_neg Bool.false_ne_true, hsegments]

def parameterTexts (parameters : List (TypeParameter WrittenType)) : List (TypeParameter Text) :=
  parameters.map fun parameter => ⟨parameter.isMutable, spell parameter.type⟩

theorem signatureParameter_parameter (parameter : TypeParameter WrittenType) :
    signatureParameter (spellParameter parameter) = ⟨parameter.isMutable, spell parameter.type⟩ := by
  obtain ⟨isMutable, type⟩ := parameter
  cases isMutable with
  | true => rfl
  | false =>
    change (if (spell type).head? = some (byte '&') then _ else (⟨false, spell type⟩ : TypeParameter Text)) = _
    rw [if_neg (spell_head type)]

theorem parseFunctionSignature_eq (parameters : List (TypeParameter WrittenType)) (tail : Text) :
    parseFunctionSignature (bytes "func(" ++ (spellParameters parameters ++ byte ')' :: tail)) =
      some ⟨parameterTexts parameters, signatureResults tail⟩ := by
  rw [parseFunctionSignature, scan_parenthesisStep_parameters, Option.map_some]
  dsimp only
  rw [drop_one, tail_cons, splitTopCommas_parameters, map_map]
  simp only [parameterTexts, Function.comp_def, signatureParameter_parameter]

theorem signatureResults_spell {result : WrittenType} (h : spell result ≠ bytes "void") :
    signatureResults (bytes "->" ++ spell result) = [spell result] := by
  change (if (spell result).head? = some (byte '(') then _
    else if spell result = bytes "void" then [] else [spell result]) = _
  rw [if_neg (spell_head_ne rfl (by decide) (by decide) result), if_neg h]

theorem signatureResults_results (results : List WrittenType) :
    signatureResults (bytes "->" ++ byte '(' :: (spellResults results ++ [byte ')'])) =
      results.map spell := by
  change (if (byte '(' :: (spellResults results ++ [byte ')'])).getLast? = some (byte ')') then
    splitTopCommas (spellResults results ++ [byte ')']).dropLast else []) = _
  rw [if_pos, dropLast_concat, splitTopCommas_results]
  rw [← cons_append, getLast?_concat]

theorem typeTopLevelComma_spell (type : WrittenType) : typeTopLevelComma (spell type) = none := by
  rw [typeTopLevelComma, scan_eq_none (nests_commaStep.walk_spell type 0 (Int.le_refl 0))]
  rfl

theorem typeTopLevelComma_size (type : WrittenType) (size : Text) :
    typeTopLevelComma (spell type ++ byte ',' :: size) = some (spell type) := by
  rw [typeTopLevelComma, scan_stop (nests_commaStep.walk_spell type 0 (Int.le_refl 0)) rfl,
    bind_some, getElem?_append_right le_rfl, Nat.sub_self]
  exact if_pos rfl

theorem bracketed_text (h : l ≠ []) : ((byte '[' :: (l ++ [byte ']'])).head? = some (byte '[') ∧
      (byte '[' :: (l ++ [byte ']'])).getLast? = some (byte ']')) ∧
    2 < (byte '[' :: (l ++ [byte ']'])).length ∧
    ((byte '[' :: (l ++ [byte ']'])).drop 1).dropLast = l := by
  have hpos := length_pos_iff.mpr h
  refine ⟨⟨rfl, ?_⟩, ?_, dropLast_concat⟩
  · rw [← cons_append, getLast?_concat]
  · rw [length_cons, length_append, length_singleton]
    omega

theorem arrayElementText_bracketed (h : l ≠ []) :
    arrayElementText (byte '[' :: (l ++ [byte ']'])) = some ((typeTopLevelComma l).getD l) := by
  obtain ⟨⟨hhead, hlast⟩, hlen, hinn⟩ := bracketed_text h
  rw [arrayElementText, if_pos ⟨hhead, hlen, hlast⟩, hinn]

theorem arrayElementType_bracketed (h : l ≠ []) : arrayElementType (byte '[' :: (l ++ [byte ']'])) =
      some (((scan (squareStep (byte ',')) 0 l).map Prod.fst).getD l) := by
  obtain ⟨⟨hhead, hlast⟩, hlen, hinn⟩ := bracketed_text h
  rw [arrayElementType, if_pos ⟨hhead, by omega, hlast⟩, hinn]
  cases scan (squareStep (byte ',')) 0 l <;> rfl

theorem moduleArrayParts_bracketed (h : l ≠ []) : moduleArrayParts (byte '[' :: (l ++ [byte ']'])) =
      some (((scan (squareStep (byte ',')) 0 l).map Prod.fst).getD l,
        (scan (squareStep (byte ',')) 0 l).map Prod.snd) := by
  obtain ⟨⟨hhead, hlast⟩, -, hinn⟩ := bracketed_text h
  rw [moduleArrayParts, if_pos ⟨hhead, hlast⟩, hinn]
  cases scan (squareStep (byte ',')) 0 l <;> rfl

/-! ### The pool -/

def builtFrom : TypeKind → Text → GrayType
  | .array, name => ⟨.array, name, some name, none, none, none, none⟩
  | .pointer, name => ⟨.pointer, name, some name, none, none, none, none⟩
  | .map, name => mapType name
  | .function, name =>
    if (bytes "func(").isPrefixOf name then
      ⟨.function, name, none, none, none, parseFunctionSignature name, none⟩
    else plainType .function name
  | kind, name => plainType kind name

@[simp] theorem key_mapType (name : Text) : (mapType name).key = (.map, name) := by
  unfold mapType
  dsimp only
  split_ifs <;> rfl

@[simp] theorem key_builtFrom (kind : TypeKind) (name : Text) : (builtFrom kind name).key = (kind, name) := by
  cases kind with
  | map => exact key_mapType name
  | function =>
    rw [builtFrom]
    split_ifs <;> rfl
  | _ => rfl

/-- The invariant of the pool: one type for each key, which is the one that is built for it, and
plain names of distinct types. -/
structure TypePool.Valid (pool : TypePool) : Prop where
  interned : IsInterned GrayType.key pool.entries
  built : ∀ type ∈ pool.entries, type = builtFrom type.kind type.name
  plain : ∀ type ∈ pool.distinct, ∃ n : TypeName, type.distinct = some n.text

/-- `pool` is an earlier one than `later`. -/
def TypePool.Before (pool later : TypePool) : Prop := pool.entries <+: later.entries

section Pool

variable {pool later : TypePool}

theorem TypePool.Valid.intern (h : pool.Valid) {type : GrayType}
    (htype : type = builtFrom type.kind type.name) : (pool.intern type).1.Valid where
  interned := h.interned.intern type
  built other hoth := by
    rcases mem_intern hoth with hmem | rfl
    · exact h.built other hmem
    · exact htype
  plain := h.plain

theorem TypePool.before_intern (pool : TypePool) (type : GrayType) : pool.Before (pool.intern type).1 :=
  prefix_intern pool.entries type

def Keeps (pool : TypePool) (p : TypePool × TypeReference) : Prop :=
  pool.Before p.1 ∧ (pool.Valid → p.1.Valid)

theorem keeps_self (r : TypeReference) : Keeps pool (pool, r) := ⟨prefix_rfl, id⟩

theorem keeps_intern {type : GrayType} (htype : type = builtFrom type.kind type.name) :
    Keeps pool (pool.intern type) := ⟨pool.before_intern type, fun h => h.intern htype⟩

variable (name : Text)

theorem keeps_typeDeclared : Keeps pool (typeDeclared pool name) := by
  unfold typeDeclared
  split
  · exact keeps_self _
  · exact keeps_intern rfl

theorem keeps_typeNamed : Keeps pool (typeNamed pool name) := by
  unfold typeNamed
  dsimp only
  split_ifs
  · exact keeps_typeDeclared _
  · exact keeps_typeDeclared _
  · exact keeps_typeDeclared _
  · exact keeps_self _

def isCompositeKey (key : TypeKind × Text) : Bool :=
  key.1 = .array || key.1 = .pointer || key.1 = .map || (key.1 = .function && key.2 != bytes "func")

theorem builtFrom_plain {kind : TypeKind} {name : Text} (h : isCompositeKey (kind, name) = false) :
    plainType kind name = builtFrom kind name := by
  cases kind with
  | array | pointer | map => cases h
  | function =>
    have hname : name = bytes "func" := by simpa [isCompositeKey] using h
    rw [hname]
    rfl
  | _ => rfl

def BuiltinType.allocatedKey : BuiltinType → Option (TypeKind × Text)
  | .singleton _ => none
  | .allocated kind name => some (kind, name)

theorem builtinTypes_plain : ∀ p ∈ builtinTypes,
    p.1.all isTypeNameByte = true ∧ p.2.allocatedKey.any isCompositeKey = false := by
  decide

theorem builtin_plain {name allocationName : Text} {kind : TypeKind}
    (h : builtinTypes.lookup name = some (.allocated kind allocationName)) :
    isCompositeKey (kind, allocationName) = false := by
  obtain ⟨l, l', hl, -⟩ := lookup_eq_some_iff.mp h
  have hmem : (name, BuiltinType.allocated kind allocationName) ∈ builtinTypes := by
    rw [hl]
    exact mem_append_right _ (mem_cons_self ..)
  exact (builtinTypes_plain _ hmem).2

theorem keeps_mapType : Keeps pool (pool.intern (mapType name)) := by
  refine keeps_intern ?_
  have hkey := key_mapType name
  rw [show (mapType name).kind = .map from congrArg Prod.fst hkey,
    show (mapType name).name = name from congrArg Prod.snd hkey]
  rfl

theorem keeps_fromName : Keeps pool (typeFromName pool name) := by
  unfold typeFromName
  split
  · exact keeps_self _
  by_cases hfunc : (bytes "func(").isPrefixOf name = true
  · rw [if_pos hfunc]
    refine keeps_intern ?_
    rw [builtFrom, if_pos hfunc]
  rw [if_neg hfunc]
  cases hlook : builtinTypes.lookup name with
  | some builtin =>
    cases builtin with
    | singleton kind => exact keeps_self _
    | allocated kind allocationName => exact keeps_intern (builtFrom_plain (builtin_plain hlook))
  | none =>
    dsimp only
    cases arrayElementText name with
    | some elementType =>
      dsimp only
      split_ifs <;> exact keeps_intern rfl
    | none =>
      dsimp only
      split_ifs
      · exact keeps_intern rfl
      · exact keeps_intern rfl
      · exact keeps_intern rfl
      · exact keeps_mapType name
      · exact keeps_typeNamed name

theorem TypePool.serve_keeps (request : TypeRequest) :
    pool.Before (pool.serve request) ∧ (pool.Valid → (pool.serve request).Valid) := by
  cases request with
  | fromName name => exact keeps_fromName name
  | array elementType => exact keeps_intern rfl
  | pointer pointeeType => exact keeps_intern rfl
  | struct name => exact keeps_intern rfl
  | enum name => exact keeps_intern rfl
  | registerDistinct name underlying =>
    obtain ⟨hbef, hval⟩ := @keeps_fromName pool underlying.text
    refine ⟨hbef, fun h => ⟨(hval h).interned, (hval h).built, fun type htype => ?_⟩⟩
    rcases mem_append.mp htype with htype | htype
    · exact (hval h).plain type htype
    · obtain rfl := mem_singleton.mp htype
      exact ⟨name, rfl⟩

theorem TypePool.run_keeps (requests : List TypeRequest) (pool : TypePool) :
    pool.Before (pool.run requests) ∧ (pool.Valid → (pool.run requests).Valid) := by
  induction requests generalizing pool with
  | nil => exact ⟨prefix_rfl, id⟩
  | cons request requests ih =>
    obtain ⟨hbef, hval⟩ := @TypePool.serve_keeps pool request
    obtain ⟨hbef', hval'⟩ := ih (pool.serve request)
    exact ⟨List.IsPrefix.trans hbef hbef', fun h => hval' (hval h)⟩

def TypePool.empty : TypePool := ⟨[], []⟩

theorem TypePool.valid_run (requests : List TypeRequest) : (TypePool.empty.run requests).Valid :=
  (TypePool.run_keeps requests TypePool.empty).2
    ⟨nodup_nil, fun _ h => absurd h not_mem_nil, fun _ h => absurd h not_mem_nil⟩

theorem TypePool.Valid.typeAt_intern (h : pool.Valid) {type : GrayType}
    (htype : type = builtFrom type.kind type.name) :
    (pool.intern type).1.typeAt (pool.intern type).2 = some type := by
  obtain ⟨other, hoth, hkey, -⟩ := @getElem?_intern _ _ GrayType.key _ pool.entries type
  have hblt : other = builtFrom other.kind other.name :=
    (h.intern htype).built other (mem_of_getElem? hoth)
  have heq : other = type := by
    rw [hblt, htype, show other.kind = type.kind from congrArg Prod.fst hkey,
      show other.name = type.name from congrArg Prod.snd hkey]
  rw [heq] at hoth
  exact hoth

end Pool

/-! ### Components -/

def compositeKey : WrittenType → Option (TypeKind × Text)
  | .name _ => none
  | .pointer pointee => some (.pointer, spell pointee)
  | .array element => some (.array, spell element)
  | .fixedArray element _ => some (.array, spell element)
  | .map key value => some (.map, spell (.map key value))
  | .procedure parameters => some (.function, spell (.procedure parameters))
  | .function parameters result => some (.function, spell (.function parameters result))
  | .functionList parameters results => some (.function, spell (.functionList parameters results))

def withoutSize : WrittenType → WrittenType
  | .fixedArray element _ => .array element
  | type => type

variable {type : WrittenType} {key : TypeKind × Text}

theorem exists_not_name (h : compositeKey type = some key) :
    ∃ c ∈ spell type, isTypeNameByte c = false := by
  cases type with
  | name => cases h
  | pointer => exact ⟨byte '^', mem_cons_self .., rfl⟩
  | array | fixedArray => exact ⟨byte '[', mem_cons_self .., rfl⟩
  | map => exact ⟨byte '[', mem_append_left _ (by decide), rfl⟩
  | procedure | function | functionList => exact ⟨byte '(', mem_append_left _ (by decide), rfl⟩

theorem ne_of_not_name {l l' : Text} (h : ∃ c ∈ l', isTypeNameByte c = false)
    (hl : l.all isTypeNameByte = true) : l' ≠ l := by
  rintro rfl
  obtain ⟨c, hc, hname⟩ := h
  rw [all_eq_true.mp hl c hc] at hname
  cases hname

theorem lookup_builtinTypes (h : ∃ c ∈ l, isTypeNameByte c = false) :
    builtinTypes.lookup l = none := by
  rw [lookup_eq_none_iff]
  intro p hp
  exact bne_iff_ne.mpr (ne_of_not_name h (builtinTypes_plain p hp).1)

theorem findIdx?_distinct {pool : TypePool} {l : Text}
    (hpl : ∀ type ∈ pool.distinct, ∃ n : TypeName, type.distinct = some n.text)
    (h : ∃ c ∈ l, isTypeNameByte c = false) :
    (pool.distinct.findIdx? fun type => decide (type.distinct = some l)) = none := by
  rw [findIdx?_eq_none_iff]
  intro type htype
  obtain ⟨n, hn⟩ := hpl type htype
  rw [hn]
  exact decide_eq_false fun heq => ne_of_not_name h n.isName (some.inj heq).symm

section Composite

variable {pool : TypePool}

theorem fromName_func
    (hpl : ∀ type ∈ pool.distinct, ∃ n : TypeName, type.distinct = some n.text) (l : Text) :
    typeFromName pool (bytes "func(" ++ l) =
      pool.intern (builtFrom .function (bytes "func(" ++ l)) := by
  have hoth : ∃ c ∈ bytes "func(" ++ l, isTypeNameByte c = false :=
    ⟨byte '(', mem_append_left _ (by decide), rfl⟩
  have hst : (bytes "func(").isPrefixOf (bytes "func(" ++ l) = true := rfl
  rw [typeFromName, findIdx?_distinct hpl hoth]
  dsimp only
  rw [if_pos hst, builtFrom, if_pos hst]

theorem fromName_other
    (hpl : ∀ type ∈ pool.distinct, ∃ n : TypeName, type.distinct = some n.text) {l : Text}
    (hoth : ∃ c ∈ l, isTypeNameByte c = false) (hfunc : (bytes "func(").isPrefixOf l = false)
    (hrng : (bytes "Range<").isPrefixOf l = false) : typeFromName pool l =
      if l.head? = some (byte '^') then typePointer pool (l.drop 1)
      else if l.head? = some (byte '?') ∧ 1 < l.length then pool.intern (plainType .unknown l)
      else match arrayElementText l with
      | some elementType => typeArray pool elementType
      | none => if (bytes "map[").isPrefixOf l then pool.intern (mapType l) else typeNamed pool l := by
  rw [typeFromName, findIdx?_distinct hpl hoth]
  dsimp only
  rw [hfunc, if_neg Bool.false_ne_true, lookup_builtinTypes hoth]
  dsimp only
  exact if_neg (by rw [hrng]; exact Bool.false_ne_true)

theorem fromName_bracketed
    (hpl : ∀ type ∈ pool.distinct, ∃ n : TypeName, type.distinct = some n.text) {l : Text}
    (hl : l ≠ []) : typeFromName pool (byte '[' :: (l ++ [byte ']'])) =
      pool.intern (builtFrom .array ((typeTopLevelComma l).getD l)) := by
  have hoth : ∃ c ∈ byte '[' :: (l ++ [byte ']']), isTypeNameByte c = false :=
    ⟨byte '[', mem_cons_self .., rfl⟩
  rw [fromName_other hpl hoth rfl rfl, arrayElementText_bracketed hl]
  rfl

theorem fromName_composite
    (hpl : ∀ type ∈ pool.distinct, ∃ n : TypeName, type.distinct = some n.text)
    {type : WrittenType} {key : TypeKind × Text} (h : compositeKey type = some key) :
    typeFromName pool (spell type) = pool.intern (builtFrom key.1 key.2) := by
  have hoth := exists_not_name h
  cases type with
  | name => cases h
  | pointer pointee =>
    cases h
    exact fromName_other hpl hoth rfl rfl
  | array element =>
    cases h
    rw [spell, fromName_bracketed hpl (spell_ne_nil element), typeTopLevelComma_spell]
    rfl
  | fixedArray element size =>
    cases h
    rw [spell_fixedArray, fromName_bracketed hpl (by simp), typeTopLevelComma_size]
    rfl
  | map keyType valueType =>
    cases h
    exact fromName_other hpl hoth rfl rfl
  | procedure | function | functionList =>
    cases h
    exact fromName_func hpl _

end Composite

/-! ### Names -/

section Names

variable {pool : TypePool}

def IsPlainReference (p : TypePool × TypeReference) : Prop :=
  ∀ index, p.2 = .pooled index → ∃ type, p.1.entries[index]? = some type ∧ isCompositeKey type.key = false

theorem isPlain_intern {type : GrayType} (h : isCompositeKey type.key = false) :
    IsPlainReference (pool.intern type) := by
  rintro index hidx
  obtain ⟨other, hoth, hkey, -⟩ := @getElem?_intern _ _ GrayType.key _ pool.entries type
  obtain rfl := TypeReference.pooled.inj hidx
  exact ⟨other, hoth, hkey ▸ h⟩

theorem isPlain_typeDeclared (name : Text) : IsPlainReference (typeDeclared pool name) := by
  unfold typeDeclared
  split
  next index hidx =>
    rintro index' hidx'
    obtain rfl := TypeReference.pooled.inj hidx'
    obtain ⟨hlt, hkey, -⟩ := findIdx?_eq_some_iff_getElem.mp hidx
    refine ⟨pool.entries[index], getElem?_eq_getElem hlt, ?_⟩
    rw [of_decide_eq_true hkey]
    rfl
  next => exact isPlain_intern rfl

theorem isPlain_typeNamed (name : Text) : IsPlainReference (typeNamed pool name) := by
  unfold typeNamed
  dsimp only
  split_ifs
  · exact isPlain_typeDeclared _
  · exact isPlain_typeDeclared _
  · exact isPlain_typeDeclared _
  · exact fun _ h => by cases h

variable (n : TypeName)

theorem TypeName.isPrefixOf_eq_false {start : Text}
    (h : ∃ c ∈ start, isTypeNameByte c = false) : start.isPrefixOf n.text = false := by
  rw [← Bool.not_eq_true, List.isPrefixOf_iff_prefix]
  intro hst
  obtain ⟨c, hc, hname⟩ := h
  exact n.not_mem hname (hst.subset hc)

theorem TypeName.head_ne {c : UInt8} (h : isTypeNameByte c = false) : n.text.head? ≠ some c := by
  intro hhead
  exact n.not_mem h (mem_of_mem_head? hhead)

theorem isPlain_name : IsPlainReference (typeFromName pool n.text) := by
  have harr : arrayElementText n.text = none := by
    rw [arrayElementText, if_neg (fun h => n.head_ne rfl h.1)]
  unfold typeFromName
  split
  · exact fun _ h => by cases h
  rw [n.isPrefixOf_eq_false ⟨byte '(', by decide, rfl⟩, if_neg Bool.false_ne_true]
  cases hlook : builtinTypes.lookup n.text with
  | some builtin =>
    cases builtin with
    | singleton kind => exact fun _ h => by cases h
    | allocated kind allocationName => exact isPlain_intern (builtin_plain hlook)
  | none =>
    dsimp only
    rw [n.isPrefixOf_eq_false ⟨byte '<', by decide, rfl⟩, if_neg Bool.false_ne_true,
      if_neg (n.head_ne rfl), if_neg (fun h => n.head_ne rfl h.1), harr]
    dsimp only
    rw [n.isPrefixOf_eq_false ⟨byte '[', by decide, rfl⟩, if_neg Bool.false_ne_true]
    exact isPlain_typeNamed n.text

end Names

/-! ### Identity -/

def keySpelling (key : TypeKind × Text) : Text :=
  if key.1 = .pointer then byte '^' :: key.2
  else if key.1 = .array then byte '[' :: (key.2 ++ [byte ']'])
  else key.2

def spellingKey (l : Text) : TypeKind × Text :=
  if l.head? = some (byte '^') then (.pointer, l.drop 1)
  else if l.head? = some (byte '[') then (.array, (l.drop 1).dropLast)
  else if (bytes "map[").isPrefixOf l then (.map, l)
  else (.function, l)

theorem keySpelling_compositeKey
    (h : compositeKey type = some key) : spell (withoutSize type) = keySpelling key := by
  cases type with
  | name => cases h
  | pointer | array | fixedArray | map | procedure | function | functionList =>
    cases h
    rfl

theorem spellingKey_spell
    (h : compositeKey type = some key) : spellingKey (spell (withoutSize type)) = key := by
  cases type with
  | name => cases h
  | array element | fixedArray element size =>
    cases h
    change (TypeKind.array, (spell element ++ [byte ']']).dropLast) = _
    rw [dropLast_concat]
  | pointer | map | procedure | function | functionList =>
    cases h
    rfl

theorem compositeKey_eq_iff {type type' : WrittenType} {key key' : TypeKind × Text}
    (h : compositeKey type = some key) (h' : compositeKey type' = some key') :
    key = key' ↔ spell (withoutSize type) = spell (withoutSize type') := by
  constructor
  · rintro rfl
    rw [keySpelling_compositeKey h, keySpelling_compositeKey h']
  · intro heq
    rw [← spellingKey_spell h, heq, spellingKey_spell h']

theorem isCompositeKey_compositeKey
    (h : compositeKey type = some key) : isCompositeKey key = true := by
  cases type with
  | name => cases h
  | pointer | array | fixedArray | map =>
    cases h
    rfl
  | procedure | function | functionList =>
    cases h
    rfl

theorem withoutSize_ne_name
    (h : compositeKey type = some key) (n : TypeName) : spell (withoutSize type) ≠ n.text := by
  have hsome : ∃ key', compositeKey (withoutSize type) = some key' := by
    cases type with
    | name => cases h
    | pointer | array | fixedArray | map | procedure | function | functionList => exact ⟨_, rfl⟩
  obtain ⟨key', h'⟩ := hsome
  exact ne_of_not_name (exists_not_name h') n.isName

theorem eq_name_of_compositeKey (h : compositeKey type = none) : ∃ n, type = .name n := by
  cases type with
  | name n => exact ⟨n, rfl⟩
  | pointer | array | fixedArray | map | procedure | function | functionList => cases h

theorem exists_entry {pool : TypePool} (hval : pool.Valid) {type : WrittenType}
    {key : TypeKind × Text} (h : compositeKey type = some key) : ∃ index entry,
      (typeFromName pool (spell type)).2 = .pooled index ∧
        (typeFromName pool (spell type)).1.entries[index]? = some entry ∧ entry.key = key := by
  rw [fromName_composite hval.plain h]
  obtain ⟨entry, hent, hkey, -⟩ :=
    @getElem?_intern _ _ GrayType.key _ pool.entries (builtFrom key.1 key.2)
  rw [key_builtFrom] at hkey
  exact ⟨_, entry, rfl, hent, hkey⟩

theorem getElem?_of_before {pool later : TypePool} (h : pool.Before later) {index : ℕ} {entry : GrayType}
    (hent : pool.entries[index]? = some entry) : later.entries[index]? = some entry := by
  obtain ⟨l, hl⟩ := h
  obtain ⟨hlt, -⟩ := List.getElem?_eq_some_iff.mp hent
  rw [← hl, getElem?_append_left hlt, hent]

/-- A type with components and another type, in a pool and in a later one, are the same `GrayType`
if and only if they are spelled the same, but for the size of an array. -/
theorem fromName_eq_iff {pool later : TypePool} (hval : pool.Valid) (hlater : later.Valid)
    {type type' : WrittenType} (hbef : (typeFromName pool (spell type)).1.Before later)
    (hcomposite : (compositeKey type).isSome = true ∨ (compositeKey type').isSome = true) :
    (typeFromName pool (spell type)).2 = (typeFromName later (spell type')).2 ↔
      spell (withoutSize type) = spell (withoutSize type') := by
  obtain ⟨hbef', hval'⟩ := @keeps_fromName later (spell type')
  have hst : (typeFromName pool (spell type)).1.Before (typeFromName later (spell type')).1 :=
    List.IsPrefix.trans hbef hbef'
  cases hkey : compositeKey type with
  | some key =>
    obtain ⟨index, entry, hidx, hent, hentryKey⟩ := exists_entry hval hkey
    cases hkey' : compositeKey type' with
    | some key' =>
      obtain ⟨index', entry', hidx', hent', hentryKey'⟩ := exists_entry hlater hkey'
      rw [hidx, hidx', TypeReference.pooled.injEq, ← compositeKey_eq_iff hkey hkey', ← hentryKey,
        ← hentryKey']
      exact (hval' hlater).interned.index_eq_iff hst hent hent'
    | none =>
      obtain ⟨n, rfl⟩ := eq_name_of_compositeKey hkey'
      refine iff_of_false (fun heq => ?_) (withoutSize_ne_name hkey n)
      obtain ⟨other, hoth, hpl⟩ := isPlain_name n index (heq ▸ hidx)
      have hsame : some entry = some other := (getElem?_of_before hst hent).symm.trans hoth
      rw [← some.inj hsame, hentryKey, isCompositeKey_compositeKey hkey] at hpl
      cases hpl
  | none =>
    rw [hkey] at hcomposite
    obtain ⟨key', hkey'⟩ := Option.isSome_iff_exists.mp (hcomposite.resolve_left Bool.false_ne_true)
    obtain ⟨n, rfl⟩ := eq_name_of_compositeKey hkey
    obtain ⟨index', entry', hidx', hent', hentryKey'⟩ := exists_entry hlater hkey'
    refine iff_of_false (fun heq => ?_) (fun heq => withoutSize_ne_name hkey' n heq.symm)
    obtain ⟨other, hoth, hpl⟩ := isPlain_name n index' (heq.trans hidx')
    have hsame : some entry' = some other := hent'.symm.trans (getElem?_of_before hst hoth)
    rw [← some.inj hsame, hentryKey', isCompositeKey_compositeKey hkey'] at hpl
    cases hpl

/-! ### The components of a spelling -/

/-- The type that `type_from_name` returns. -/
def typeOf (pool : TypePool) (name : Text) : Option GrayType :=
  (typeFromName pool name).1.typeAt (typeFromName pool name).2

/-- What each splitter finds in the spelling of a type: its components, as they are spelled. The
first `:` of a map ends its key only if there is none in the key, and `array_element_type` and
`module_resolve_type_name` do not count parentheses. -/
def Decomposes (pool : TypePool) (name : Text) : WrittenType → Prop
  | .name _ => True
  | .pointer pointee =>
    (∃ type, typeOf pool name = some type ∧ type.kind = .pointer ∧
      type.elementType = some (spell pointee)) ∧ modulePointee name = some (spell pointee)
  | .array element =>
    (∃ type, typeOf pool name = some type ∧ type.kind = .array ∧
      type.elementType = some (spell element)) ∧
    (exposesComma element = false → arrayElementType name = some (spell element) ∧
      moduleArrayParts name = some (spell element, none))
  | .fixedArray element size =>
    (∃ type, typeOf pool name = some type ∧ type.kind = .array ∧
      type.elementType = some (spell element)) ∧
    (exposesComma element = false → arrayElementType name = some (spell element) ∧
      moduleArrayParts name = some (spell element, some size.text))
  | .map key value =>
    (∃ type, typeOf pool name = some type ∧ type.kind = .map ∧ (byte ':' ∉ spell key →
        type.keyType = some (spell key) ∧ type.valueType = some (spell value))) ∧
    moduleMapParts name = some (spell key, spell value)
  | .procedure parameters =>
    (∃ type, typeOf pool name = some type ∧ type.kind = .function ∧
      type.functionSignature = some ⟨parameterTexts parameters, []⟩) ∧
    moduleFunctionParts pool name = some ⟨parameterTexts parameters, []⟩
  | .function parameters result =>
    (∃ type, typeOf pool name = some type ∧ type.kind = .function ∧
      type.functionSignature = some ⟨parameterTexts parameters, [spell result]⟩) ∧
    moduleFunctionParts pool name = some ⟨parameterTexts parameters, [spell result]⟩
  | .functionList parameters results =>
    (∃ type, typeOf pool name = some type ∧ type.kind = .function ∧
      type.functionSignature = some ⟨parameterTexts parameters, results.map spell⟩) ∧
    moduleFunctionParts pool name = some ⟨parameterTexts parameters, results.map spell⟩

section Decomposition

variable {pool : TypePool}

theorem typeOf_composite (h : pool.Valid) {type : WrittenType} {key : TypeKind × Text}
    (hkey : compositeKey type = some key) : typeOf pool (spell type) = some (builtFrom key.1 key.2) := by
  have hblt : builtFrom key.1 key.2 =
      builtFrom (builtFrom key.1 key.2).kind (builtFrom key.1 key.2).name := by
    have hsame := key_builtFrom key.1 key.2
    rw [show (builtFrom key.1 key.2).kind = key.1 from congrArg Prod.fst hsame,
      show (builtFrom key.1 key.2).name = key.2 from congrArg Prod.snd hsame]
  unfold typeOf
  rw [fromName_composite h.plain hkey]
  exact h.typeAt_intern hblt

theorem mapType_spell {key value : WrittenType} (h : byte ':' ∉ spell key) :
    (mapType (spell (.map key value))).keyType = some (spell key) ∧
      (mapType (spell (.map key value))).valueType = some (spell value) := by
  have hnot : ∀ c ∈ spell key, (c != byte ':') = true :=
    fun c hc => bne_iff_ne.mpr fun heq => h (heq ▸ hc)
  have hst : (spell (.map key value)).drop 4 =
      spell key ++ byte ':' :: (spell value ++ [byte ']']) := rfl
  have hmem : byte ':' ∈ spell key ++ byte ':' :: (spell value ++ [byte ']']) :=
    mem_append_right _ (mem_cons_self ..)
  have htake : (spell key ++ byte ':' :: (spell value ++ [byte ']'])).takeWhile (· != byte ':') =
      spell key := by
    rw [takeWhile_append_of_pos hnot]
    exact append_nil _
  have hdrop : (spell key ++ byte ':' :: (spell value ++ [byte ']'])).dropWhile (· != byte ':') =
      byte ':' :: (spell value ++ [byte ']']) := by
    rw [dropWhile_append_of_pos hnot]
    rfl
  unfold mapType
  dsimp only
  rw [hst, if_pos hmem, htake, hdrop]
  refine ⟨rfl, ?_⟩
  change some (mapValueText (spell value ++ [byte ']'])) = _
  rw [mapValueText, getLast?_concat, if_pos rfl, dropLast_concat]

theorem moduleMapParts_spell (key value : WrittenType) :
    moduleMapParts (spell (.map key value)) = some (spell key, spell value) := by
  have hinn : ((spell (.map key value)).drop 4).dropLast = spell key ++ byte ':' :: spell value := by
    rw [spell_map]
    exact dropLast_concat
  have hlen : 5 < (spell (.map key value)).length := by
    have hpos := length_pos_iff.mpr (spell_ne_nil key)
    rw [spell, length_append, length_append, length_cons, length_append,
      show (bytes "map[").length = 4 from rfl, length_singleton]
    omega
  have hlast : (spell (.map key value)).getLast? = some (byte ']') := by
    rw [spell_map, ← cons_append, ← append_assoc, getLast?_concat]
  rw [moduleMapParts, if_pos ⟨hlen, rfl, hlast⟩, hinn]
  exact scan_stop (walk_squareStep_spell (.inr rfl) key fun h => absurd h (by decide)) rfl _

theorem function_decomposes (h : pool.Valid) {type : WrittenType}
    (hkey : compositeKey type = some (.function, spell type)) {parameters : List (TypeParameter WrittenType)}
    {tail : Text} (hspell : spell type = bytes "func(" ++ (spellParameters parameters ++ byte ')' :: tail)) :
    (∃ found, typeOf pool (spell type) = some found ∧ found.kind = .function ∧
      found.functionSignature = some ⟨parameterTexts parameters, signatureResults tail⟩) ∧
    moduleFunctionParts pool (spell type) = some ⟨parameterTexts parameters, signatureResults tail⟩ := by
  have htype := typeOf_composite h hkey
  have hst : (bytes "func(").isPrefixOf (spell type) = true := by
    rw [hspell]
    rfl
  have hlen : 5 < (spell type).length := by
    rw [hspell, length_append, length_append, length_cons,
      show (bytes "func(").length = 5 from rfl]
    omega
  have hsig : (builtFrom .function (spell type)).functionSignature =
      some ⟨parameterTexts parameters, signatureResults tail⟩ := by
    rw [builtFrom, if_pos hst]
    dsimp only
    rw [hspell, parseFunctionSignature_eq]
  have hkind : (builtFrom .function (spell type)).kind = .function :=
    congrArg Prod.fst (key_builtFrom .function (spell type))
  refine ⟨⟨_, htype, hkind, hsig⟩, ?_⟩
  rw [moduleFunctionParts, if_pos ⟨hlen, hst⟩]
  change (typeOf pool (spell type)).bind _ = _
  rw [htype, bind_some, if_pos hkind, hsig]

theorem decomposes_spell (h : pool.Valid) (type : WrittenType)
    (hvoid : ∀ parameters result, type = .function parameters result → spell result ≠ bytes "void") :
    Decomposes pool (spell type) type := by
  have hcom : ∀ {element : WrittenType}, exposesComma element = false →
      walk (squareStep (byte ',')) 0 (spell element) = some 0 :=
    fun helem => walk_squareStep_spell (.inl rfl) _ fun _ => helem
  cases type with
  | name n => trivial
  | pointer pointee => exact ⟨⟨_, typeOf_composite h rfl, rfl, rfl⟩, rfl⟩
  | array element =>
    refine ⟨⟨_, typeOf_composite h rfl, rfl, rfl⟩, fun helem => ?_⟩
    rw [spell, arrayElementType_bracketed (spell_ne_nil element),
      moduleArrayParts_bracketed (spell_ne_nil element), scan_eq_none (hcom helem)]
    exact ⟨rfl, rfl⟩
  | fixedArray element size =>
    refine ⟨⟨_, typeOf_composite h rfl, rfl, rfl⟩, fun helem => ?_⟩
    have hne : spell element ++ byte ',' :: size.text ≠ [] := by simp
    rw [spell_fixedArray, arrayElementType_bracketed hne, moduleArrayParts_bracketed hne,
      scan_stop (hcom helem) rfl]
    exact ⟨rfl, rfl⟩
  | map key value =>
    refine ⟨⟨_, typeOf_composite h rfl, ?_, mapType_spell⟩, moduleMapParts_spell key value⟩
    exact congrArg Prod.fst (key_builtFrom .map _)
  | procedure parameters => exact @function_decomposes pool h (.procedure parameters) rfl parameters [] rfl
  | function parameters result =>
    have hress := signatureResults_spell (hvoid parameters result rfl)
    have hpts := @function_decomposes pool h (.function parameters result) rfl parameters _ rfl
    rwa [hress] at hpts
  | functionList parameters results =>
    have hpts := @function_decomposes pool h (.functionList parameters results) rfl parameters _ rfl
    rwa [signatureResults_results] at hpts

end Decomposition

/-- A spelling that the parser builds is the one of the type that is written, is taken apart into
its components, and is one type of the pool. -/
theorem typeSpelling_spec {tokens last : List Token} {type : WrittenType}
    (hreads : ReadsType tokens type last) {fuel nesting : ℕ} {name : Text} {rest : List Token}
    (hparse : parseComplexType fuel nesting tokens = some (name, rest)) (requests : List TypeRequest) :
    name = spell type ∧ rest = last ∧ Decomposes (TypePool.empty.run requests) name type ∧
      ∀ {tokens' last' : List Token} {type' : WrittenType}, ReadsType tokens' type' last' →
        ∀ {fuel' nesting' : ℕ} {name' : Text} {rest' : List Token},
          parseComplexType fuel' nesting' tokens' = some (name', rest') →
            (compositeKey type).isSome = true ∨ (compositeKey type').isSome = true →
              ∀ between : List TypeRequest, ((typeFromName (TypePool.empty.run requests) name).2 =
                  (typeFromName ((typeFromName (TypePool.empty.run requests) name).1.run between)
                    name').2 ↔ spell (withoutSize type) = spell (withoutSize type')) := by
  have hval := TypePool.valid_run requests
  have hvoid : ∀ parameters result, type = .function parameters result → spell result ≠ bytes "void" := by
    rintro parameters result rfl
    cases hreads with
    | function current peek reads close arrow readsResult single fits notVoid => exact notVoid
  obtain ⟨rfl, rfl⟩ := Prod.mk.inj (parseType_reads hreads hparse)
  refine ⟨rfl, rfl, decomposes_spell hval type hvoid, ?_⟩
  intro tokens' last' type' hreads' fuel' nesting' name' rest' hparse' hcomposite between
  obtain ⟨rfl, rfl⟩ := Prod.mk.inj (parseType_reads hreads' hparse')
  obtain ⟨-, hnext⟩ := @keeps_fromName (TypePool.empty.run requests) (spell type)
  obtain ⟨hbef, hlater⟩ :=
    TypePool.run_keeps between (typeFromName (TypePool.empty.run requests) (spell type)).1
  exact fromName_eq_iff hval (hlater (hnext hval)) hbef hcomposite

section Inputs

def typeToken (type : TokenType) (literal : String) : Token := ⟨type, bytes literal, 1, 1, none, false⟩

/-- `qualifier.Item`. -/
def itemTokens (qualifier : String) : List Token :=
  [typeToken .identifier qualifier, typeToken .dot ".", typeToken .identifier "Item"]

/-- `[[a:b]:c]`. -/
def nestedMapTokens : List Token :=
  [typeToken .leftBracket "[", typeToken .leftBracket "[", typeToken .identifier "a",
    typeToken .colon ":", typeToken .identifier "b", typeToken .rightBracket "]", typeToken .colon ":",
    typeToken .identifier "c", typeToken .rightBracket "]"]

/-- `[i64,3]`. -/
def fixedArrayTokens : List Token :=
  [typeToken .leftBracket "[", typeToken .identifier "i64", typeToken .comma ",",
    typeToken .integerLiteral "3", typeToken .rightBracket "]"]

/-- `[i64]`. -/
def arrayTokens : List Token :=
  [typeToken .leftBracket "[", typeToken .identifier "i64", typeToken .rightBracket "]"]

/-- The names `a`, `b`, `c`, `3`, `a.Item` and `b.Item`. -/
def nameA : TypeName := ⟨bytes "a", by decide, by decide⟩
def nameB : TypeName := ⟨bytes "b", by decide, by decide⟩
def nameC : TypeName := ⟨bytes "c", by decide, by decide⟩
def nameThree : TypeName := ⟨bytes "3", by decide, by decide⟩
def itemA : TypeName := ⟨bytes "a.Item", by decide, by decide⟩
def itemB : TypeName := ⟨bytes "b.Item", by decide, by decide⟩

theorem reads_itemA : ReadsType (itemTokens "a") (.name itemA) (itemTokens "a").tail.tail :=
  .name (.qualified rfl rfl rfl rfl) rfl

theorem reads_itemB : ReadsType (itemTokens "b") (.name itemB) (itemTokens "b").tail.tail :=
  .name (.qualified rfl rfl rfl rfl) rfl

theorem reads_nestedMap : ReadsType nestedMapTokens
    (.map (.map (.name nameA) (.name nameB)) (.name nameC)) [typeToken .rightBracket "]"] :=
  .shorthandMap rfl
    (.shorthandMap rfl (.name (.simple rfl rfl (by decide)) rfl) rfl
      (.name (.simple rfl rfl (by decide)) rfl) rfl) rfl
    (.name (.simple rfl rfl (by decide)) rfl) rfl

theorem reads_fixedArray : ReadsType fixedArrayTokens (.fixedArray (.name nameI64) nameThree)
    [typeToken .rightBracket "]"] :=
  .fixedArray rfl (.name (.simple rfl rfl (by decide)) rfl) rfl (.inl rfl) rfl rfl

theorem reads_array : ReadsType arrayTokens (.array (.name nameI64)) [typeToken .rightBracket "]"] :=
  .array rfl (.name (.simple rfl rfl (by decide)) rfl) rfl

/-- `[i64,3]` and `[i64]` are one type, with the element `i64`. -/
theorem typeSpelling_spec_array :
    Decomposes TypePool.empty (bytes "[i64,3]") (.fixedArray (.name nameI64) nameThree) ∧
      (typeFromName TypePool.empty (bytes "[i64,3]")).2 =
        (typeFromName (typeFromName TypePool.empty (bytes "[i64,3]")).1 (bytes "[i64]")).2 := by
  obtain ⟨-, -, hpts, hsame⟩ := @typeSpelling_spec _ _ _ reads_fixedArray 5 0 (bytes "[i64,3]")
    [typeToken .rightBracket "]"] (by decide) []
  have hprs : parseComplexType 5 0 arrayTokens = some (bytes "[i64]", [typeToken .rightBracket "]"]) := by
    decide
  exact ⟨hpts, (hsame reads_array hprs (.inl rfl) []).mpr rfl⟩

/-- Names of one type in two modules are one type, and the first `:` of a map ends its key. -/
theorem typeSpelling_exceptions :
    (¬ ∀ (tokens tokens' last last' : List Token) (type type' : WrittenType)
      (fuel fuel' nesting nesting' : ℕ) (name name' : Text) (rest rest' : List Token),
      ReadsType tokens type last → ReadsType tokens' type' last' →
        parseComplexType fuel nesting tokens = some (name, rest) →
          parseComplexType fuel' nesting' tokens' = some (name', rest') →
            ((typeFromName TypePool.empty name).2 =
              (typeFromName (typeFromName TypePool.empty name).1 name').2 ↔
                spell (withoutSize type) = spell (withoutSize type'))) ∧
    ¬ ∀ (tokens last : List Token) (key value : WrittenType) (fuel nesting : ℕ) (name : Text)
      (rest : List Token) (type : GrayType), ReadsType tokens (.map key value) last →
        parseComplexType fuel nesting tokens = some (name, rest) →
          typeOf TypePool.empty name = some type → type.keyType = some (spell key) := by
  constructor
  · intro h
    have hprs : ∀ qualifier ∈ ["a", "b"], parseComplexType 2 0 (itemTokens qualifier) =
        some (bytes (qualifier ++ ".Item"), [typeToken .identifier "Item"]) := by decide
    have hiff := h _ _ _ _ _ _ 2 2 0 0 (bytes "a.Item") (bytes "b.Item") _ _ reads_itemA reads_itemB
      (hprs "a" (by simp)) (hprs "b" (by simp))
    have hspell : bytes "a.Item" = bytes "b.Item" := hiff.mp (by decide)
    revert hspell
    decide
  · intro h
    have hprs : parseComplexType 9 0 nestedMapTokens =
        some (bytes "map[map[a:b]:c]", [typeToken .rightBracket "]"]) := by decide
    have hkey := h _ _ _ _ 9 0 _ _ (mapType (bytes "map[map[a:b]:c]")) reads_nestedMap hprs rfl
    revert hkey
    decide

end Inputs

end Grayscale
