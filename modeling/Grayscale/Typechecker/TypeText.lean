import Grayscale.Library.DepthScan
import Grayscale.Util.Bytes

/-!
# Type spellings

The checker passes types around as the texts that the parser builds, without spaces, and takes them
apart again by their brackets.
-/

namespace Grayscale

open List

/-! ### The grammar of types -/

/-- A byte of a type name, which may be qualified. -/
def isTypeNameByte (c : UInt8) : Bool := isalnum c || c == byte '_' || c == byte '.'

/-- A name in a type: `Name`, `mod.Name`, or the size of an array. -/
structure TypeName where
  text : Text
  ne_nil : text ≠ []
  isName : text.all isTypeNameByte = true

/-- The names `i64` and `A`. -/
def nameI64 : TypeName := ⟨bytes "i64", by decide, by decide⟩
def nameUpperA : TypeName := ⟨bytes "A", by decide, by decide⟩

/-- A parameter of a function type, which `&` makes mutable. -/
structure TypeParameter (α : Type) where
  isMutable : Bool
  type : α

/-- The types of the grammar: `Name`, `^T`, `[T]`, `[T,N]`, `map[K:V]`, `func(P,...)`,
`func(P,...)->R` and `func(P,...)->(R,...)`. -/
inductive WrittenType
  | name (n : TypeName)
  | pointer (pointee : WrittenType)
  | array (element : WrittenType)
  | fixedArray (element : WrittenType) (size : TypeName)
  | map (key value : WrittenType)
  | procedure (parameters : List (TypeParameter WrittenType))
  | function (parameters : List (TypeParameter WrittenType)) (result : WrittenType)
  | functionList (parameters : List (TypeParameter WrittenType)) (results : List WrittenType)

mutual

def spell : WrittenType → Text
  | .name n => n.text
  | .pointer pointee => byte '^' :: spell pointee
  | .array element => byte '[' :: (spell element ++ [byte ']'])
  | .fixedArray element size => byte '[' :: (spell element ++ byte ',' :: (size.text ++ [byte ']']))
  | .map key value => bytes "map[" ++ (spell key ++ byte ':' :: (spell value ++ [byte ']']))
  | .procedure parameters => bytes "func(" ++ (spellParameters parameters ++ [byte ')'])
  | .function parameters result =>
    bytes "func(" ++ (spellParameters parameters ++ byte ')' :: (bytes "->" ++ spell result))
  | .functionList parameters results =>
    bytes "func(" ++ (spellParameters parameters ++
      byte ')' :: (bytes "->" ++ byte '(' :: (spellResults results ++ [byte ')'])))

def spellParameters : List (TypeParameter WrittenType) → Text
  | [] => []
  | ⟨isMutable, type⟩ :: l =>
    (if isMutable then [byte '&'] else []) ++ spell type ++
      (if l.isEmpty then [] else byte ',' :: spellParameters l)

def spellResults : List WrittenType → Text
  | [] => []
  | type :: l => spell type ++ (if l.isEmpty then [] else byte ',' :: spellResults l)

end

/-! ### Taking a spelling apart -/

/-- The step of `alias_top_level_separator`: the depth of brackets and parentheses. -/
def separatorStep (separator : UInt8) (depth : ℤ) (c : UInt8) : Option ℤ :=
  if c = byte '[' ∨ c = byte '(' then some (depth + 1)
  else if c = byte ']' ∨ c = byte ')' then some (depth - 1)
  else if c = separator ∧ depth = 0 then none
  else some depth

/-- `alias_top_level_separator`: the texts before and after the first separator that no bracket
encloses. -/
def aliasTopLevelSeparator (spelling : Text) (separator : UInt8) : Option (Text × Text) :=
  scan (separatorStep separator) 0 spelling

/-- The text between the first bytes and the last one, which closes a bracket, if a buffer of 256
bytes holds it. -/
def bracketedInner (name : Text) (start : ℕ) : Option Text :=
  if name.length > start + 1 ∧ name.getLast? = some (byte ']') then
    let inner := (name.drop start).take (name.length - (start + 1))
    if inner.length < 256 then some inner else none
  else none

/-- The element of an array spelling and what follows it: a size that a buffer of 64 bytes holds, or
nothing. -/
def arrayParts (name : Text) : Option (Text × Text) := (bracketedInner name 1).map fun inner =>
    match aliasTopLevelSeparator inner (byte ',') with
    | some (element, size) => (element, (byte ',' :: size).take 63)
    | none => (inner, [])

/-- The key and the value of a map spelling. -/
def mapParts (name : Text) : Option (Text × Text) :=
  (bracketedInner name 4).bind fun inner => aliasTopLevelSeparator inner (byte ':')

/-- The step of the search for the parenthesis that closes a parameter list. -/
def parenthesisStep (depth : ℤ) (c : UInt8) : Option ℤ :=
  if c = byte '(' then some (depth + 1)
  else if c = byte ')' then if depth - 1 = 0 then none else some (depth - 1)
  else some depth

/-- The parameter list of a function spelling, if a buffer of 256 bytes holds it, and the text of
the return type. -/
def functionParts (name : Text) : Option (Text × Option Text) :=
  match scan parenthesisStep 0 (name.drop 4) with
  | none => none
  | some (beforeClose, tail) =>
    if (beforeClose.drop 1).length < 256 then
      some (beforeClose.drop 1,
        if (bytes "->").isPrefixOf tail then some (tail.drop 2) else none)
    else none

/-- The segments of a list of types, up to the first one that is empty. -/
def typeListSegments : ℕ → Text → List Text
  | 0, _ => []
  | fuel + 1, list =>
    if list.isEmpty then []
    else match aliasTopLevelSeparator list (byte ',') with
      | some (segment, rest) => segment :: typeListSegments fuel rest
      | none => [list]

def segmentType (segment : Text) : Text :=
  if segment.head? = some (byte '&') then segment.drop 1 else segment

/-! ### Balanced spellings -/

/-- The bytes that take a spelling apart. -/
def isBracketByte (c : UInt8) : Bool :=
  c == byte '[' || c == byte ']' || c == byte '(' || c == byte ')' || c == byte ',' || c == byte ':'

/-- What a step does with the bytes of a spelling, at the depths outside of its brackets and at
those inside. -/
structure Nests (step : ℤ → UInt8 → Option ℤ) (outer inner : ℤ → Prop) : Prop where
  outer_of_inner : ∀ d, inner d → outer d
  plain : ∀ d c, outer d → isBracketByte c = false → step d c = some d
  separator : ∀ d c, inner d → c = byte ',' ∨ c = byte ':' → step d c = some d
  square : ∀ d, outer d → ∃ d', inner d' ∧ step d (byte '[') = some d' ∧ step d' (byte ']') = some d
  round : ∀ d, outer d → ∃ d', inner d' ∧ step d (byte '(') = some d' ∧ step d' (byte ')') = some d

theorem isBracketByte_of_isTypeNameByte {c : UInt8} (h : isTypeNameByte c = true) :
    isBracketByte c = false := by
  rw [← Bool.not_eq_true]
  intro hbra
  simp only [isBracketByte, Bool.or_eq_true, beq_iff_eq] at hbra
  rcases hbra with ((((rfl | rfl) | rfl) | rfl) | rfl) | rfl <;> revert h <;> decide

variable {separator : UInt8}

theorem nests_separatorStep (h : separator = byte ',' ∨ separator = byte ':') :
    Nests (separatorStep separator) (0 ≤ ·) (1 ≤ ·) where
  outer_of_inner d hd := by omega
  plain d c _ hc := by
    simp only [isBracketByte, Bool.or_eq_false_iff, beq_eq_false_iff_ne] at hc
    obtain ⟨⟨⟨⟨⟨h1, h2⟩, h3⟩, h4⟩, h5⟩, h6⟩ := hc
    have hne : c ≠ separator := by
      rcases h with rfl | rfl
      · exact h5
      · exact h6
    simp only [separatorStep, h1, h2, h3, h4, hne, or_self, if_false, false_and]
  separator d c hd hc := by
    have hd0 : d ≠ 0 := by omega
    have hsquare : ¬ (c = byte '[' ∨ c = byte '(') := by rcases hc with rfl | rfl <;> decide
    have hrnd : ¬ (c = byte ']' ∨ c = byte ')') := by rcases hc with rfl | rfl <;> decide
    rw [separatorStep, if_neg hsquare, if_neg hrnd, if_neg (fun hstop => hd0 hstop.2)]
  square d hd := by
    refine ⟨d + 1, by omega, rfl, ?_⟩
    rw [separatorStep, if_neg (by decide), if_pos (by decide), Int.add_sub_cancel]
  round d hd := by
    refine ⟨d + 1, by omega, rfl, ?_⟩
    rw [separatorStep, if_neg (by decide), if_pos (by decide), Int.add_sub_cancel]

theorem nests_parenthesisStep : Nests parenthesisStep (1 ≤ ·) (1 ≤ ·) where
  outer_of_inner d hd := hd
  plain d c _ hc := by
    simp only [isBracketByte, Bool.or_eq_false_iff, beq_eq_false_iff_ne] at hc
    obtain ⟨⟨⟨⟨⟨-, -⟩, h3⟩, h4⟩, -⟩, -⟩ := hc
    rw [parenthesisStep, if_neg h3, if_neg h4]
  separator d c _ hc := by
    rcases hc with rfl | rfl <;> rfl
  square d hd := ⟨d, hd, rfl, rfl⟩
  round d hd := by
    refine ⟨d + 1, by omega, rfl, ?_⟩
    rw [parenthesisStep, if_neg (by decide), if_pos rfl, Int.add_sub_cancel, if_neg (by omega)]
section Nests

variable {step : ℤ → UInt8 → Option ℤ} {outer inner : ℤ → Prop} (h : Nests step outer inner)

include h

variable {l : Text}

theorem Nests.walk_plain (hl : ∀ c ∈ l, isBracketByte c = false) {d : ℤ}
    (hd : outer d) : walk step d l = some d := by
  induction l with
  | nil => rfl
  | cons c l ih =>
    rw [walk, h.plain d c hd (hl c (mem_cons_self ..)), Option.bind_some]
    exact ih fun c hc => hl c (mem_cons_of_mem _ hc)

theorem Nests.walk_name (n : TypeName) {d : ℤ} (hd : outer d) : walk step d n.text = some d :=
  h.walk_plain (fun c hc => isBracketByte_of_isTypeNameByte (all_eq_true.mp n.isName c hc)) hd

theorem Nests.walk_square (hl : ∀ d, inner d → walk step d l = some d) {d : ℤ}
    (hd : outer d) : walk step d (byte '[' :: (l ++ [byte ']'])) = some d := by
  obtain ⟨d', hd', hopen, hcl⟩ := h.square d hd
  rw [walk, hopen, Option.bind_some, walk_append (hl d' hd'), walk, hcl]
  rfl

theorem Nests.walk_round (hl : ∀ d, inner d → walk step d l = some d) {d : ℤ}
    (hd : outer d) (l' : Text) :
    walk step d (byte '(' :: (l ++ byte ')' :: l')) = walk step d l' := by
  obtain ⟨d', hd', hopen, hcl⟩ := h.round d hd
  rw [walk, hopen, Option.bind_some, walk_append (hl d' hd'), walk, hcl]
  rfl

theorem Nests.walk_separated {l l' : Text} {c : UInt8} (hc : c = byte ',' ∨ c = byte ':') {d : ℤ}
    (hd : inner d) (hl : walk step d l = some d) (hl' : walk step d l' = some d) :
    walk step d (l ++ c :: l') = some d := by
  rw [walk_append hl, walk, h.separator d c hd hc]
  exact hl'

theorem Nests.walk_func {d : ℤ} (hd : outer d) (l : Text) :
    walk step d (bytes "func(" ++ l) = walk step d (byte '(' :: l) := by
  have hpl : ∀ c ∈ bytes "func", isBracketByte c = false := fun c hc => Bool.not_eq_true' _ |>.mp
      (all_eq_true.mp (show (bytes "func").all (fun c => !isBracketByte c) = true by decide) c hc)
  exact walk_append (h.walk_plain hpl hd) (byte '(' :: l)

theorem Nests.walk_arrow {d : ℤ} (hd : outer d) (l : Text) :
    walk step d (bytes "->" ++ l) = walk step d l := by
  have hpl : ∀ c ∈ bytes "->", isBracketByte c = false := fun c hc => Bool.not_eq_true' _ |>.mp
      (all_eq_true.mp (show (bytes "->").all (fun c => !isBracketByte c) = true by decide) c hc)
  exact walk_append (h.walk_plain hpl hd) l

mutual

theorem Nests.walk_spell : ∀ (type : WrittenType) (d : ℤ), outer d → walk step d (spell type) = some d
  | .name n, d, hd => h.walk_name n hd
  | .pointer pointee, d, hd => by
    rw [spell, walk, h.plain d _ hd rfl, Option.bind_some]
    exact walk_spell pointee d hd
  | .array element, d, hd => by
    rw [spell]
    exact h.walk_square (fun d' hd' => walk_spell element d' (h.outer_of_inner d' hd')) hd
  | .fixedArray element size, d, hd => by
    rw [spell, show spell element ++ byte ',' :: (size.text ++ [byte ']']) =
      (spell element ++ byte ',' :: size.text) ++ [byte ']'] by simp]
    refine h.walk_square (fun d' hd' => ?_) hd
    have hout := h.outer_of_inner d' hd'
    exact h.walk_separated (.inl rfl) hd' (walk_spell element d' hout) (h.walk_name size hout)
  | .map key value, d, hd => by
    have hpl : ∀ c ∈ bytes "map", isBracketByte c = false := fun c hc => Bool.not_eq_true' _ |>.mp
        (all_eq_true.mp (show (bytes "map").all (fun c => !isBracketByte c) = true by decide) c hc)
    rw [spell, show bytes "map[" ++ (spell key ++ byte ':' :: (spell value ++ [byte ']'])) =
      bytes "map" ++ byte '[' :: ((spell key ++ byte ':' :: spell value) ++ [byte ']']) by
        simp; rfl, walk_append (h.walk_plain hpl hd)]
    refine h.walk_square (fun d' hd' => ?_) hd
    have hout := h.outer_of_inner d' hd'
    exact h.walk_separated (.inr rfl) hd' (walk_spell key d' hout) (walk_spell value d' hout)
  | .procedure parameters, d, hd => by
    rw [spell, h.walk_func hd, h.walk_round (walk_parameters parameters) hd]
    rfl
  | .function parameters result, d, hd => by
    rw [spell, h.walk_func hd, h.walk_round (walk_parameters parameters) hd, h.walk_arrow hd]
    exact walk_spell result d hd
  | .functionList parameters results, d, hd => by
    rw [spell, h.walk_func hd, h.walk_round (walk_parameters parameters) hd, h.walk_arrow hd,
      h.walk_round (walk_results results) hd]
    rfl

theorem Nests.walk_parameters : ∀ (parameters : List (TypeParameter WrittenType)) (d : ℤ),
    inner d → walk step d (spellParameters parameters) = some d
  | [], d, _ => rfl
  | ⟨isMutable, type⟩ :: l, d, hd => by
    have hout := h.outer_of_inner d hd
    have hampersand : walk step d (if isMutable then [byte '&'] else []) = some d := by
      split_ifs
      · rw [walk, h.plain d _ hout rfl]
        rfl
      · rfl
    have hfst : walk step d ((if isMutable then [byte '&'] else []) ++ spell type) = some d := by
      rw [walk_append hampersand]
      exact walk_spell type d hout
    rw [spellParameters]
    split_ifs at hfst ⊢ <;> first
      | rw [append_nil]; exact hfst
      | exact h.walk_separated (.inl rfl) hd hfst (walk_parameters l d hd)

theorem Nests.walk_results : ∀ (results : List WrittenType) (d : ℤ),
    inner d → walk step d (spellResults results) = some d
  | [], d, _ => rfl
  | type :: l, d, hd => by
    have hfst := walk_spell type d (h.outer_of_inner d hd)
    rw [spellResults]
    split_ifs
    · rw [append_nil]
      exact hfst
    · exact h.walk_separated (.inl rfl) hd hfst (walk_results l d hd)

end

end Nests
/-! ### The slots of a spelling -/

theorem TypeName.exists_cons (n : TypeName) : ∃ c l, n.text = c :: l ∧ isTypeNameByte c = true := by
  obtain ⟨c, l, hcons⟩ := exists_cons_of_ne_nil n.ne_nil
  have hname := n.isName
  rw [hcons, all_cons, Bool.and_eq_true] at hname
  exact ⟨c, l, hcons, hname.1⟩

theorem TypeName.not_mem (n : TypeName) {c : UInt8} (hc : isTypeNameByte c = false) :
    c ∉ n.text := by
  intro hmem
  rw [all_eq_true.mp n.isName c hmem] at hc
  cases hc

variable (type : WrittenType)

theorem spell_ne_nil : spell type ≠ [] := by
  cases type with
  | name n => exact n.ne_nil
  | pointer | array | fixedArray => exact cons_ne_nil _ _
  | map | procedure | function | functionList => exact fun h => by cases h

theorem spell_head : (spell type).head? ≠ some (byte '&') := by
  cases type with
  | name n =>
    obtain ⟨c, l, hcons, hc⟩ := n.exists_cons
    rw [spell, hcons, head?_cons]
    intro h
    rw [Option.some.inj h] at hc
    revert hc
    decide
  | pointer | array | fixedArray =>
    rw [spell, head?_cons]
    decide
  | map | procedure | function | functionList => exact fun h => by cases h

theorem inner_eq {start l : Text} (hl : l ≠ []) :
    bracketedInner (start ++ (l ++ [byte ']'])) start.length =
      if l.length < 256 then some l else none := by
  have hlen : (start ++ (l ++ [byte ']'])).length = start.length + l.length + 1 := by
    simp only [length_append, length_singleton]
    omega
  have hpos := length_pos_iff.mpr hl
  unfold bracketedInner
  rw [hlen, if_pos, drop_left,
    show start.length + l.length + 1 - (start.length + 1) = l.length by omega, take_left]
  refine ⟨by omega, ?_⟩
  rw [← append_assoc, getLast?_concat]

theorem separator_comma : byte ',' = byte ',' ∨ byte ',' = byte ':' := .inl rfl

theorem topSeparator_spell
    (h : separator = byte ',' ∨ separator = byte ':') :
    aliasTopLevelSeparator (spell type) separator = none :=
  scan_eq_none ((nests_separatorStep h).walk_spell type 0 (Int.le_refl 0))

theorem separatorStep_stop
    (h : separator = byte ',' ∨ separator = byte ':') : separatorStep separator 0 separator = none := by
  rcases h with rfl | rfl <;> rfl

theorem topSeparator_spell_append
    (h : separator = byte ',' ∨ separator = byte ':') (rest : Text) :
    aliasTopLevelSeparator (spell type ++ separator :: rest) separator = some (spell type, rest) :=
  scan_stop ((nests_separatorStep h).walk_spell type 0 (Int.le_refl 0)) (separatorStep_stop h) rest

theorem arrayParts_array {element : WrittenType} {parts : Text × Text}
    (h : arrayParts (spell (.array element)) = some parts) : parts.1 = spell element := by
  obtain ⟨inner, hinn, rfl⟩ := Option.map_eq_some_iff.mp h
  have heq := @inner_eq [byte '['] _ (spell_ne_nil element)
  rw [spell] at hinn
  rw [singleton_append, length_singleton, hinn] at heq
  split_ifs at heq
  cases heq
  rw [topSeparator_spell element separator_comma]

theorem arrayParts_fixedArray {element : WrittenType} {size : TypeName} {parts : Text × Text}
    (h : arrayParts (spell (.fixedArray element size)) = some parts) : parts.1 = spell element := by
  obtain ⟨inner, hinn, rfl⟩ := Option.map_eq_some_iff.mp h
  have heq := @inner_eq [byte '['] (spell element ++ byte ',' :: size.text)
    (by simp)
  rw [spell] at hinn
  rw [singleton_append, length_singleton, append_assoc, cons_append, hinn]
    at heq
  split_ifs at heq
  cases heq
  rw [topSeparator_spell_append element separator_comma]

theorem mapParts_map {key value : WrittenType} {parts : Text × Text}
    (h : mapParts (spell (.map key value)) = some parts) : parts = (spell key, spell value) := by
  obtain ⟨inner, hinn, hpts⟩ := Option.bind_eq_some_iff.mp h
  have heq := @inner_eq (bytes "map[")
    (spell key ++ byte ':' :: spell value) (by simp)
  rw [spell] at hinn
  rw [append_assoc, cons_append, show (bytes "map[").length = 4 from rfl, hinn] at heq
  split_ifs at heq
  cases heq
  rw [topSeparator_spell_append key (.inr rfl)] at hpts
  exact (Option.some.inj hpts).symm

theorem scan_parenthesisStep_parameters (parameters : List (TypeParameter WrittenType)) (tail : Text) :
    scan parenthesisStep 0 ((bytes "func(" ++ (spellParameters parameters ++ byte ')' :: tail)).drop 4) =
      some (byte '(' :: spellParameters parameters, tail) := by
  have hst : walk parenthesisStep 0 (byte '(' :: spellParameters parameters) = some 1 := by
    rw [walk]
    exact nests_parenthesisStep.walk_parameters parameters 1 (Int.le_refl 1)
  exact scan_stop hst rfl tail

theorem functionParts_eq {parameters : List (TypeParameter WrittenType)} {tail : Text}
    {parts : Text × Option Text}
    (h : functionParts (bytes "func(" ++ (spellParameters parameters ++ byte ')' :: tail)) =
      some parts) : parts = (spellParameters parameters,
      if (bytes "->").isPrefixOf tail then some (tail.drop 2) else none) := by
  unfold functionParts at h
  rw [scan_parenthesisStep_parameters] at h
  change (if (spellParameters parameters).length < 256 then some (spellParameters parameters, _)
    else none) = some parts at h
  have hlt : (spellParameters parameters).length < 256 := by
    by_contra hge
    rw [if_neg hge] at h
    cases h
  rw [if_pos hlt] at h
  exact (Option.some.inj h).symm

def spellParameter (parameter : TypeParameter WrittenType) : Text :=
  (if parameter.isMutable then [byte '&'] else []) ++ spell parameter.type

theorem segmentType_parameter (parameter : TypeParameter WrittenType) :
    segmentType (spellParameter parameter) = spell parameter.type := by
  unfold segmentType spellParameter
  cases parameter.isMutable with
  | true => rfl
  | false =>
    change (if (spell parameter.type).head? = some (byte '&') then _ else spell parameter.type) = _
    rw [if_neg (spell_head _)]

theorem walk_parameter (parameter : TypeParameter WrittenType) :
    walk (separatorStep (byte ',')) 0 (spellParameter parameter) = some 0 := by
  have hspell := (nests_separatorStep separator_comma).walk_spell parameter.type 0 (Int.le_refl 0)
  unfold spellParameter
  cases parameter.isMutable with
  | true => exact hspell
  | false => exact hspell

theorem typeListSegments_parameters (parameters : List (TypeParameter WrittenType))
    {fuel : ℕ} (hfuel : parameters.length ≤ fuel) :
    typeListSegments fuel (spellParameters parameters) = parameters.map spellParameter := by
  induction parameters generalizing fuel with
  | nil =>
    cases fuel with
    | zero => rfl
    | succ fuel => rfl
  | cons parameter l ih =>
    obtain ⟨fuel, rfl⟩ : ∃ n, fuel = n + 1 := ⟨fuel - 1, by rw [length_cons] at hfuel; omega⟩
    rw [length_cons, Nat.add_le_add_iff_right] at hfuel
    obtain ⟨isMutable, type⟩ := parameter
    have hwalk := walk_parameter ⟨isMutable, type⟩
    have hne : ∀ rest, (spellParameter ⟨isMutable, type⟩ ++ rest).isEmpty = false := by
      intro rest
      simp [spellParameter, spell_ne_nil]
    rw [spellParameters, map_cons]
    change typeListSegments (fuel + 1) (spellParameter ⟨isMutable, type⟩ ++ _) = _
    rw [typeListSegments, hne, if_neg Bool.false_ne_true]
    cases l with
    | nil =>
      rw [isEmpty_nil, if_pos rfl, append_nil, aliasTopLevelSeparator, scan_eq_none hwalk]
      rfl
    | cons parameter' l =>
      rw [isEmpty_cons, if_neg Bool.false_ne_true, aliasTopLevelSeparator, scan_stop hwalk rfl]
      dsimp only
      rw [ih hfuel]

end Grayscale
