import Grayscale.Codegen.ZeroValues

/-!
# The emitters of zero values agree

What an emitter emits for a place and the zero value of the place stay related from step to step, as
long as names are read as they are meant and nothing but zero is left beyond the depth at which the
emitters stop.
-/

namespace Grayscale.ZeroValues

variable {names : TypeNames}

/-! ### Names -/

variable {file file' name : Text}

theorem meantStruct_congr
    (h : names.resolveType file name = names.resolveType file' name) :
    names.meantStruct file name = names.meantStruct file' name := by
  rw [TypeNames.meantStruct, TypeNames.meantStruct, h]

theorem findStructDeclaration_congr
    (h : names.resolveType file name = names.resolveType file' name) :
    names.findStructDeclaration file name = names.findStructDeclaration file' name := by
  rw [TypeNames.findStructDeclaration, TypeNames.findStructDeclaration, meantStruct_congr h]

theorem enumLeaf_congr
    (h : names.resolveType file name = names.resolveType file' name) :
    enumLeaf names file name = enumLeaf names file' name := by
  rw [enumLeaf, enumLeaf, h]

theorem meantStruct_of_enumLeaf {file name : Text} {l : Leaf}
    (h : enumLeaf names file name = some l) : names.meantStruct file name = none := by
  rw [TypeNames.meantStruct]
  split_ifs with hstruct
  · rw [enumLeaf, names.enum_not_struct _ hstruct] at h
    cases h
  · rfl

/-! ### Nesting -/

theorem Nested.head {S S' S'' : Text} {d : ℕ} (hinn : FieldStruct names S S')
    (h : Nested names S' S'' d) : Nested names S S'' (d + 1) := by
  induction h with
  | self => exact .field .self hinn
  | field h hinn' ih => exact .field ih hinn'

theorem Holds.trans {S S' S'' : Text} (h : Holds names S S') (h' : Holds names S' S'') :
    Holds names S S'' := by
  induction h' with
  | self => exact h
  | field h' hinn ih => exact .field ih hinn
  | slot h' hinn ih => exact .slot ih hinn

/-! ### Zero -/

theorem isZero_zero : IsZero names .zero := by
  intro path
  induction path with
  | nil => rfl
  | cons step path ih => exact ih

variable {m : Meant}

theorem IsZero.inside (h : IsZero names m) (step : Step) : IsZero names (m.inside names step) :=
  fun path => h (step :: path)

variable {key : Text}

theorem isZero_struct
    (h : ∀ field ∈ fieldsOf names key, IsZero names (meantField names (names.home key) field)) :
    IsZero names (.struct key) := by
  intro path
  cases path with
  | nil => rfl
  | cons step path =>
    cases step with
    | slot j => exact isZero_zero path
    | field i =>
      change ((Meant.struct key).inside names (.field i)).at names path = .zero
      rw [Meant.inside]
      cases hfld : ((names.structFields key).getD [])[i]? with
      | none => exact isZero_zero path
      | some field => exact h field (List.mem_of_getElem? hfld) path

/-! ### The conditions, from a struct on -/

/-- A struct can be unfolded at a depth. -/
structure Good (names : TypeNames) (key : Text) (depth : ℕ) : Prop where
  reads : ∀ S, Holds names key S → ∀ field ∈ fieldsOf names S, field.default = none →
    ReadsType names (names.home S) field.type
  slots : ∀ S, Holds names key S → ∀ S' d, Nested names S S' d → 8 ≤ d → IsZero names (.struct S')
  here : ∀ S d, Nested names key S d → 8 < depth + d → IsZero names (.struct S)

theorem Good.field {key inner : Text} {depth : ℕ} (h : Good names key depth)
    (hinn : FieldStruct names key inner) : Good names inner (depth + 1) where
  reads S hS := h.reads S (Holds.trans (.field .self hinn) hS)
  slots S hS := h.slots S (Holds.trans (.field .self hinn) hS)
  here S d hS hd := h.here S (d + 1) (hS.head hinn) (by omega)

theorem Good.slot {key inner : Text} {depth : ℕ} (h : Good names key depth)
    (hinn : SlotStruct names key inner) : Good names inner 1 where
  reads S hS := h.reads S (Holds.trans (.slot .self hinn) hS)
  slots S hS := h.slots S (Holds.trans (.slot .self hinn) hS)
  here S d hS hd := h.slots inner (.slot .self hinn) S d hS (by omega)

/-- A struct and the ones nested in it have fields that are emitted alike in the file. -/
def SameFields (names : TypeNames) (file key : Text) : Prop :=
  ∀ S d, Nested names key S d → ∀ field ∈ fieldsOf names S,
    SameField names file (names.home S) field

theorem SameFields.field {file key inner : Text} (h : SameFields names file key)
    (hinn : FieldStruct names key inner) : SameFields names file inner :=
  fun S d hS => h S (d + 1) (hS.head hinn)

/-- The slots of an array emitted in one file are those written in another one. -/
def GoodElement (names : TypeNames) (file file' : Text) (element : FieldType) : Prop :=
  SameType names file file' element ∧ ReadsElement names file' element ∧
    ∀ name, element.innermost = .named name →
      ∀ key, names.meantStruct file' name = some key → Good names key 1

/-! ### Simulation -/

/-- The code emitted for a place, and the zero value of the place. -/
inductive Sim (names : TypeNames) : Code → Meant → Prop
  | zero {m : Meant} (h : IsZero names m) : Sim names .zero m
  | leaf (l : Leaf) : Sim names (.leaf l) (.leaf l)
  | default (code : Text) : Sim names (.default code) (.default code)
  | slots {file file' written : Text} {element : FieldType} (size : ℕ)
    (htype : names.cType file written = names.cType file' written)
    (helement : GoodElement names file file' element) :
    Sim names (.slots file written element size) (.slots file' written element size)
  | literal {file name key : Text} {depth : ℕ}
    (hfound : names.findStructDeclaration file name = some key) (h : Good names key depth) :
    Sim names (.literal file name depth) (.struct key)
  | missing {file name : Text} {depth : ℕ} {m : Meant}
    (hfound : names.findStructDeclaration file name = none) (h : IsZero names m) :
    Sim names (.literal file name depth) m
  | initializer {file key : Text} {depth : ℕ} (h : Good names key depth)
    (hsame : SameFields names file key) : Sim names (.initializer file key depth) (.struct key)

variable {c : Code}

theorem Sim.leafAt_eq (h : Sim names c m) : c.leafAt names = m.leafAt names := by
  cases h with
  | zero h => exact (h []).symm
  | leaf l => rfl
  | default code => rfl
  | slots size htype helem => rw [Code.leafAt, Meant.leafAt, htype]
  | literal hfnd h => rfl
  | missing hfnd h => exact (h []).symm
  | initializer h hsame => rfl

theorem sim_element {file file' : Text} {element : FieldType}
    (h : GoodElement names file file' element) :
    Sim names (emitElementZeroValue names file element) (meantType names file' element) := by
  obtain ⟨hsame, hrd, hgood⟩ := h
  cases element with
  | flat => exact .zero isZero_zero
  | array written => exact hrd.elim
  | map written =>
    rw [emitElementZeroValue, meantType, show names.cType file written = _ from hsame]
    exact .leaf _
  | fixedArray written element size => exact .slots size hsame.1 ⟨hsame.2, hrd, hgood⟩
  | named name =>
    have hfnd := (findStructDeclaration_congr hsame).trans hrd
    rw [emitElementZeroValue, meantType, hfnd, enumLeaf_congr hsame]
    cases hmeant : names.meantStruct file' name with
    | some key => exact .literal (hfnd.trans hmeant) (hgood name rfl key hmeant)
    | none =>
      cases henum : enumLeaf names file' name with
      | some l => exact .leaf l
      | none => exact .zero isZero_zero

theorem Good.element {key written : Text} {depth : ℕ} (h : Good names key depth)
    {field : StructField} (hfld : field ∈ fieldsOf names key) (hdef : field.default = none)
    {element : FieldType} {size : ℕ} (htype : field.type = .fixedArray written element size)
    {file : Text} (hsame : SameType names file (names.home key) element) :
    GoodElement names file (names.home key) element := by
  have hrd := h.reads key .self field hfld hdef
  rw [htype] at hrd
  refine ⟨hsame, hrd, fun name hname inner hinn => ?_⟩
  exact h.slot ⟨field, hfld, hdef, written, element, size, name, htype, hname, hinn⟩

theorem sameType_refl (file : Text) (type : FieldType) : SameType names file file type := by
  induction type with
  | fixedArray written element size ih => exact ⟨rfl, ih⟩
  | flat => trivial
  | _ => rfl

theorem sim_literalField {depth : ℕ} (h : Good names key depth) {field : StructField}
    (hfld : field ∈ fieldsOf names key) :
    Sim names (emitStructFieldZeroDefault names (names.home key) depth field)
      (meantField names (names.home key) field) := by
  rw [emitStructFieldZeroDefault, meantField]
  cases hdef : field.default with
  | some expression => exact .default _
  | none =>
    have hrd := h.reads key .self field hfld hdef
    cases htype : field.type with
    | flat => exact .zero isZero_zero
    | map written => exact .leaf _
    | array written => exact .leaf _
    | fixedArray written element size =>
      exact .slots size rfl (h.element hfld hdef htype (sameType_refl _ _))
    | named name =>
      rw [htype] at hrd
      dsimp only [meantType]
      cases henum : enumLeaf names (names.home key) name with
      | some l =>
        rw [meantStruct_of_enumLeaf henum]
        exact .leaf l
      | none =>
        cases hmeant : names.meantStruct (names.home key) name with
        | some inner =>
          rw [hrd.2 (by rw [hmeant]; rfl)]
          exact .literal (hrd.1.trans hmeant)
            (h.field ⟨field, hfld, hdef, name, htype, hmeant⟩)
        | none =>
          dsimp only
          split_ifs with hkind
          · exact .missing (hrd.1.trans hmeant) isZero_zero
          · exact .zero isZero_zero

theorem isZero_of_not_needs {file : Text} {left : ℕ} {key : Text}
    (hnds : structNeedsNewInitializer names file left key = false)
    (hrd : ∀ S, Holds names key S → ∀ field ∈ fieldsOf names S, field.default = none →
      ReadsType names (names.home S) field.type)
    (hsame : ∀ S d, Nested names key S d → ∀ field ∈ fieldsOf names S, ∀ name,
      field.type = .named name → field.default = none →
        names.resolveType file name = names.resolveType (names.home S) name)
    (hdep : ∀ S d, Nested names key S d → left ≤ d → IsZero names (.struct S)) :
    IsZero names (.struct key) := by
  induction left generalizing key with
  | zero => exact hdep key 0 .self (Nat.le_refl 0)
  | succ left ih =>
    rw [structNeedsNewInitializer, List.any_eq_false] at hnds
    refine isZero_struct fun field hfld => ?_
    have hneedsField := hnds field hfld
    rw [fieldNeedsInitializer, Bool.or_eq_true, not_or] at hneedsField
    obtain ⟨hdef, htypeNeeds⟩ := hneedsField
    rw [Bool.not_eq_true, Option.isSome_eq_false_iff, Option.isNone_iff_eq_none] at hdef
    rw [meantField, hdef]
    dsimp only
    cases htype : field.type with
    | flat => exact isZero_zero
    | map written => exact absurd (by rw [htype]) htypeNeeds
    | array written => exact absurd (by rw [htype]) htypeNeeds
    | fixedArray written element size => exact absurd (by rw [htype]) htypeNeeds
    | named name =>
      have hres := hsame key 0 .self field hfld name htype hdef
      have hread := hrd key .self field hfld hdef
      rw [htype] at htypeNeeds hread
      dsimp only at htypeNeeds
      rw [Bool.or_eq_true, not_or, enumLeaf_congr hres, Bool.not_eq_true,
        Option.isSome_eq_false_iff, Option.isNone_iff_eq_none] at htypeNeeds
      rw [meantType, htypeNeeds.1]
      cases hmeant : names.meantStruct (names.home key) name with
      | none => exact isZero_zero
      | some inner =>
        have hinn : FieldStruct names key inner := ⟨field, hfld, hdef, name, htype, hmeant⟩
        have hfnd := (findStructDeclaration_congr hres).trans (hread.1.trans hmeant)
        have hneedsInner := htypeNeeds.2
        rw [hread.2 (by rw [hmeant]; rfl), hfnd, Bool.true_and, Option.any_some,
          Bool.not_eq_true] at hneedsInner
        refine ih hneedsInner (fun S hS => hrd S (Holds.trans (.field .self hinn) hS))
          (fun S d hS => hsame S (d + 1) (hS.head hinn))
          (fun S d hS hd => hdep S (d + 1) (hS.head hinn) (by omega))

theorem sim_newField {file key : Text} {depth : ℕ} (h : Good names key depth)
    (hsame : SameFields names file key) {field : StructField}
    (hfld : field ∈ fieldsOf names key) :
    Sim names (emitNewField names file depth field) (meantField names (names.home key) field) := by
  have hsameField := hsame key 0 .self field hfld
  rw [emitNewField, meantField]
  cases hdef : field.default with
  | some expression =>
    dsimp only
    rw [hsameField.1 expression hdef]
    exact .default _
  | none =>
    have hsameType := hsameField.2 hdef
    have hrd := h.reads key .self field hfld hdef
    cases htype : field.type with
    | flat => exact .zero isZero_zero
    | map written =>
      rw [htype] at hsameType
      dsimp only [meantType]
      rw [show names.cType file written = _ from hsameType]
      exact .leaf _
    | array written =>
      rw [htype] at hsameType
      dsimp only [meantType]
      rw [show names.cType file written = _ from hsameType]
      exact .leaf _
    | fixedArray written element size =>
      rw [htype] at hsameType
      exact .slots size hsameType.1 (h.element hfld hdef htype hsameType.2)
    | named name =>
      rw [htype] at hsameType hrd
      dsimp only [meantType]
      rw [enumLeaf_congr hsameType, findStructDeclaration_congr hsameType, hrd.1]
      cases henum : enumLeaf names (names.home key) name with
      | some l =>
        rw [meantStruct_of_enumLeaf henum]
        exact .leaf l
      | none =>
        cases hmeant : names.meantStruct (names.home key) name with
        | none =>
          dsimp only
          split_ifs with hkind
          · exact .zero isZero_zero
          · exact .zero isZero_zero
        | some inner =>
          have hinn : FieldStruct names key inner := ⟨field, hfld, hdef, name, htype, hmeant⟩
          rw [hrd.2 (by rw [hmeant]; rfl), if_pos rfl]
          dsimp only
          split_ifs with hnds
          · exact .initializer (h.field hinn) (hsame.field hinn)
          · -- nothing to initialize in the nested struct
            refine .zero (isZero_of_not_needs (Bool.not_eq_true _ ▸ hnds) (h.field hinn).reads
              (fun S d hS f hf n hn hnone => ?_) (fun S d hS hd => ?_))
            · have hsameInner := (hsame.field hinn S d hS f hf).2 hnone
              rwa [hn] at hsameInner
            · exact (h.field hinn).here S d hS (by omega)

theorem Sim.inside (h : Sim names c m) (step : Step) :
    Sim names (c.inside names step) (m.inside names step) := by
  cases h with
  | zero h => exact .zero (h.inside step)
  | leaf l => exact .zero isZero_zero
  | default code => exact .default code
  | slots size htype helem =>
    cases step with
    | field i => exact .zero isZero_zero
    | slot j =>
      rw [Code.inside, Meant.inside]
      split_ifs with hj
      · exact sim_element helem
      · exact .zero isZero_zero
  | @literal file name key depth hfnd h =>
    cases step with
    | slot j => exact .zero isZero_zero
    | field i =>
      rw [Code.inside, hfnd]
      dsimp only
      split_ifs with hdep
      · exact .zero ((h.here key 0 .self (by omega)).inside _)
      · rw [Meant.inside]
        cases hfld : ((names.structFields key).getD [])[i]? with
        | none => exact .zero isZero_zero
        | some field => exact sim_literalField h (List.mem_of_getElem? hfld)
  | missing hfnd h =>
    cases step with
    | slot j => exact .zero (h.inside _)
    | field i =>
      rw [Code.inside, hfnd]
      exact .zero (h.inside _)
  | @initializer file key depth h hsame =>
    cases step with
    | slot j => exact .zero isZero_zero
    | field i =>
      rw [Code.inside]
      split_ifs with hdep
      · exact .zero ((h.here key 0 .self (by omega)).inside _)
      · rw [Meant.inside]
        cases hfld : ((names.structFields key).getD [])[i]? with
        | none => exact .zero isZero_zero
        | some field => exact sim_newField h hsame (List.mem_of_getElem? hfld)

theorem Sim.at_eq (h : Sim names c m) (path : List Step) : c.at names path = m.at names path := by
  induction path generalizing c m with
  | nil => exact h.leafAt_eq
  | cons step path ih => exact ih (h.inside step)

/-! ### The emitters -/

theorem Unfolds.good {file name key : Text} (h : Unfolds names file name key) {depth : ℕ}
    (hdep : depth ≤ 1) : Good names key depth where
  reads := h.reads
  slots := h.depth
  here S d hS hd := h.depth key .self S d hS (by omega)

/-- `const Buffer struct { data [u8,64]  rows [i64]  limit i64 = 10 }` in a program of one file. -/
def bufferNames : TypeNames where
  resolveType _ name := name
  structFields key :=
    if key = bytes "Buffer" then
      some [⟨.fixedArray (bytes "u8") .flat 64, none⟩, ⟨.array (bytes "i64"), none⟩,
        ⟨.flat, some (bytes "10")⟩]
    else none
  enumDefaultVariant _ := none
  enum_not_struct _ _ := rfl
  isStructKind name := name = bytes "Buffer"
  home _ := bytes "main"
  cType _ written := written
  emitDefault _ expression := expression

theorem bufferNames_fields {field : StructField}
    (h : field ∈ fieldsOf bufferNames key) :
    field = ⟨.fixedArray (bytes "u8") .flat 64, none⟩ ∨ field = ⟨.array (bytes "i64"), none⟩ ∨
      field = ⟨.flat, some (bytes "10")⟩ := by
  simp only [fieldsOf, bufferNames] at h
  split_ifs at h with hkey
  · simpa using h
  · cases h

theorem bufferNames_unfolds :
    Unfolds bufferNames (bytes "main") (bytes "Buffer") (bytes "Buffer") := by
  have hnest {S S' : Text} {d : ℕ} (h : Nested bufferNames S S' d) : d = 0 := by
    cases h with
    | self => rfl
    | field h hinn =>
      obtain ⟨field, hfld, -, name, htype, -⟩ := hinn
      obtain rfl | rfl | rfl := bufferNames_fields hfld <;> cases htype
  refine ⟨rfl, by decide, by decide, by decide, ?_, ?_, ?_, fun h => absurd h (by decide)⟩
  · intro S hS field hfld hdef
    obtain rfl | rfl | rfl := bufferNames_fields hfld <;> trivial
  · intro S hS S' d hd hle
    rw [hnest hd] at hle
    exact absurd hle (by decide)
  · intro S d hS field hfld
    obtain rfl | rfl | rfl := bufferNames_fields hfld
    · exact ⟨fun _ h => (nomatch h), fun _ => ⟨rfl, trivial⟩⟩
    · exact ⟨fun _ h => (nomatch h), fun _ => rfl⟩
    · exact ⟨fun _ _ => rfl, fun h => (nomatch h)⟩

/-- A module `geo` with `const Color enum { Red = "red" }` and `const Pixel struct { color Color }`,
and `const Dot struct { pixel geo.Pixel }` in the entry file. -/
def dotNames : TypeNames where
  resolveType file name :=
    if name = bytes "geo.Pixel" then bytes "geo_Pixel"
    else if file = bytes "geo" then bytes "geo_" ++ name
    else name
  structFields key :=
    if key = bytes "Dot" then some [⟨.named (bytes "geo.Pixel"), none⟩]
    else if key = bytes "geo_Pixel" then some [⟨.named (bytes "Color"), none⟩]
    else none
  enumDefaultVariant key := if key = bytes "geo_Color" then some (bytes "Red") else none
  enum_not_struct key h := by
    by_cases hkey : key = bytes "geo_Color"
    · subst hkey
      exact absurd h (by decide)
    · exact if_neg hkey
  isStructKind name := name = bytes "Dot" ∨ name = bytes "geo.Pixel"
  home key := if key = bytes "geo_Pixel" then bytes "geo" else bytes "main"
  cType _ written := written
  emitDefault _ expression := expression

end Grayscale.ZeroValues
