import Grayscale.Library.Descent
import Grayscale.Typechecker.Aliases
import Mathlib.Data.Set.Finite.Basic

/-!
# Circular aliases

The registration of aliases reports an alias whose chain of whole names comes back to it within 32
steps. A cycle through a slot of a container is not reported, and the resolution of an alias on it
need not end.
-/

namespace Grayscale

open Relation List

/-! ### The report -/

/-- The loop over the chain of whole names from a target: whether it meets the alias. -/
def aliasCycle (aliases : Aliases) (name : Text) : ℕ → Text → Bool
  | 0, _ => false
  | depth + 1, currentName =>
    currentName == name ||
      match aliases.target currentName with
      | none => false
      | some target => aliasCycle aliases name depth target

/-- The cycle detection of `register_declaration_aliases`: the declarations that E3133 is reported
for. -/
def registerDeclarationAliases (aliases : Aliases) : List AliasDeclaration :=
  aliases.declarations.filter fun d => aliasCycle aliases d.name.text 32 (spell d.target)

/-! ### The reference graph -/

mutual

def typeNames : WrittenType → List Text
  | .name n => [n.text]
  | .pointer pointee => typeNames pointee
  | .array element => typeNames element
  | .fixedArray element _ => typeNames element
  | .map key value => typeNames key ++ typeNames value
  | .procedure parameters => parameterNames parameters
  | .function parameters result => parameterNames parameters ++ typeNames result
  | .functionList parameters results => parameterNames parameters ++ resultNames results

def parameterNames : List (TypeParameter WrittenType) → List Text
  | [] => []
  | ⟨_, type⟩ :: l => typeNames type ++ parameterNames l

def resultNames : List WrittenType → List Text
  | [] => []
  | type :: l => typeNames type ++ resultNames l

end

abbrev Aliases.Declared (aliases : Aliases) := {d : AliasDeclaration // d ∈ aliases.declarations}

/-- The edges of the reference graph: the name of an alias is in a slot of the target of another
one. -/
def References (aliases : Aliases) (d d' : aliases.Declared) : Prop :=
  d'.1.name.text ∈ typeNames d.1.target

def Cyclic (aliases : Aliases) : Prop := ∃ d : aliases.Declared, TransGen (References aliases) d d

/-! ### The conditions -/

/-- The spelling that a number of steps from alias to target ends at. -/
def nameHops (aliases : Aliases) : ℕ → Text → Option Text
  | 0, name => some name
  | k + 1, name => (aliases.target name).bind (nameHops aliases k)

/-- Fewer than 32 steps lead from the target of an alias to its name. -/
def ShortNameCycle (aliases : Aliases) : Prop :=
  ∃ d ∈ aliases.declarations, ∃ k < 32, nameHops aliases k (spell d.target) = some d.name.text

/-- The resolution of a target that is a container goes into that target again. -/
def Reenters (aliases : Aliases) : Prop :=
  ∃ d ∈ aliases.declarations, isContainer (spell d.target) = true ∧
    TransGen (Enters aliases) (spell d.target) (spell d.target)

/-! ### Lookups -/

variable {aliases : Aliases} {name : Text}

theorem Aliases.exists_of_target {target : Text} (h : aliases.target name = some target) :
    ∃ d : aliases.Declared, d.1.name.text = name ∧ spell d.1.target = target := by
  obtain ⟨d, hfind, rfl⟩ := Option.map_eq_some_iff.mp h
  unfold Aliases.find at hfind
  have hname : (d.name.text == name) = true := 
    find?_some (p := fun d : AliasDeclaration => d.name.text == name) hfind
  exact ⟨⟨d, mem_of_find?_eq_some hfind⟩, beq_iff_eq.mp hname, rfl⟩

instance (aliases : Aliases) : Finite aliases.Declared :=
  (finite_toSet aliases.declarations).to_subtype

theorem exists_of_follow {depth : ℕ} (h : (followAliases aliases depth name).2 = true) :
    ∃ d : aliases.Declared, (followAliases aliases depth name).1 = spell d.1.target ∧
      isContainer (spell d.1.target) = true := by
  induction depth generalizing name with
  | zero => cases h
  | succ depth ih =>
    cases htgt : aliases.target name with
    | none =>
      rw [follow_of_none htgt] at h
      cases h
    | some target =>
      rw [followAliases, htgt] at h ⊢
      dsimp only at h ⊢
      by_cases hcont : isContainer target = true
      · obtain ⟨d, -, rfl⟩ := aliases.exists_of_target htgt
        rw [if_pos hcont]
        exact ⟨d, rfl, hcont⟩
      · rw [if_neg hcont] at h ⊢
        exact ih h

variable {sub : Text}

theorem Enters.exists_target (h : Enters aliases name sub) (hsh : typeShape name = .name) :
    ∃ d : aliases.Declared, sub = spell d.1.target ∧ isContainer (spell d.1.target) = true := by
  cases h with
  | target _ htgt => exact exists_of_follow htgt
  | pointee h | element h | key h | value h | parameter h | result h =>
    rw [hsh] at h
    cases h

/-! ### Resolution ends unless a container is entered again -/

theorem acc_of_acc_targets (h : ∀ d : aliases.Declared, isContainer (spell d.1.target) = true →
      Acc (flip (Enters aliases)) (spell d.1.target)) (name : Text) :
    Acc (flip (Enters aliases)) name := by
  refine acc_of_smaller List.length (fun _ => True) (fun a b _ hb => ?_) trivial
  by_cases hsh : typeShape a = .name
  · obtain ⟨d, rfl, hcont⟩ := Enters.exists_target hb hsh
    exact .inr (h d hcont)
  · exact .inl ⟨trivial, Enters.length_lt hb hsh⟩

theorem terminates_iff_not_reenters (aliases : Aliases) :
    (∀ name, Terminates aliases name) ↔ ¬ Reenters aliases := by
  constructor
  · rintro h ⟨d, -, -, hcycle⟩
    have hacc : Acc (flip (Enters aliases)) (spell d.target) := terminates_iff_acc.mp (h _)
    exact not_transGen_self hacc (transGen_swap.mp hcycle)
  · intro h name
    -- Labels are the containers among the targets, and a label holds of what its resolution reaches.
    let Label := {d : aliases.Declared // isContainer (spell d.1.target) = true}
    have : Finite Label := Subtype.finite
    let reaches : Label → Label → Prop :=
      fun i j => TransGen (Enters aliases) (spell i.1.1.target) (spell j.1.1.target)
    have htrans : ∀ {i j}, TransGen reaches i j → reaches i j := fun hij => by
      induction hij with
      | single hstep => exact hstep
      | tail _ hstep ih => exact ih.trans hstep
    have hwf : WellFounded (flip (TransGen reaches)) :=
      wellFounded_of_acyclic fun i hi => h ⟨i.1.1, i.1.2, i.2, htrans hi⟩
    have hlab : ∀ i : Label, Acc (flip (Enters aliases)) (spell i.1.1.target) := fun i =>
      acc_of_labels hwf List.length
        (fun i text => ReflTransGen (Enters aliases) (spell i.1.1.target) text)
        (fun i a b ha hb => by
          by_cases hsh : typeShape a = .name
          · obtain ⟨d, rfl, hcont⟩ := Enters.exists_target hb hsh
            exact .inr ⟨⟨d, hcont⟩, .single (TransGen.tail' ha hb), .refl⟩
          · exact .inl ⟨ha.tail hb, Enters.length_lt hb hsh⟩) .refl
    exact terminates_iff_acc.mpr
      (acc_of_acc_targets (fun d hcont => hlab ⟨d, hcont⟩) name)
/-! ### The slots of a target -/

theorem typeShape_pointer (pointee : WrittenType) :
    typeShape (spell (.pointer pointee)) = .pointer (spell pointee) := rfl

theorem typeShape_of_name (n : TypeName) : typeShape n.text = .name := by
  have hpre : ∀ {l : Text} (c : UInt8), c ∈ l → isTypeNameByte c = false →
      l.isPrefixOf n.text = false := fun c hc hname => by
    rw [← Bool.not_eq_true, List.isPrefixOf_iff_prefix]
    exact fun h => n.not_mem hname (h.subset hc)
  rw [typeShape, hpre (byte '^') (by decide) (by decide), hpre (byte '[') (by decide) (by decide),
    hpre (byte '[') (by decide) (by decide), hpre (byte '(') (by decide) (by decide)]
  rfl

variable {type : WrittenType}

theorem typeNames_of_spell {n : TypeName} (h : spell type = n.text) :
    typeNames type = [n.text] := by
  have hne : ∀ c ∈ spell type, isTypeNameByte c = true := fun c hc => by
    rw [h] at hc
    exact all_eq_true.mp n.isName c hc
  cases type with
  | name m =>
    rw [typeNames]
    exact congrArg ([·]) h
  | pointer pointee => exact absurd (hne (byte '^') (mem_cons_self ..)) (by decide)
  | array | fixedArray => exact absurd (hne (byte '[') (mem_cons_self ..)) (by decide)
  | map =>
    exact absurd (hne (byte '[') (mem_append_left _ (by decide))) (by decide)
  | procedure | function | functionList =>
    exact absurd (hne (byte '(') (mem_append_left _ (by decide))) (by decide)

variable {parameters : List (TypeParameter WrittenType)}

theorem typeNames_subset_of_mem {parameter : TypeParameter WrittenType} (h : parameter ∈ parameters) :
    typeNames parameter.type ⊆ parameterNames parameters := by
  induction parameters with
  | nil => cases h
  | cons first l ih =>
    rw [parameterNames]
    rcases mem_cons.mp h with rfl | h
    · exact subset_append_left ..
    · exact List.Subset.trans (ih h) (subset_append_right ..)

theorem length_le_spellParameters (parameters : List (TypeParameter WrittenType)) :
    parameters.length ≤ (spellParameters parameters).length := by
  induction parameters with
  | nil => exact le_rfl
  | cons parameter l ih =>
    have hpos := length_pos_iff.mpr (spell_ne_nil parameter.type)
    cases l with
    | nil =>
      rw [spellParameters, length_append, length_append]
      change 1 ≤ _
      omega
    | cons parameter' l =>
      rw [spellParameters, isEmpty_cons, if_neg Bool.false_ne_true, length_append,
        length_append, length_cons (a := byte ','), length_cons]
      omega

/-- What a resolution goes into inside of a type: a slot, whose names are names of the type, or a
list of results, which is taken for a name. -/
def IsSlot (names : List Text) (sub : Text) : Prop :=
  (∃ type, sub = spell type ∧ typeNames type ⊆ names) ∨ ∃ l, sub = byte '(' :: l

variable {names : List Text}

theorem isSlot_spell (h : typeNames type ⊆ names) : IsSlot names (spell type) := .inl ⟨type, rfl, h⟩

theorem isSlot_parameter (h : EntersSegment aliases []
      (typeListSegments (spellParameters parameters).length (spellParameters parameters)) sub)
    (hnam : parameterNames parameters ⊆ names) : IsSlot names sub := by
  obtain ⟨segment, hseg, rfl⟩ := h.exists_segment
  rw [typeListSegments_parameters parameters (length_le_spellParameters parameters)] at hseg
  obtain ⟨parameter, hpar, rfl⟩ := mem_map.mp hseg
  rw [segmentType_parameter]
  exact isSlot_spell (List.Subset.trans (typeNames_subset_of_mem hpar) hnam)

theorem Enters.typeShape_ne_whole (henters : Enters aliases name sub) :
    typeShape name ≠ .whole := by
  intro hsh
  cases henters with
  | pointee h | element h | key h | value h | parameter h | result h | target h =>
    rw [hsh] at h
    cases h

variable {l : Text}

theorem isSlot_array (henters : Enters aliases (byte '[' :: l) sub)
    (helem : ∀ parts, arrayParts (byte '[' :: l) = some parts → IsSlot names parts.1) :
    IsSlot names sub := by
  have hsh := typeShape_bracket l
  cases hpts : arrayParts (byte '[' :: l) with
  | none =>
    rw [hpts] at hsh
    exact absurd hsh henters.typeShape_ne_whole
  | some parts =>
    have hslot := helem parts hpts
    rw [hpts] at hsh
    cases henters with
    | pointee h | key h | value h | parameter h | result h | target h =>
      rw [hsh] at h
      cases h
    | element h =>
      rw [hsh] at h
      rwa [← (TypeShape.array.inj h).1]

theorem isSlot_map (henters : Enters aliases (bytes "map[" ++ l) sub)
    (hslt : ∀ parts, mapParts (bytes "map[" ++ l) = some parts →
      IsSlot names parts.1 ∧ IsSlot names parts.2) : IsSlot names sub := by
  have hsh := typeShape_map l
  cases hpts : mapParts (bytes "map[" ++ l) with
  | none =>
    rw [hpts] at hsh
    exact absurd hsh henters.typeShape_ne_whole
  | some parts =>
    obtain ⟨hkey, hval⟩ := hslt parts hpts
    rw [hpts] at hsh
    cases henters with
    | pointee h | element h | parameter h | result h | target h =>
      rw [hsh] at h
      cases h
    | key h =>
      rw [hsh] at h
      rwa [← (TypeShape.map.inj h).1]
    | value h =>
      rw [hsh] at h
      rwa [← (TypeShape.map.inj h).2]

theorem isSlot_function {tail : Text}
    (henters : Enters aliases (bytes "func(" ++ (spellParameters parameters ++ byte ')' :: tail))
      sub) (hnam : parameterNames parameters ⊆ names)
    (htail : ∀ result, (if (bytes "->").isPrefixOf tail then some (tail.drop 2) else none) =
      some result → IsSlot names result) : IsSlot names sub := by
  have hsh := typeShape_func (spellParameters parameters ++ byte ')' :: tail)
  cases hpts : functionParts
      (bytes "func(" ++ (spellParameters parameters ++ byte ')' :: tail)) with
  | none =>
    rw [hpts] at hsh
    exact absurd hsh henters.typeShape_ne_whole
  | some parts =>
    obtain rfl := functionParts_eq hpts
    rw [hpts] at hsh
    cases henters with
    | pointee h | element h | key h | value h | target h =>
      rw [hsh] at h
      cases h
    | parameter h hpar =>
      rw [hsh] at h
      obtain ⟨rfl, -⟩ := TypeShape.function.inj h
      exact isSlot_parameter hpar hnam
    | result h =>
      rw [hsh] at h
      exact htail _ (TypeShape.function.inj h).2

theorem Enters.isSlot (h : Enters aliases (spell type) sub)
    (hsh : typeShape (spell type) ≠ .name) : IsSlot (typeNames type) sub := by
  cases type with
  | name n => exact absurd (typeShape_of_name n) hsh
  | pointer pointee =>
    cases h with
    | pointee h =>
      rw [typeShape_pointer] at h
      rw [← TypeShape.pointer.inj h]
      exact isSlot_spell (List.Subset.refl _)
    | element h | key h | value h | parameter h | result h | target h => cases h
  | array element =>
    refine isSlot_array h fun parts hpts => ?_
    rw [arrayParts_array hpts]
    exact isSlot_spell (List.Subset.refl _)
  | fixedArray element size =>
    refine isSlot_array h fun parts hpts => ?_
    rw [arrayParts_fixedArray hpts]
    exact isSlot_spell (List.Subset.refl _)
  | map key value =>
    refine isSlot_map h fun parts hpts => ?_
    rw [mapParts_map hpts]
    exact ⟨isSlot_spell (subset_append_left ..), isSlot_spell (subset_append_right ..)⟩
  | procedure parameters =>
    exact isSlot_function h (List.Subset.refl _) fun result hres => by cases hres
  | function parameters result =>
    refine isSlot_function h (subset_append_left ..) fun result' hres => ?_
    cases hres
    exact isSlot_spell (subset_append_right ..)
  | functionList parameters results =>
    refine isSlot_function h (subset_append_left ..) fun result' hres => ?_
    cases hres
    exact .inr ⟨_, rfl⟩
/-! ### Resolution ends on an acyclic graph -/

theorem typeShape_ne_name {text : Text} (h : isContainer text = true) : typeShape text ≠ .name := by
  unfold typeShape
  split_ifs with hptr harr hmap hfn
  · exact fun h => by cases h
  · cases arrayParts text <;> exact fun h => by cases h
  · cases mapParts text <;> exact fun h => by cases h
  · cases functionParts text <;> exact fun h => by cases h
  · simp only [isContainer, hptr, harr, hmap, hfn] at h
    cases h

theorem exists_name_of_typeShape (h : typeShape (spell type) = .name) : ∃ n, type = .name n := by
  cases type with
  | name n => exact ⟨n, rfl⟩
  | pointer | array | fixedArray | map | procedure | function | functionList =>
    exact absurd h (typeShape_ne_name rfl)

variable {d : aliases.Declared}

theorem references_of_target {target : Text}
    (h : aliases.target (spell d.1.target) = some target) :
    ∃ d' : aliases.Declared, References aliases d d' ∧ spell d'.1.target = target := by
  obtain ⟨d', hname, htgt⟩ := aliases.exists_of_target h
  refine ⟨d', ?_, htgt⟩
  rw [References, typeNames_of_spell hname.symm]
  exact mem_singleton_self _

theorem references_of_follow {depth : ℕ}
    (hname : name ∈ typeNames d.1.target) (h : (followAliases aliases depth name).2 = true) :
    ∃ d' : aliases.Declared, TransGen (References aliases) d d' ∧
      (followAliases aliases depth name).1 = spell d'.1.target := by
  induction depth generalizing d name with
  | zero => cases h
  | succ depth ih =>
    cases htgt : aliases.target name with
    | none =>
      rw [follow_of_none htgt] at h
      cases h
    | some target =>
      obtain ⟨d', rfl, rfl⟩ := aliases.exists_of_target htgt
      rw [followAliases, htgt] at h ⊢
      dsimp only at h ⊢
      by_cases hcont : isContainer (spell d'.1.target) = true
      · rw [if_pos hcont]
        exact ⟨d', .single hname, rfl⟩
      · rw [if_neg hcont] at h ⊢
        have hmem : spell d'.1.target ∈ typeNames d'.1.target := by
          cases hnext : aliases.target (spell d'.1.target) with
          | none =>
            rw [follow_of_none hnext] at h
            cases h
          | some next =>
            obtain ⟨d'', hsame, -⟩ := aliases.exists_of_target hnext
            rw [typeNames_of_spell hsame.symm, hsame]
            exact mem_singleton_self _
        obtain ⟨d'', hpath, heq⟩ := ih hmem h
        exact ⟨d'', .head hname hpath, heq⟩

theorem target_results (l : Text) : aliases.target (byte '(' :: l) = none := by
  cases htgt : aliases.target (byte '(' :: l) with
  | none => rfl
  | some target =>
    obtain ⟨d, hname, -⟩ := aliases.exists_of_target htgt
    refine absurd ?_ (d.1.name.not_mem (c := byte '(') (by decide))
    rw [hname]
    exact mem_cons_self ..

theorem not_enters_results (h : Enters aliases (byte '(' :: l) sub) : False := by
  cases h with
  | target _ htgt =>
    rw [follow_of_none (target_results l)] at htgt
    cases htgt
  | pointee h | element h | key h | value h | parameter h | result h => cases h

theorem Enters.isSlot_target (h : Enters aliases name sub)
    (hslot : IsSlot (typeNames d.1.target) name) :
    (IsSlot (typeNames d.1.target) sub ∧ sub.length < name.length) ∨
      ∃ d' : aliases.Declared, TransGen (References aliases) d d' ∧
        IsSlot (typeNames d'.1.target) sub := by
  rcases hslot with ⟨type, rfl, hnam⟩ | ⟨l, rfl⟩
  · by_cases hsh : typeShape (spell type) = .name
    · obtain ⟨n, rfl⟩ := exists_name_of_typeShape hsh
      cases h with
      | target _ htgt =>
        obtain ⟨d', hpath, heq⟩ := references_of_follow
          (hnam (mem_singleton_self n.text)) htgt
        rw [spell, heq]
        exact .inr ⟨d', hpath, isSlot_spell (List.Subset.refl _)⟩
      | pointee h | element h | key h | value h | parameter h | result h =>
        rw [hsh] at h
        cases h
    · have hlen := h.length_lt hsh
      rcases h.isSlot hsh with ⟨slot, rfl, hsub⟩ | hresults
      · exact .inl ⟨isSlot_spell (List.Subset.trans hsub hnam), hlen⟩
      · exact .inl ⟨.inr hresults, hlen⟩
  · exact (not_enters_results h).elim

theorem terminates_of_not_cyclic (h : ¬ Cyclic aliases) (name : Text) :
    Terminates aliases name := by
  have hwf : WellFounded (flip (TransGen (References aliases))) :=
    wellFounded_of_acyclic fun d hd => h ⟨d, hd⟩
  refine terminates_iff_acc.mpr (acc_of_acc_targets (fun d _ => ?_) name)
  exact acc_of_labels hwf List.length
    (fun (d : aliases.Declared) text => IsSlot (typeNames d.1.target) text)
    (fun d a b ha hb => Enters.isSlot_target hb ha) (isSlot_spell (List.Subset.refl _))

/-! ### The report and the graph -/

theorem aliasCycle_iff {currentName : Text} {depth : ℕ} :
    aliasCycle aliases name depth currentName = true ↔
      ∃ k < depth, nameHops aliases k currentName = some name := by
  induction depth generalizing currentName with
  | zero => exact ⟨fun h => (by cases h), fun ⟨k, hk, _⟩ => absurd hk (Nat.not_lt_zero k)⟩
  | succ depth ih =>
    rw [aliasCycle, Bool.or_eq_true, beq_iff_eq]
    constructor
    · rintro (rfl | h)
      · exact ⟨0, Nat.succ_pos _, rfl⟩
      · cases htgt : aliases.target currentName with
        | none =>
          rw [htgt] at h
          cases h
        | some target =>
          rw [htgt] at h
          obtain ⟨k, hk, hhops⟩ := ih.mp h
          exact ⟨k + 1, Nat.succ_lt_succ hk, by rw [nameHops, htgt]; exact hhops⟩
    · rintro ⟨k, hk, hhops⟩
      cases k with
      | zero => exact .inl (Option.some.inj hhops)
      | succ k =>
        obtain ⟨target, htgt, hrest⟩ := Option.bind_eq_some_iff.mp hhops
        rw [htgt]
        exact .inr (ih.mpr ⟨k, Nat.lt_of_succ_lt_succ hk, hrest⟩)

theorem registerDeclarationAliases_ne_nil :
    registerDeclarationAliases aliases ≠ [] ↔ ShortNameCycle aliases := by
  rw [registerDeclarationAliases, Ne, filter_eq_nil_iff, ShortNameCycle]
  push Not
  exact exists_congr fun d => and_congr_right fun _ => aliasCycle_iff

theorem references_of_nameHops {d d' : aliases.Declared} {k : ℕ}
    (h : nameHops aliases k (spell d.1.target) = some d'.1.name.text) :
    TransGen (References aliases) d d' := by
  induction k generalizing d with
  | zero =>
    refine .single ?_
    rw [References, typeNames_of_spell (Option.some.inj h)]
    exact mem_singleton_self _
  | succ k ih =>
    obtain ⟨target, htgt, hrest⟩ := Option.bind_eq_some_iff.mp h
    obtain ⟨next, hnext, rfl⟩ := references_of_target htgt
    exact .head hnext (ih hrest)

theorem ShortNameCycle.cyclic (h : ShortNameCycle aliases) : Cyclic aliases := by
  obtain ⟨d, hd, k, -, hhops⟩ := h
  exact ⟨⟨d, hd⟩, @references_of_nameHops aliases _ ⟨d, hd⟩ _ hhops⟩

end Grayscale
