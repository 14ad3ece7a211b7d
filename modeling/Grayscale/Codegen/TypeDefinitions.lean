import Grayscale.Library.PassOrder
import Grayscale.Util.Bytes

/-!
# The order of type definitions

The bodies of the structs and the tagged enums are emitted in passes, each after those that its
fields or payloads name. At most 64 of the names are kept for each, and the name of an alias is not
replaced by what it stands for.
-/

namespace Grayscale.TypeDefinitions

open List

/-! ### The emitter -/

/-- The members of a declaration with the types as they stand in the syntax tree: the fields of a
struct, or the payloads of the variants of a tagged enum. -/
inductive TypeMembers
  | fields (types : List (Option Text))
  | payloads (variants : List (List (Option Text)))

def TypeMembers.types : TypeMembers → List (Option Text)
  | fields types => types
  | payloads variants => variants.flatten

/-- A struct or a tagged enum: its C name, `codegen_declaration_name`, its members, and
`codegen_resolve_type` in the file of the declaration. -/
structure TypeNode where
  name : Text
  members : TypeMembers
  resolveType : Text → Text

/-- A program as `codegen_emit_type_definitions` reads it: the structs, the tagged enums, and what a
resolved name stands for after the aliases, of which a declaration is none. -/
structure TypeProgram where
  structs : List TypeNode
  taggedEnums : List TypeNode
  aliasTarget : Text → Text
  aliasTarget_name : ∀ node ∈ structs ++ taggedEnums, aliasTarget node.name = node.name

/-- A pointer, an array or a map is satisfied by a forward declaration. -/
def isByValue (typeName : Text) : Bool :=
  !(typeName.head? == some (byte '^') || typeName.head? == some (byte '[') ||
    (bytes "map[").isPrefixOf typeName)

def TypeNode.byValueTypes (node : TypeNode) : List Text :=
  (node.members.types.filterMap id).filter isByValue

/-- The room of `dependency_types`. -/
def dependencyRoom : ℕ := 64

def TypeNode.dependencyTypes (node : TypeNode) : List Text :=
  (node.byValueTypes.take dependencyRoom).map node.resolveType

namespace TypeProgram

variable (program : TypeProgram)

/-- The slots: the structs, and behind them the tagged enums. -/
def nodes : List TypeNode := program.structs ++ program.taggedEnums

def HasName (slot : ℕ) (name : Text) : Prop := (program.nodes[slot]?).map TypeNode.name = some name

instance (slot : ℕ) (name : Text) : Decidable (program.HasName slot name) :=
  inferInstanceAs (Decidable (_ = _))

def depsMet (order : List ℕ) (slot : ℕ) : Bool :=
  (((program.nodes[slot]?).map TypeNode.dependencyTypes).getD []).all fun type =>
    (List.range program.nodes.length).all fun inner =>
      inner == slot || decide (inner ∈ order) || !decide (program.HasName inner type)

/-- `codegen_emit_type_definitions`: the slots in the order in which their bodies are emitted. -/
def codegenEmitTypeDefinitions : List ℕ := PassOrder.emitAll program.depsMet program.nodes.length

/-! ### Containment -/

/-- The type of a slot contains that of another by value. -/
def Contains (slot inner : ℕ) : Prop :=
  ∃ node type, program.nodes[slot]? = some node ∧ type ∈ node.byValueTypes ∧
    program.HasName inner (program.aliasTarget (node.resolveType type))

/-- The emitter finds the name of a declaration among the dependencies of another. -/
def Depends (slot inner : ℕ) : Prop :=
  ∃ node type, program.nodes[slot]? = some node ∧ type ∈ node.dependencyTypes ∧
    program.HasName inner type

/-- Every body is emitted once, and after those that its type contains. -/
structure EmitsInOrder : Prop where
  once : program.codegenEmitTypeDefinitions.Perm (List.range program.nodes.length)
  contained : ∀ slot inner, program.Contains slot inner →
    [inner, slot].Sublist program.codegenEmitTypeDefinitions

variable {program}

theorem HasName.lt {slot : ℕ} {name : Text} (h : program.HasName slot name) :
    slot < program.nodes.length := by
  obtain ⟨node, hnode, -⟩ := Option.map_eq_some_iff.mp h
  exact (List.getElem?_eq_some_iff.mp hnode).1

variable {slot inner : ℕ}

theorem Contains.lt (h : program.Contains slot inner) :
    slot < program.nodes.length ∧ inner < program.nodes.length := by
  obtain ⟨node, type, hnode, -, hname⟩ := h
  exact ⟨(List.getElem?_eq_some_iff.mp hnode).1, hname.lt⟩

theorem Depends.lt (h : program.Depends slot inner) : inner < program.nodes.length := by
  obtain ⟨node, type, -, -, hname⟩ := h
  exact hname.lt

theorem Depends.contains (h : program.Depends slot inner) : program.Contains slot inner := by
  obtain ⟨node, type, hnode, htype, hname⟩ := h
  obtain ⟨written, hwrote, rfl⟩ := mem_map.mp htype
  refine ⟨node, written, hnode, mem_of_mem_take hwrote, ?_⟩
  obtain ⟨innerNode, hinn, heq⟩ := Option.map_eq_some_iff.mp hname
  have htgt := program.aliasTarget_name innerNode (mem_of_getElem? hinn)
  rw [heq] at htgt
  rwa [htgt]

theorem readyFor_depsMet :
    PassOrder.ReadyFor program.Depends program.nodes.length program.depsMet := by
  intro order slot hslot
  have hnode : program.nodes[slot]? = some program.nodes[slot] := getElem?_eq_getElem hslot
  rw [depsMet, hnode]
  simp only [Option.map_some, Option.getD_some, all_eq_true, mem_range,
    Bool.or_eq_true, beq_iff_eq, decide_eq_true_eq, Bool.not_eq_true', decide_eq_false_iff_not]
  constructor
  · rintro hall inner ⟨node, type, hnode', htype, hname⟩ hne
    rw [hnode, Option.some.injEq] at hnode'
    subst hnode'
    rcases hall type htype inner hname.lt with (rfl | hmem) | hnot
    · exact absurd rfl hne
    · exact hmem
    · exact absurd hname hnot
  · intro hall type htype inner hinn
    by_cases hne : inner = slot
    · exact .inl (.inl hne)
    · by_cases hname : program.HasName inner type
      · exact .inl (.inr (hall inner ⟨_, type, hnode, htype, hname⟩ hne))
      · exact .inr hname

theorem perm_codegenEmitTypeDefinitions (program : TypeProgram) :
    program.codegenEmitTypeDefinitions.Perm (List.range program.nodes.length) := by
  refine (perm_ext_iff_of_nodup ?_ nodup_range).mpr fun slot => ?_
  · exact PassOrder.nodup_emitAll readyFor_depsMet Depends.lt
  · rw [mem_range]
    exact PassOrder.mem_emitAll readyFor_depsMet Depends.lt

theorem EmitsInOrder.not_cyclic (h : program.EmitsInOrder) (slot : ℕ) :
    ¬ Relation.TransGen program.Contains slot slot := by
  have hnd := h.once.nodup_iff.mpr nodup_range
  have hbef : ∀ slot inner, program.Contains slot inner →
      program.codegenEmitTypeDefinitions.idxOf inner <
        program.codegenEmitTypeDefinitions.idxOf slot := fun slot inner hin => by
    have hsub := h.contained slot inner hin
    exact pairwise_iff_forall_sublist.mp (PassOrder.pairwise_idxOf hnd) hsub
  have htrans : ∀ slot inner, Relation.TransGen program.Contains slot inner →
      program.codegenEmitTypeDefinitions.idxOf inner <
        program.codegenEmitTypeDefinitions.idxOf slot := fun slot inner hch => by
    induction hch with
    | single hstep => exact hbef _ _ hstep
    | tail _ hstep ih => exact Nat.lt_trans (hbef _ _ hstep) ih
  exact fun hcycle => absurd (htrans slot slot hcycle) (Nat.lt_irrefl _)

/-- The bodies come out in dependency order if no type contains itself, and what a type contains
beyond the dependencies that the emitter finds comes before it anyway. -/
theorem emitsInOrder_iff (program : TypeProgram) : program.EmitsInOrder ↔
      (∀ slot, ¬ Relation.TransGen program.Contains slot slot) ∧
        ∀ slot inner, program.Contains slot inner → ¬ program.Depends slot inner →
          PassOrder.Before program.Depends inner slot := by
  have hacyc : (∀ slot, ¬ Relation.TransGen program.Contains slot slot) →
      ∀ slot, ¬ Relation.TransGen program.Depends slot slot := fun h slot hcycle =>
      h slot (hcycle.lift id fun _ _ => Depends.contains)
  constructor
  · intro h
    refine ⟨h.not_cyclic, fun slot inner hin _ => ?_⟩
    have hlt := hin.lt
    exact (PassOrder.sublist_emitAll_iff readyFor_depsMet Depends.lt (hacyc h.not_cyclic) hlt.2
      hlt.1).mp (h.contained slot inner hin)
  · rintro ⟨hcycle, hhidden⟩
    refine ⟨perm_codegenEmitTypeDefinitions program, fun slot inner hin => ?_⟩
    have hlt := hin.lt
    refine (PassOrder.sublist_emitAll_iff readyFor_depsMet Depends.lt (hacyc hcycle) hlt.2
      hlt.1).mpr ?_
    by_cases hdepends : program.Depends slot inner
    · exact PassOrder.before_of_needs (hacyc hcycle) Depends.lt hdepends
    · exact hhidden slot inner hin hdepends

end TypeProgram

/-! ### Hidden dependencies -/

/-- A struct with the fields of a type; all names are those of the entry module. -/
def structNode (name : String) (types : List String) : TypeNode where
  name := bytes name
  members := .fields (types.map fun type => some (bytes type))
  resolveType := id

/-- A struct of 64 integers and an `Inner`, declared before `Inner`. -/
def largeProgram : TypeProgram where
  structs := [structNode "Large" (replicate 64 "i64" ++ ["Inner"]), structNode "Inner" ["i64"]]
  taggedEnums := []
  aliasTarget := id
  aliasTarget_name _ _ := rfl

theorem contains_largeProgram {slot inner : ℕ} (h : largeProgram.Contains slot inner) :
    slot = 0 ∧ inner = 1 := by
  have hlt : slot < 2 ∧ inner < 2 := h.lt
  obtain ⟨node, type, hnode, htype, hname⟩ := h
  have hbig : ∀ type ∈ (structNode "Large" (replicate 64 "i64" ++ ["Inner"])).byValueTypes,
      ∀ inner < 2, largeProgram.HasName inner type → inner = 1 := by
    decide +kernel
  have hinn : ∀ type ∈ (structNode "Inner" ["i64"]).byValueTypes, ∀ inner < 2,
      ¬ largeProgram.HasName inner type := by
    decide +kernel
  rcases (show slot = 0 ∨ slot = 1 by omega) with rfl | rfl
  · cases hnode
    exact ⟨rfl, hbig type htype inner hlt.2 hname⟩
  · cases hnode
    exact absurd hname (hinn type htype inner hlt.2)

/-- The body of `Large` is emitted before that of `Inner`. -/
theorem not_emitsInOrder_largeProgram : largeProgram.codegenEmitTypeDefinitions = [0, 1] ∧
    ¬ ∀ program : TypeProgram, (∀ slot, ¬ Relation.TransGen program.Contains slot slot) →
      program.EmitsInOrder := by
  have hord : largeProgram.codegenEmitTypeDefinitions = [0, 1] := by
    decide +kernel
  refine ⟨hord, fun h => ?_⟩
  have hacyc : ∀ slot, ¬ Relation.TransGen largeProgram.Contains slot slot := by
    intro slot hcycle
    obtain ⟨_, hfst, -⟩ := Relation.TransGen.head'_iff.mp hcycle
    obtain ⟨_, -, hlast⟩ := Relation.TransGen.tail'_iff.mp hcycle
    have hzero := (contains_largeProgram hfst).1
    have hone := (contains_largeProgram hlast).2
    omega
  have hin : largeProgram.Contains 0 1 :=
    ⟨structNode "Large" (replicate 64 "i64" ++ ["Inner"]), bytes "Inner", rfl,
      by decide +kernel, by decide +kernel⟩
  have hsub := (h largeProgram hacyc).contained 0 1 hin
  rw [hord] at hsub
  exact absurd hsub (by decide)

end Grayscale.TypeDefinitions
