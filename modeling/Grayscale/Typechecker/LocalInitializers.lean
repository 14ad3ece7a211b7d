import Grayscale.Library.Descent
import Grayscale.Util.Bytes
import Mathlib.Data.BitVec
import Mathlib.Data.Set.Finite.Basic

/-!
# Following local initialisers

The walks of `typechecker.c` that answer what a returned expression may carry. At a label they go
on with the value that a local of this name was declared with, wherever the declaration stands in
the body.

A walk has fuel, `none` stands for a walk that has used it up. So a walk ends if it has a value for
all fuel from some amount on.
-/

namespace Grayscale.LocalInitializers

open List

/-! ### Bodies -/

/-- The nodes of a body, with an identity for the expressions. -/
inductive AstNode
  | null
  | label (id : ℕ) (value : Text)
  | member (id : ℕ) (object : AstNode) (name : Text)
  | index (id : ℕ) (left index : AstNode)
  | postfixExpression (id : ℕ) (isCaret : Bool) (left : AstNode)
  | structValue (id : ℕ) (values : List AstNode)
  | arrayValue (id : ℕ) (elements : List AstNode)
  | mapValue (id : ℕ) (keys values : List AstNode)
  | call (id : ℕ) (function : AstNode) (arguments : List AstNode)
  | otherExpression (id : ℕ) (operands : List AstNode)
  | variableDeclaration (name : Text) (value : AstNode)
  | block (statements : List AstNode)
  | ifStatement (condition consequence otherwise : AstNode)
  | whenStatement (value : AstNode) (bodies : List AstNode) (defaultBody : AstNode)
  /-- `for`, `for_each`, `as_long_as` and `loop`. -/
  | loopStatement (loopVariables : List Text) (heads : List AstNode) (body : AstNode)
  | otherStatement (operands : List AstNode)

namespace AstNode

/-- A pointer to a node, if it is not null. -/
def nonNull : AstNode → Option AstNode
  | .null => none
  | node => some node

/-- The address of an expression. -/
def identity : AstNode → Option ℕ
  | .label id _ | .member id _ _ | .index id _ _ | .postfixExpression id _ _ | .structValue id _
  | .arrayValue id _ | .mapValue id _ _ | .call id _ _ | .otherExpression id _ => some id
  | _ => none

/-- The loop that steps over dereferences. -/
def stripCarets : AstNode → AstNode
  | .postfixExpression id isCaret left =>
    if isCaret then stripCarets left else .postfixExpression id isCaret left
  | node => node

end AstNode

open AstNode

mutual

def localInitializer (name : Text) : AstNode → Option AstNode
  | .variableDeclaration other value =>
    if other = name then value.nonNull else localInitializer name value
  | .block statements => firstInitializer name statements
  | .ifStatement _ consequence otherwise =>
    (localInitializer name consequence).or (localInitializer name otherwise)
  | .whenStatement _ bodies defaultBody =>
    (firstInitializer name bodies).or (localInitializer name defaultBody)
  | .loopStatement _ _ body => localInitializer name body
  | _ => none

/-- The first result of `local_initializer` in a list of statements. -/
def firstInitializer (name : Text) : List AstNode → Option AstNode
  | [] => none
  | statement :: rest => (localInitializer name statement).or (firstInitializer name rest)

end

/-! ### The walks -/

/-- The kinds of types that the walks tell apart. -/
inductive TypeKind
  | unknown | literal | signedInteger | unsignedInteger | floatingPoint | bool | char
  | pointer | struct | array | map | other
  deriving DecidableEq

/-- The complete summary of a function that is called. -/
structure Callee where
  isSelf : Bool
  parameterCount : ℕ
  addressBits : BitVec 64
  canReturnConstPointer : Bool

/-- What the walks ask the checker, none of which follows an initialiser. -/
structure Checker where
  /-- The body of the function and the names of its parameters. -/
  body : AstNode
  parameters : List Text
  /-- `type_table_get`. -/
  typeOf : AstNode → Option TypeKind
  /-- Whether a field of a parameter is declared as a number, a bool or a char. -/
  fieldIsPlainScalar : AstNode → Text → Bool
  /-- `is_tagged_enum_variant_call`. -/
  isTaggedEnumVariantCall : AstNode → Bool
  /-- `resolve_call_signature_in_body`. -/
  resolveCall : AstNode → Option Callee
  /-- Whether an argument of `addr` is a module-level constant. -/
  isModuleLevelConst : AstNode → Bool

def typeKindIsPlainScalar (kind : TypeKind) : Bool :=
  kind ∈ [.signedInteger, .unsignedInteger, .floatingPoint, .bool, .char]

/-- A result of a call that may carry a pointer. -/
def typeCarriesPointer (kind : Option TypeKind) : Bool :=
  kind.any fun kind => kind ∈ [.pointer, .struct, .array, .map]

def maxTrackedParameters : ℕ := 64

/-- The loop that joins the bits of several expressions. -/
@[grind =]
def joinBits (walk : AstNode → Option (BitVec 64)) (nodes : List AstNode) : Option (BitVec 64) :=
  nodes.foldlM (fun bits node => (walk node).map (bits ||| ·)) 0

/-- The loop that stops at the first expression that points to a constant. -/
def anyOf (walk : AstNode → Option Bool) : List AstNode → Option Bool
  | [] => some false
  | node :: rest => (walk node).bind fun found => if found then some true else anyOf walk rest

/-- The name of the function of a call, and its only argument. -/
@[grind =] def builtinArgument : AstNode → Option (Text × AstNode)
  | .call _ (.label _ name) [argument] => some (name, argument)
  | _ => none

@[grind =] def expressionIsPlainScalar (c : Checker) : ℕ → AstNode → Option Bool
  | 0, _ => none
  | fuel + 1, node =>
    match (c.typeOf node).filter fun kind => kind ≠ .unknown && kind ≠ .literal with
    | some kind => some (typeKindIsPlainScalar kind)
    | none =>
      match node with
      | .label id value =>
        match localInitializer value c.body with
        | none => some false
        | some initializer =>
          if initializer.identity = some id then some false
          else expressionIsPlainScalar c fuel initializer
      | .member _ object name => some (c.fieldIsPlainScalar object.stripCarets name)
      | _ => some false

/-- Labels and members, which may be plain scalars. -/
@[grind =] def isLabelOrMember : AstNode → Bool
  | .label _ _ | .member _ _ _ => true
  | _ => false

@[grind =] def returnExpressionParameterBits (c : Checker) : ℕ → AstNode → Option (BitVec 64)
  | 0, _ => none
  | fuel + 1, node =>
    (if isLabelOrMember node then expressionIsPlainScalar c (fuel + 1) node else some false).bind
      fun isPlain => if isPlain then some 0 else
      match node with
      | .label id value =>
        match (c.parameters.take maxTrackedParameters).findIdx? (· = value) with
        | some i => some ((1 : BitVec 64) <<< i)
        | none =>
          match localInitializer value c.body with
          | none => some 0
          | some initializer =>
            if initializer.identity = some id then some 0
            else returnExpressionParameterBits c fuel initializer
      | .member _ object _ => returnExpressionParameterBits c fuel object.stripCarets
      | .index _ left _ => returnExpressionParameterBits c fuel left.stripCarets
      | .postfixExpression _ isCaret left =>
        if isCaret then some 0 else returnExpressionParameterBits c fuel left
      | .structValue _ values => joinBits (returnExpressionParameterBits c fuel) values
      | .arrayValue _ elements => joinBits (returnExpressionParameterBits c fuel) elements
      | .mapValue _ keys values =>
        -- The code takes each key with its value; the bits are joined in any order.
        joinBits (returnExpressionParameterBits c fuel) (keys ++ values)
      | .call _ _ arguments =>
        match (builtinArgument node).filter
          fun builtin => builtin.1 ∈ [bytes "addr", bytes "raw", bytes "copy"] with
        | some builtin => returnExpressionParameterBits c fuel builtin.2
        | none =>
          if c.isTaggedEnumVariantCall node then
            joinBits (returnExpressionParameterBits c fuel) arguments
          else
            match c.resolveCall node with
            | none =>
              if typeCarriesPointer (c.typeOf node) then
                joinBits (returnExpressionParameterBits c fuel) arguments
              else some 0
            | some callee =>
              if callee.isSelf then some 0
              else joinBits (returnExpressionParameterBits c fuel)
                (((arguments.zipIdx.take callee.parameterCount).take maxTrackedParameters).filter
                  fun argument => callee.addressBits.getLsbD argument.2).unzip.1
      | _ => some 0

def returnExpressionPointsToConst (c : Checker) : ℕ → AstNode → Option Bool
  | 0, _ => none
  | fuel + 1, node =>
    match node with
    | .label id value =>
      match localInitializer value c.body with
      | none => some false
      | some initializer =>
        if initializer.identity = some id then some false
        else returnExpressionPointsToConst c fuel initializer
    | .structValue _ values => anyOf (returnExpressionPointsToConst c fuel) values
    | .arrayValue _ elements => anyOf (returnExpressionPointsToConst c fuel) elements
    | .mapValue _ _ values => anyOf (returnExpressionPointsToConst c fuel) values
    | .call _ _ arguments =>
      if c.isTaggedEnumVariantCall node then anyOf (returnExpressionPointsToConst c fuel) arguments
      else
        match (builtinArgument node).filter
          fun builtin => builtin.1 ∈ [bytes "addr", bytes "copy"] with
        | some builtin =>
          if builtin.1 = bytes "addr" then some (c.isModuleLevelConst builtin.2)
          else returnExpressionPointsToConst c fuel builtin.2
        | none =>
          match c.resolveCall node with
          | none => some false
          | some callee => some (!callee.isSelf && callee.canReturnConstPointer)
    | _ => some false

/-! ### What the walks go on with -/

/-- The expressions that a walk may go on with. -/
@[grind =] def successors (body : AstNode) : AstNode → List AstNode
  | .label id value =>
    ((localInitializer value body).filter fun initializer => initializer.identity ≠ some id).toList
  | .member _ object _ => [object.stripCarets]
  | .index _ left _ => [left.stripCarets]
  | .postfixExpression _ isCaret left => if isCaret then [] else [left]
  | .structValue _ values => values
  | .arrayValue _ elements => elements
  | .mapValue _ keys values => keys ++ values
  | .call _ _ arguments => arguments
  | _ => []

theorem isSome_joinBits {walk : AstNode → Option (BitVec 64)} {nodes : List AstNode}
    (h : ∀ node ∈ nodes, (walk node).isSome) : (joinBits walk nodes).isSome := by
  rw [joinBits]
  generalize (0 : BitVec 64) = bits
  induction nodes generalizing bits with
  | nil => rfl
  | cons node rest ih =>
    obtain ⟨more, hmore⟩ := Option.isSome_iff_exists.mp (h node mem_cons_self)
    rw [foldlM_cons, hmore]
    exact ih (fun node hnode => h node (mem_cons_of_mem _ hnode)) _

theorem isSome_anyOf {walk : AstNode → Option Bool} {nodes : List AstNode}
    (h : ∀ node ∈ nodes, (walk node).isSome) : (anyOf walk nodes).isSome := by
  induction nodes with
  | nil => rfl
  | cons node rest ih =>
    obtain ⟨found, hfnd⟩ := Option.isSome_iff_exists.mp (h node mem_cons_self)
    rw [anyOf, hfnd, Option.bind_some]
    split_ifs
    · rfl
    · exact ih fun node hnode => h node (mem_cons_of_mem _ hnode)

theorem builtinArgument_mem {body node : AstNode} {builtin : Text × AstNode}
    (h : builtinArgument node = some builtin) : builtin.2 ∈ successors body node := by
  unfold builtinArgument at h
  split at h
  · cases h
    exact mem_singleton_self _
  · cases h

section Walks

variable {c : Checker} {fuel : ℕ} {node : AstNode}

theorem isSome_isPlainScalar
    (h : ∀ b ∈ successors c.body node, (expressionIsPlainScalar c fuel b).isSome) :
    (expressionIsPlainScalar c (fuel + 1) node).isSome := by
  rw [expressionIsPlainScalar.eq_def]
  dsimp only
  split
  · rfl
  · cases node with
    | label id value =>
      dsimp only
      split
      · rfl
      · rename_i initializer hinit
        split_ifs with hsame
        · rfl
        · exact h initializer (by simp [successors, hinit, hsame])
    | _ => rfl

theorem isSome_parameterBits
    (hscal : (expressionIsPlainScalar c (fuel + 1) node).isSome)
    (h : ∀ b ∈ successors c.body node, (returnExpressionParameterBits c fuel b).isSome) :
    (returnExpressionParameterBits c (fuel + 1) node).isSome := by
  obtain ⟨isPlain, hpl⟩ : ∃ isPlain, (if isLabelOrMember node then
      expressionIsPlainScalar c (fuel + 1) node else some false) = some isPlain := by
    split_ifs
    · exact Option.isSome_iff_exists.mp hscal
    · exact ⟨false, rfl⟩
  rw [returnExpressionParameterBits.eq_def]
  dsimp only
  rw [hpl, Option.bind_some]
  cases isPlain with
  | true => rfl
  | false =>
    rw [if_neg Bool.false_ne_true]
    cases node with
    | label id value =>
      dsimp only
      split
      · rfl
      · split
        · rfl
        · rename_i initializer hinit
          split_ifs with hsame
          · rfl
          · exact h initializer (by simp [successors, hinit, hsame])
    | member id object name => exact h _ (mem_singleton_self _)
    | index id left index => exact h _ (mem_singleton_self _)
    | postfixExpression id isCaret left =>
      dsimp only
      split_ifs with hcaret
      · rfl
      · exact h left (by simp [successors, hcaret])
    | structValue id values => exact isSome_joinBits h
    | arrayValue id elements => exact isSome_joinBits h
    | mapValue id keys values => exact isSome_joinBits h
    | call id function arguments =>
      dsimp only
      split
      · rename_i builtin hbuiltin
        exact h _ (builtinArgument_mem (Option.filter_eq_some_iff.mp hbuiltin).1)
      · by_cases htagged : c.isTaggedEnumVariantCall (.call id function arguments) = true
        · rw [if_pos htagged]
          exact isSome_joinBits h
        · rw [if_neg htagged]
          split
          · split_ifs
            · exact isSome_joinBits h
            · rfl
          · split_ifs
            · rfl
            · refine isSome_joinBits fun b hb => h b ?_
              rw [unzip_fst] at hb
              obtain ⟨argument, harg, rfl⟩ := mem_map.mp hb
              have hmem := mem_of_mem_take (mem_of_mem_take
                (mem_of_mem_filter harg))
              exact fst_mem_of_mem_zipIdx hmem
    | _ => rfl

theorem isSome_returnExpressionPointsToConst
    (h : ∀ b ∈ successors c.body node, (returnExpressionPointsToConst c fuel b).isSome) :
    (returnExpressionPointsToConst c (fuel + 1) node).isSome := by
  rw [returnExpressionPointsToConst.eq_def]
  cases node with
  | label id value =>
    dsimp only
    split
    · rfl
    · rename_i initializer hinit
      split_ifs with hsame
      · rfl
      · exact h initializer (by simp [successors, hinit, hsame])
  | structValue id values => exact isSome_anyOf h
  | arrayValue id elements => exact isSome_anyOf h
  | mapValue id keys values =>
    exact isSome_anyOf fun b hb => h b (mem_append_right _ hb)
  | call id function arguments =>
    dsimp only
    split_ifs
    · exact isSome_anyOf h
    · split
      · rename_i builtin hbuiltin
        split_ifs
        · rfl
        · exact h _ (builtinArgument_mem (Option.filter_eq_some_iff.mp hbuiltin).1)
      · split <;> rfl
  | _ => rfl

end Walks

theorem eventually_of_acc {body : AstNode} {P : ℕ → AstNode → Prop}
    (hstep : ∀ n node, (∀ b ∈ successors body node, P n b) → P (n + 1) node) {node : AstNode}
    (h : Acc (fun b a => b ∈ successors body a) node) : ∃ N, ∀ n ≥ N, P n node := by
  have hcommon : ∀ l : List AstNode, (∀ b ∈ l, ∃ N, ∀ n ≥ N, P n b) →
      ∃ N, ∀ n ≥ N, ∀ b ∈ l, P n b := by
    intro l hl
    induction l with
    | nil => exact ⟨0, fun _ _ => nofun⟩
    | cons b rest ih =>
      obtain ⟨N, hN⟩ := hl b mem_cons_self
      obtain ⟨M, hM⟩ := ih fun b hb => hl b (mem_cons_of_mem _ hb)
      refine ⟨max N M, fun n hn => forall_mem_cons.mpr ⟨hN n ?_, hM n ?_⟩⟩
      · exact (le_max_left N M).trans hn
      · exact (le_max_right N M).trans hn
  induction h with
  | intro node _ ih =>
    obtain ⟨N, hN⟩ := hcommon (successors body node) ih
    refine ⟨N + 1, fun n hn => ?_⟩
    obtain ⟨m, rfl⟩ : ∃ m, n = m + 1 := ⟨n - 1, by omega⟩
    exact hstep m node (hN m (by omega))

/-! ### Names that are mentioned -/

mutual

/-- The labels that a walk comes to in an expression. Under a member or an index, dereferences are
stepped over. -/
@[grind =] def mentioned (isStripped : Bool) : AstNode → List (ℕ × Text)
  | .label id value => [(id, value)]
  | .member _ object _ => mentioned true object
  | .index _ left _ => mentioned true left
  | .postfixExpression _ isCaret left =>
    if isCaret then (if isStripped then mentioned true left else []) else mentioned false left
  | .structValue _ values => mentionedIn values
  | .arrayValue _ elements => mentionedIn elements
  | .mapValue _ keys values => mentionedIn keys ++ mentionedIn values
  | .call _ _ arguments => mentionedIn arguments
  | _ => []

@[grind =] def mentionedIn : List AstNode → List (ℕ × Text)
  | [] => []
  | node :: rest => mentioned false node ++ mentionedIn rest

end

mutual

def declaredNames : AstNode → List Text
  | .variableDeclaration name value => name :: declaredNames value
  | .block statements => declaredNamesIn statements
  | .ifStatement _ consequence otherwise => declaredNames consequence ++ declaredNames otherwise
  | .whenStatement _ bodies defaultBody => declaredNamesIn bodies ++ declaredNames defaultBody
  | .loopStatement _ _ body => declaredNames body
  | _ => []

def declaredNamesIn : List AstNode → List Text
  | [] => []
  | statement :: rest => declaredNames statement ++ declaredNamesIn rest

end

/-- The declaration that `local_initializer` finds for a name mentions another one, at a label that
is not itself the value of a declaration. -/
def Mentions (body : AstNode) (name other : Text) : Prop :=
  ∃ initializer, localInitializer name body = some initializer ∧
    ∃ id, (id, other) ∈ mentioned false initializer ∧
      ∀ next, localInitializer other body = some next → next.identity ≠ some id

/-- A name is mentioned by its own declaration, or by those of the names that it mentions. -/
def Cyclic (body : AstNode) : Prop := ∃ name, Relation.TransGen (Mentions body) name name

mutual

theorem mem_declared {name : Text} {initializer : AstNode} :
    ∀ node, localInitializer name node = some initializer → name ∈ declaredNames node
  | .variableDeclaration other value, h => by
    rw [localInitializer] at h
    rw [declaredNames, mem_cons]
    split_ifs at h with heq
    · exact .inl heq.symm
    · exact .inr (mem_declared value h)
  | .block statements, h => by
    rw [localInitializer] at h
    rw [declaredNames]
    exact mem_declaredNamesIn statements h
  | .ifStatement _ consequence otherwise, h => by
    rw [localInitializer, Option.or_eq_some_iff] at h
    rw [declaredNames, mem_append]
    rcases h with h | ⟨-, h⟩
    · exact .inl (mem_declared consequence h)
    · exact .inr (mem_declared otherwise h)
  | .whenStatement _ bodies defaultBody, h => by
    rw [localInitializer, Option.or_eq_some_iff] at h
    rw [declaredNames, mem_append]
    rcases h with h | ⟨-, h⟩
    · exact .inl (mem_declaredNamesIn bodies h)
    · exact .inr (mem_declared defaultBody h)
  | .loopStatement _ _ body, h => by
    rw [localInitializer] at h
    rw [declaredNames]
    exact mem_declared body h
  | .null, h | .label _ _, h | .member _ _ _, h | .index _ _ _, h | .postfixExpression _ _ _, h
  | .structValue _ _, h | .arrayValue _ _, h | .mapValue _ _ _, h | .call _ _ _, h
  | .otherExpression _ _, h | .otherStatement _, h => by
    simp [localInitializer] at h

theorem mem_declaredNamesIn {name : Text} {initializer : AstNode} :
    ∀ statements, firstInitializer name statements = some initializer →
      name ∈ declaredNamesIn statements
  | [], h => by simp [firstInitializer] at h
  | statement :: rest, h => by
    rw [firstInitializer, Option.or_eq_some_iff] at h
    rw [declaredNamesIn, mem_append]
    rcases h with h | ⟨-, h⟩
    · exact .inl (mem_declared statement h)
    · exact .inr (mem_declaredNamesIn rest h)

end

theorem mem_mentionedIn {entry : ℕ × Text} {nodes : List AstNode} :
    entry ∈ mentionedIn nodes ↔ ∃ node ∈ nodes, entry ∈ mentioned false node := by
  induction nodes with
  | nil => simp [mentionedIn]
  | cons node rest ih => simp [mentionedIn, ih]

theorem mentioned_stripCarets (node : AstNode) :
    mentioned false node.stripCarets = mentioned true node := by
  fun_induction AstNode.stripCarets node with
  | case1 id left ih => simp [mentioned, ih]
  | case2 id isCaret left h => simp [mentioned, h]
  | case3 node h =>
    cases node with
    | postfixExpression id isCaret left => exact absurd rfl (h id isCaret left)
    | _ => simp [mentioned]

theorem sizeOf_stripCarets_le (node : AstNode) : sizeOf node.stripCarets ≤ sizeOf node := by
  fun_induction AstNode.stripCarets node with
  | case1 id left ih =>
    rw [AstNode.postfixExpression.sizeOf_spec]
    omega
  | case2 => exact le_rfl
  | case3 => exact le_rfl

theorem successors_cases {body node b : AstNode} (hb : b ∈ successors body node) :
    (mentioned false b ⊆ mentioned false node ∧ sizeOf b < sizeOf node) ∨
      ∃ id name, node = .label id name ∧ localInitializer name body = some b ∧
        b.identity ≠ some id := by
  have hlist : ∀ {nodes : List AstNode}, b ∈ nodes → mentioned false b ⊆ mentionedIn nodes :=
    fun h entry hent => mem_mentionedIn.mpr ⟨b, h, hent⟩
  cases node with
  | label id value =>
    obtain ⟨hinit, hoth⟩ := Option.filter_eq_some_iff.mp (Option.mem_toList.mp hb)
    exact .inr ⟨id, value, rfl, hinit, of_decide_eq_true hoth⟩
  | member id object name =>
    rw [mem_singleton.mp hb]
    have hle := sizeOf_stripCarets_le object
    refine .inl ⟨?_, by rw [AstNode.member.sizeOf_spec]; omega⟩
    rw [mentioned_stripCarets, mentioned]
    exact List.Subset.refl _
  | index id left index =>
    rw [mem_singleton.mp hb]
    have hle := sizeOf_stripCarets_le left
    refine .inl ⟨?_, by rw [AstNode.index.sizeOf_spec]; omega⟩
    rw [mentioned_stripCarets, mentioned]
    exact List.Subset.refl _
  | postfixExpression id isCaret left =>
    rw [successors] at hb
    split_ifs at hb with hcaret
    · exact absurd hb not_mem_nil
    · rw [mem_singleton.mp hb]
      refine .inl ⟨?_, by rw [AstNode.postfixExpression.sizeOf_spec]; omega⟩
      rw [mentioned, if_neg hcaret]
      exact List.Subset.refl _
  | structValue id values =>
    have hlt := sizeOf_lt_of_mem hb
    refine .inl ⟨by rw [mentioned]; exact hlist hb, ?_⟩
    rw [AstNode.structValue.sizeOf_spec]
    exact hlt.trans (by simp only [successors]; omega)
  | arrayValue id elements =>
    have hlt := sizeOf_lt_of_mem hb
    refine .inl ⟨by rw [mentioned]; exact hlist hb, ?_⟩
    rw [AstNode.arrayValue.sizeOf_spec]
    exact hlt.trans (by simp only [successors]; omega)
  | mapValue id keys values =>
    rw [successors, mem_append] at hb
    left
    rw [mentioned, AstNode.mapValue.sizeOf_spec]
    rcases hb with hb | hb
    · have hlt := sizeOf_lt_of_mem hb
      exact ⟨List.Subset.trans (hlist hb) (subset_append_left _ _), by omega⟩
    · have hlt := sizeOf_lt_of_mem hb
      exact ⟨List.Subset.trans (hlist hb) (subset_append_right _ _), by omega⟩
  | call id function arguments =>
    have hlt := sizeOf_lt_of_mem hb
    refine .inl ⟨by rw [mentioned]; exact hlist hb, ?_⟩
    rw [AstNode.call.sizeOf_spec]
    exact hlt.trans (by simp only [successors]; omega)
  | _ => exact absurd hb not_mem_nil

/-! ### The walks end -/

theorem acc_of_mentioned {body node : AstNode}
    (h : ∀ id name, (id, name) ∈ mentioned false node → ∀ initializer,
      localInitializer name body = some initializer → initializer.identity ≠ some id →
        Acc (fun b a => b ∈ successors body a) initializer) :
    Acc (fun b a => b ∈ successors body a) node := by
  refine acc_of_smaller sizeOf (fun node => ∀ id name, (id, name) ∈ mentioned false node →
    ∀ initializer, localInitializer name body = some initializer → initializer.identity ≠ some id →
      Acc (fun b a => b ∈ successors body a) initializer) (fun a b ha hb => ?_) h
  rcases successors_cases hb with ⟨hsub, hlt⟩ | ⟨id, name, rfl, hinit, hoth⟩
  · exact .inl ⟨fun id name hname => ha id name (hsub hname), hlt⟩
  · exact .inr (ha id name (by simp [mentioned]) b hinit hoth)

theorem acc_of_not_cyclic {body : AstNode} (h : ¬ Cyclic body) (node : AstNode) :
    Acc (fun b a => b ∈ successors body a) node := by
  have hdecl : ∀ name : {name // name ∈ declaredNames body}, ∀ initializer,
      localInitializer name body = some initializer →
        Acc (fun b a => b ∈ successors body a) initializer := by
    have hfinite : Finite {name // name ∈ declaredNames body} := finite_toSet (declaredNames body)
    have hwf := @wellFounded_of_acyclic {name // name ∈ declaredNames body} hfinite
      (fun a b => Mentions body a b)
      fun i hi => h ⟨i, hi.lift Subtype.val fun _ _ hab => hab⟩
    intro name
    induction name using hwf.induction with
    | _ name ih =>
      intro initializer hinit
      refine acc_of_mentioned fun id other hoth next hnext hne => ?_
      refine ih ⟨other, mem_declared body hnext⟩
        (Relation.TransGen.single ⟨initializer, hinit, id, hoth, fun next' hnext' => ?_⟩) next
        hnext
      rw [hnext] at hnext'
      cases hnext'
      exact hne
  exact acc_of_mentioned fun _ name _ initializer hinit _ =>
    hdecl ⟨name, mem_declared body hinit⟩ initializer hinit

theorem walks_terminate {c : Checker} (h : ¬ Cyclic c.body) (node : AstNode) :
    ∃ N, ∀ fuel ≥ N, (expressionIsPlainScalar c fuel node).isSome ∧
      (returnExpressionParameterBits c fuel node).isSome ∧
      (returnExpressionPointsToConst c fuel node).isSome := by
  refine @eventually_of_acc c.body (fun fuel node => (expressionIsPlainScalar c fuel node).isSome ∧
    (returnExpressionParameterBits c fuel node).isSome ∧
    (returnExpressionPointsToConst c fuel node).isSome) (fun fuel node hsuccessors => ?_) node
    (acc_of_not_cyclic h node)
  have hscal := isSome_isPlainScalar fun b hb => (hsuccessors b hb).1
  exact ⟨hscal, isSome_parameterBits hscal fun b hb => (hsuccessors b hb).2.1,
    isSome_returnExpressionPointsToConst fun b hb => (hsuccessors b hb).2.2⟩

/-! ### Cyclic declarations -/

/-- A function without parameters, in which every call is one of a library function whose result is
a pointer, and nothing else has a type yet. -/
@[grind =] def pointerChecker (body : AstNode) : Checker where
  body := body
  parameters := []
  typeOf
    | .call _ _ _ => some .pointer
    | _ => none
  fieldIsPlainScalar _ _ := false
  isTaggedEnumVariantCall _ := false
  resolveCall _ := none
  isModuleLevelConst _ := false

theorem isSome_of_joinBits {walk : AstNode → Option (BitVec 64)} {nodes : List AstNode}
    (h : (joinBits walk nodes).isSome) {node : AstNode} (hnode : node ∈ nodes) :
    (walk node).isSome := by
  rw [joinBits] at h
  generalize (0 : BitVec 64) = bits at h
  induction nodes generalizing bits with
  | nil => exact absurd hnode not_mem_nil
  | cons first rest ih =>
    rw [foldlM_cons] at h
    cases hfst : walk first with
    | none => simp [hfst] at h
    | some more =>
      rcases mem_cons.mp hnode with rfl | hnode
      · rw [hfst]
        rfl
      · exact ih hnode _ (by simpa [hfst] using h)

section Cycles

variable {body : AstNode}

theorem isPlainScalar_ne_true (fuel : ℕ) (node : AstNode) :
    expressionIsPlainScalar (pointerChecker body) fuel node ≠ some true := by
  induction fuel generalizing node with
  | zero => exact nofun
  | succ fuel ih =>
    cases node with
    | label id value =>
      rw [expressionIsPlainScalar]
      simp only [pointerChecker, Option.filter_none]
      split
      · exact nofun
      · split_ifs
        · exact nofun
        · exact ih _
    | call id function arguments =>
      simp [expressionIsPlainScalar, pointerChecker, typeKindIsPlainScalar, Option.filter]
    | _ => simp [expressionIsPlainScalar, pointerChecker]

theorem exists_lt_of_label {fuel id : ℕ} {name : Text} {next : AstNode}
    (h : (returnExpressionParameterBits (pointerChecker body) fuel (.label id name)).isSome)
    (hnext : localInitializer name body = some next) (hne : next.identity ≠ some id) :
    ∃ m < fuel, (returnExpressionParameterBits (pointerChecker body) m next).isSome := by
  cases fuel with
  | zero => exact nomatch h
  | succ fuel =>
    refine ⟨fuel, Nat.lt_succ_self _, ?_⟩
    have hscal := @isPlainScalar_ne_true body (fuel + 1) (.label id name)
    rw [returnExpressionParameterBits,
      if_pos (show isLabelOrMember (.label id name) = true from rfl)] at h
    cases hpl : expressionIsPlainScalar (pointerChecker body) (fuel + 1) (.label id name) with
    | none => simp [hpl] at h
    | some isPlain =>
      cases isPlain with
      | true => exact absurd hpl hscal
      | false =>
        simp only [hpl, Option.bind_some, Bool.false_eq_true, if_false] at h
        simpa [pointerChecker, hnext, hne] using h

theorem exists_le_of_mentioned {fuel : ℕ} {node : AstNode} {entry : ℕ × Text}
    (h : (returnExpressionParameterBits (pointerChecker body) fuel node).isSome)
    (hent : entry ∈ mentioned false node) : ∃ m ≤ fuel,
      (returnExpressionParameterBits (pointerChecker body) m (.label entry.1 entry.2)).isSome := by
  induction fuel generalizing node with
  | zero => exact nomatch h
  | succ fuel ih =>
    have hlater : ∀ {next : AstNode}, (returnExpressionParameterBits (pointerChecker body) fuel
        next).isSome → entry ∈ mentioned false next → ∃ m ≤ fuel + 1,
        (returnExpressionParameterBits (pointerChecker body) m
          (.label entry.1 entry.2)).isSome := by
      intro next hnext hin
      obtain ⟨m, hm, hsome⟩ := ih hnext hin
      exact ⟨m, by omega, hsome⟩
    have hlist : ∀ {nodes : List AstNode}, (joinBits (returnExpressionParameterBits
        (pointerChecker body) fuel) nodes).isSome → entry ∈ mentionedIn nodes → ∃ m ≤ fuel + 1,
        (returnExpressionParameterBits (pointerChecker body) m
          (.label entry.1 entry.2)).isSome := by
      intro nodes hnodes hin
      obtain ⟨next, hmem, hnext⟩ := mem_mentionedIn.mp hin
      exact hlater (isSome_of_joinBits hnodes hmem) hnext
    cases node with
    | label id value =>
      rw [mentioned, mem_singleton] at hent
      rw [hent]
      exact ⟨fuel + 1, le_rfl, h⟩
    | member id object name =>
      rw [mentioned, ← mentioned_stripCarets] at hent
      refine @hlater object.stripCarets ?_ hent
      simpa [returnExpressionParameterBits, isLabelOrMember, expressionIsPlainScalar,
        pointerChecker] using h
    | index id left index =>
      rw [mentioned, ← mentioned_stripCarets] at hent
      exact hlater (by simpa [returnExpressionParameterBits, isLabelOrMember] using h) hent
    | postfixExpression id isCaret left =>
      rw [mentioned] at hent
      cases isCaret with
      | true => simp at hent
      | false =>
        exact hlater (by simpa [returnExpressionParameterBits, isLabelOrMember] using h)
          (by simpa using hent)
    | structValue id values =>
      rw [mentioned] at hent
      exact hlist (by simpa [returnExpressionParameterBits, isLabelOrMember] using h) hent
    | arrayValue id elements =>
      rw [mentioned] at hent
      exact hlist (by simpa [returnExpressionParameterBits, isLabelOrMember] using h) hent
    | mapValue id keys values =>
      have hin : entry ∈ mentionedIn (keys ++ values) := by
        rw [mentioned, mem_append, mem_mentionedIn, mem_mentionedIn] at hent
        rw [mem_mentionedIn]
        rcases hent with ⟨next, hmem, hnext⟩ | ⟨next, hmem, hnext⟩
        · exact ⟨next, mem_append_left _ hmem, hnext⟩
        · exact ⟨next, mem_append_right _ hmem, hnext⟩
      exact hlist (by simpa [returnExpressionParameterBits, isLabelOrMember] using h) hin
    | call id function arguments =>
      rw [mentioned] at hent
      rw [returnExpressionParameterBits, if_neg (by simp [isLabelOrMember]), Option.bind_some,
        if_neg Bool.false_ne_true] at h
      split at h
      · rename_i builtin hbuiltin
        have harg := (Option.filter_eq_some_iff.mp hbuiltin).1
        unfold builtinArgument at harg
        split at harg
        · rename_i hcall
          cases hcall
          cases harg
          simp only [mentionedIn, append_nil] at hent
          exact hlater h hent
        · cases harg
      · exact hlist (by simpa [pointerChecker, typeCarriesPointer] using h) hent
    | _ => simp [mentioned] at hent

theorem exists_lt_of_transGen {name other : Text} (h : Relation.TransGen (Mentions body) name other)
    {initializer next : AstNode} (hinit : localInitializer name body = some initializer)
    (hnext : localInitializer other body = some next) {fuel : ℕ}
    (hsome : (returnExpressionParameterBits (pointerChecker body) fuel initializer).isSome) :
    ∃ m < fuel, (returnExpressionParameterBits (pointerChecker body) m next).isSome := by
  have hstep : ∀ {name other : Text}, Mentions body name other → ∀ {initializer next : AstNode},
      localInitializer name body = some initializer → localInitializer other body = some next →
      ∀ {fuel : ℕ}, (returnExpressionParameterBits (pointerChecker body) fuel initializer).isSome →
        ∃ m < fuel, (returnExpressionParameterBits (pointerChecker body) m next).isSome := by
    intro name other hmentions initializer next hinit hnext fuel hsome
    obtain ⟨initializer', hinit', id, hoth, hne⟩ := hmentions
    rw [hinit] at hinit'
    cases hinit'
    obtain ⟨m, hm, hlab⟩ := exists_le_of_mentioned hsome hoth
    obtain ⟨m', hm', hlast⟩ := exists_lt_of_label hlab hnext (hne next hnext)
    exact ⟨m', by omega, hlast⟩
  induction h generalizing next with
  | single hmentions => exact hstep hmentions hinit hnext hsome
  | tail _ hmentions ih =>
    obtain ⟨middle, hmid, -⟩ := id hmentions
    obtain ⟨m, hm, hsome'⟩ := ih hmid
    obtain ⟨m', hm', hlast⟩ := hstep hmentions hmid hnext hsome'
    exact ⟨m', by omega, hlast⟩

theorem parameterBits_of_cycle {name : Text}
    (h : Relation.TransGen (Mentions body) name name) {initializer : AstNode}
    (hinit : localInitializer name body = some initializer) (fuel : ℕ) :
    returnExpressionParameterBits (pointerChecker body) fuel initializer = none := by
  induction fuel using Nat.strong_induction_on with
  | _ fuel ih =>
    by_contra hne
    obtain ⟨m, hm, hsome⟩ := exists_lt_of_transGen h hinit hinit (Option.isSome_iff_ne_none.mpr hne)
    rw [ih m hm] at hsome
    exact nomatch hsome

end Cycles

/-- The walks end on every expression, whatever the checker knows of types and of the functions
that are called, exactly if the declarations are not cyclic. -/
theorem walks_terminate_iff (body : AstNode) :
    (∀ c : Checker, c.body = body → ∀ node, ∃ N, ∀ fuel ≥ N,
      (expressionIsPlainScalar c fuel node).isSome ∧
        (returnExpressionParameterBits c fuel node).isSome ∧
        (returnExpressionPointsToConst c fuel node).isSome) ↔ ¬ Cyclic body := by
  constructor
  · rintro hterm ⟨name, hcycle⟩
    obtain ⟨initializer, hinit⟩ : ∃ initializer, localInitializer name body = some initializer := by
      cases hcycle using Relation.TransGen.head_induction_on with
      | single h => exact ⟨_, h.choose_spec.1⟩
      | head h => exact ⟨_, h.choose_spec.1⟩
    obtain ⟨N, hN⟩ := hterm (pointerChecker body) rfl initializer
    have hsome := (hN N le_rfl).2.1
    rw [parameterBits_of_cycle hcycle hinit] at hsome
    exact nomatch hsome
  · rintro h c rfl node
    exact walks_terminate h node

/-! ### Scopes -/

/-- The names in scope behind a statement of a block. -/
def scopeAfter (scope : List Text) : AstNode → List Text
  | .variableDeclaration name _ => name :: scope
  | _ => scope

mutual

/-- Each use of a name is in the scope of a declaration of it, where `scope` is what is declared
around the node. The name of a function that is called is no use of a variable. -/
def isScoped (scope : List Text) : AstNode → Bool
  | .null => true
  | .label _ value => value ∈ scope
  | .member _ object _ => isScoped scope object
  | .index _ left position => isScoped scope left && isScoped scope position
  | .postfixExpression _ _ left => isScoped scope left
  | .structValue _ values => areScoped scope values
  | .arrayValue _ elements => areScoped scope elements
  | .mapValue _ keys values => areScoped scope keys && areScoped scope values
  | .call _ _ arguments => areScoped scope arguments
  | .otherExpression _ operands => areScoped scope operands
  | .variableDeclaration _ value => isScoped scope value
  | .block statements => isBlockScoped scope statements
  | .ifStatement condition consequence otherwise =>
    isScoped scope condition && isScoped scope consequence && isScoped scope otherwise
  | .whenStatement value bodies defaultBody =>
    isScoped scope value && areScoped scope bodies && isScoped scope defaultBody
  | .loopStatement loopVariables heads body =>
    areScoped scope heads && isScoped (loopVariables ++ scope) body
  | .otherStatement operands => areScoped scope operands

def areScoped (scope : List Text) : List AstNode → Bool
  | [] => true
  | node :: rest => isScoped scope node && areScoped scope rest

/-- The statements of a block, each in the scope of the declarations in front of it. -/
def isBlockScoped (scope : List Text) : List AstNode → Bool
  | [] => true
  | statement :: rest =>
    isScoped scope statement && isBlockScoped (scopeAfter scope statement) rest

end

/-- `if a { mut x = y } if b { mut y = x } return x`. -/
def shadowingBody : AstNode := .block [
    .ifStatement (.label 4 (bytes "a"))
      (.block [.variableDeclaration (bytes "x") (.label 1 (bytes "y"))]) .null,
    .ifStatement (.label 5 (bytes "b"))
      (.block [.variableDeclaration (bytes "y") (.label 2 (bytes "x"))]) .null,
    .otherStatement [.label 3 (bytes "x")]]

/-- The variables `a`, `b`, `x` and `y` of the module are in scope, and the walk from the returned
`x` does not end. -/
theorem walk_of_shadowingBody :
    isScoped [bytes "a", bytes "b", bytes "x", bytes "y"] shadowingBody = true ∧
      ∀ fuel, returnExpressionParameterBits (pointerChecker shadowingBody) fuel
        (.label 3 (bytes "x")) = none := by
  have hx : localInitializer (bytes "x") shadowingBody = some (.label 1 (bytes "y")) := rfl
  have hy : localInitializer (bytes "y") shadowingBody = some (.label 2 (bytes "x")) := rfl
  have hxy : Mentions shadowingBody (bytes "x") (bytes "y") := by
    refine ⟨_, hx, 1, by simp [mentioned], fun next hnext => ?_⟩
    rw [hy] at hnext
    cases hnext
    decide
  have hyx : Mentions shadowingBody (bytes "y") (bytes "x") := by
    refine ⟨_, hy, 2, by simp [mentioned], fun next hnext => ?_⟩
    rw [hx] at hnext
    cases hnext
    decide
  refine ⟨by decide, fun fuel => ?_⟩
  by_contra hne
  obtain ⟨m, -, hsome⟩ := exists_lt_of_label (Option.isSome_iff_ne_none.mpr hne) hx (by decide)
  rw [parameterBits_of_cycle ((Relation.TransGen.single hxy).tail hyx) hx] at hsome
  exact nomatch hsome

end Grayscale.LocalInitializers
