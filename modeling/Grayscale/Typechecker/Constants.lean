import Grayscale.Library.OpenAddressing
import Grayscale.Typechecker.LiteralExact

/-!
# The table of constants

The checker keeps every immutable integer constant that it folds in one table of the program, by
its bare name: those of all files in a first pass, and those of all files and all function bodies
again when it checks their declarations. A name of an expression folds to the first constant that
was registered under it, wherever the expression stands.
-/

namespace Grayscale

open List

/-! ### Declarations and scopes -/

/-- The types that the checker has resolved for the steps of an expression: sized integer types
only. -/
structure TypeTable where
  get : ConstantExpression → Option IntegerType
  sized : ∀ e type, get e = some type → integerTypeBits type.name ≠ 0

/-- The types of an expression that is not resolved yet. -/
def TypeTable.empty : TypeTable := ⟨fun _ => none, fun _ _ h => by cases h⟩

/-- A variable declaration: what the table of constants depends on, and the resolved types of its
initializer. -/
structure VariableDeclaration where
  name : Text
  isMutable : Bool
  isSynthetic : Bool
  typeName : Option Text
  value : Option ConstantExpression
  valueTypes : TypeTable

def isIntegerTypeName (typeName : Text) : Bool := integerTypeNameWidthRank typeName != 0

/-- The initializer of an immutable integer constant, declared with its type or without one. -/
def VariableDeclaration.constant (d : VariableDeclaration) : Option ConstantExpression :=
  if d.isMutable || !d.typeName.all isIntegerTypeName then none else d.value

/-- A statement of a function body. A block binds the names of its loop or its branch. -/
inductive BodyStatement
  | declaration (d : VariableDeclaration)
  | fold (e : ConstantExpression) (types : TypeTable)
  | block (bound : List Text) (body : List BodyStatement)

/-- A function, or a function of a struct: its parameters and its body. -/
structure Routine where
  parameters : List Text
  body : List BodyStatement

/-- A file: its path, its module and the modules that it uses. -/
structure SourceFile where
  path : Text
  moduleName : Text
  usings : List Text

/-- A declaration at file scope: a variable, or functions. -/
inductive FileBody
  | variable (d : VariableDeclaration)
  | routines (l : List Routine)

structure FileDeclaration where
  file : SourceFile
  name : Text
  isPrivate : Bool
  body : FileBody

/-- A program: its declarations in the order of the merged files, and the generic functions that
are checked again for their instantiations. -/
structure Program where
  declarations : List FileDeclaration
  instantiations : List FileDeclaration

/-- Where an expression stands: its file, and the names bound around it, the innermost first. A
local constant comes with its initializer. -/
structure Scope where
  file : SourceFile
  locals : List (Text × Option ConstantExpression)

/-- What the innermost binding of a name is: a constant comes with the bindings around it. -/
def resolveLocal : List (Text × Option ConstantExpression) → Text →
    Option (Option (List (Text × Option ConstantExpression) × ConstantExpression))
  | [], _ => none
  | (bound, constant) :: rest, name =>
    if bound = name then some (constant.map fun e => (rest, e)) else resolveLocal rest name

/-- The declaration of a name in a module, of those that a file can see. -/
def lookupModule (program : Program) (file : SourceFile) (name moduleName : Text) :
    Option FileDeclaration := program.declarations.find? fun d =>
    d.file.moduleName == moduleName && d.name == name && (!d.isPrivate || d.file.path == file.path)

def FileDeclaration.constant (d : FileDeclaration) : Option ConstantExpression :=
  match d.body with
  | .variable v => v.constant
  | .routines _ => none

/-- The immutable integer constant that a name denotes, as its initializer and where that stands:
the innermost local or parameter, then the module of the file, then the modules it uses. -/
def resolve (program : Program) (scope : Scope) (name : Text) :
    Option (Scope × ConstantExpression) :=
  match resolveLocal scope.locals name with
  | some found => found.map fun p => (⟨scope.file, p.1⟩, p.2)
  | none =>
    ((lookupModule program scope.file name scope.file.moduleName).or
        (scope.file.usings.findSome? (lookupModule program scope.file name))).bind fun d =>
      d.constant.map fun e => (⟨d.file, []⟩, e)

/-! ### The table -/

def scopeStringHash (string : Text) : UInt32 :=
  let hash := string.foldl (fun hash c => hash * 33 ^^^ c.toUInt32) (5381 : UInt32)
  let hash := hash ^^^ (hash >>> 16)
  let hash := hash * 0x7feb352d
  let hash := hash ^^^ (hash >>> 15)
  let hash := hash * 0x846ca68b
  hash ^^^ (hash >>> 16)

/-- A registered constant: its name and its value, and the declaration that registered it, which
the checker does not keep. -/
structure Registration where
  name : Text
  value : LiteralValue
  scope : Scope
  initializer : ConstantExpression

def registrationHashes (l : List Registration) : List ℕ :=
  l.map fun r => (scopeStringHash r.name).toNat

def constIntegerSlotInsert (slots : List ℕ) (name : Text) (index : ℕ) : List ℕ :=
  insertSlot slots (index + 1) slots.length
    ((scopeStringHash name).toNat &&& (slots.length - 1))

/-- The slots of all registrations from an index on. -/
def constIntegerSlotsInsert : List ℕ → ℕ → List Registration → List ℕ
  | slots, _, [] => slots
  | slots, index, r :: l =>
    constIntegerSlotsInsert (constIntegerSlotInsert slots r.name index) (index + 1) l

theorem indexed_constIntegerSlotInsert {slots : List ℕ} {l : List Registration}
    (h : Indexed slots (registrationHashes l)) (r : Registration)
    (hroom : l.length + 1 < slots.length) :
    Indexed (constIntegerSlotInsert slots r.name l.length) (registrationHashes (l ++ [r])) := by
  have hlen : (registrationHashes l).length = l.length := length_map _
  have hslot : (scopeStringHash r.name).toNat &&& (slots.length - 1) =
      slotAt slots (scopeStringHash r.name).toNat 0 := by
    obtain ⟨k, hk⟩ := h.isPowerOfTwo
    rw [slotAt, hk, Nat.and_two_pow_sub_one_eq_mod, Nat.add_zero]
  have hins := h.insertSlot (scopeStringHash r.name).toNat (by rwa [hlen])
  rw [hlen, ← hslot] at hins
  rwa [registrationHashes, map_append, map_singleton]

theorem length_insertSlot (slots : List ℕ) (value fuel slot : ℕ) :
    (insertSlot slots value fuel slot).length = slots.length := by
  induction fuel generalizing slot with
  | zero => rfl
  | succ fuel ih =>
    rw [insertSlot]
    split_ifs
    · exact List.length_set
    · exact ih _

theorem indexed_constIntegerSlotsInsert (l : List Registration) {slots : List ℕ}
    {before : List Registration} (h : Indexed slots (registrationHashes before))
    (hroom : before.length + l.length < slots.length) :
    Indexed (constIntegerSlotsInsert slots before.length l) (registrationHashes (before ++ l)) ∧
      (constIntegerSlotsInsert slots before.length l).length = slots.length := by
  induction l generalizing slots before with
  | nil =>
    rw [append_nil]
    exact ⟨h, rfl⟩
  | cons r l ih =>
    rw [length_cons] at hroom
    have hnext := indexed_constIntegerSlotInsert h r (by omega)
    have hlen : (constIntegerSlotInsert slots r.name before.length).length = slots.length :=
      length_insertSlot ..
    have hrest := ih hnext (by rw [length_append, length_singleton, hlen]; omega)
    rw [length_append, length_singleton, append_assoc, singleton_append, hlen] at hrest
    exact hrest

/-- The table: the registrations in their order, and the slots that index them. There are no slots
before the first registration. -/
structure ConstantTable where
  registrations : List Registration
  slots : List ℕ
  load : registrations.length * 2 ≤ slots.length
  indexed : slots ≠ [] → Indexed slots (registrationHashes registrations)

def ConstantTable.empty : ConstantTable := ⟨[], [], Nat.le_refl 0, fun h => (h rfl).elim⟩

/-- `find_const_integer`. -/
def ConstantTable.find (table : ConstantTable) (name : Text) : Option Registration :=
  if table.slots.isEmpty then none
  else
    (findSlot table.slots (fun i => table.registrations[i]?.any (·.name == name))
      table.slots.length ((scopeStringHash name).toNat &&& (table.slots.length - 1))).bind
        (table.registrations[·]?)

/-- The slots of `typechecker_register_const_integer`: twice as many when they are half full. -/
def ConstantTable.slotsAfter (table : ConstantTable) (r : Registration) : List ℕ :=
  if (table.registrations.length + 1) * 2 > table.slots.length then
    constIntegerSlotsInsert
      (replicate (if table.slots.length ≠ 0 then table.slots.length * 2 else 16) 0) 0
      (table.registrations ++ [r])
  else constIntegerSlotInsert table.slots r.name table.registrations.length

theorem ConstantTable.capacity_spec (table : ConstantTable)
    (h : (table.registrations.length + 1) * 2 > table.slots.length) :
    ∃ k, (if table.slots.length ≠ 0 then table.slots.length * 2 else 16) = 2 ^ k ∧
      (table.registrations.length + 1) * 2 ≤ 2 ^ k := by
  have hload := table.load
  split_ifs with hslt
  · obtain ⟨k, hk⟩ := (table.indexed (length_pos_iff.mp (Nat.pos_of_ne_zero hslt))).isPowerOfTwo
    refine ⟨k + 1, by rw [hk, Nat.pow_succ], ?_⟩
    rw [Nat.pow_succ, ← hk]
    omega
  · refine ⟨4, rfl, ?_⟩
    omega

theorem ConstantTable.slotsAfter_spec (table : ConstantTable) (r : Registration) :
    Indexed (table.slotsAfter r) (registrationHashes (table.registrations ++ [r])) ∧
      (table.registrations ++ [r]).length * 2 ≤ (table.slotsAfter r).length := by
  rw [length_append, length_singleton]
  unfold slotsAfter
  by_cases h : (table.registrations.length + 1) * 2 > table.slots.length
  · obtain ⟨k, hk, hle⟩ := table.capacity_spec h
    rw [if_pos h, hk]
    have hfr : Indexed (replicate (2 ^ k) 0) (registrationHashes []) := .replicate k
    have hins := indexed_constIntegerSlotsInsert (table.registrations ++ [r]) hfr (by
      rw [length_append, length_singleton, length_replicate, length_nil]
      omega)
    rw [length_replicate, nil_append, length_nil] at hins
    refine ⟨hins.1, ?_⟩
    rw [hins.2]
    exact hle
  · rw [if_neg h]
    rw [gt_iff_lt, Nat.not_lt] at h
    have hne : table.slots ≠ [] := fun hslt => by
      rw [hslt, length_nil] at h
      omega
    refine ⟨indexed_constIntegerSlotInsert (table.indexed hne) r (by omega), ?_⟩
    rw [constIntegerSlotInsert, length_insertSlot]
    exact h

/-- `typechecker_register_const_integer`. -/
def ConstantTable.register (table : ConstantTable) (r : Registration) : ConstantTable where
  registrations := table.registrations ++ [r]
  slots := table.slotsAfter r
  load := (table.slotsAfter_spec r).2
  indexed := fun _ => (table.slotsAfter_spec r).1
theorem ConstantTable.registrations_register (table : ConstantTable) (r : Registration) :
    (table.register r).registrations = table.registrations ++ [r] := rfl

theorem find?_range_getElem? {α : Type} (l : List α) (p : α → Bool) :
    ((List.range l.length).find? fun i => l[i]?.any p).bind (l[·]?) = l.find? p := by
  cases h : l.find? p with
  | none =>
    have hnone : (List.range l.length).find? (fun i => l[i]?.any p) = none := by
      rw [find?_eq_none]
      intro i hi hany
      rw [mem_range] at hi
      rw [getElem?_eq_getElem hi, Option.any_some] at hany
      exact find?_eq_none.mp h _ (getElem_mem hi) hany
    rw [hnone]
    rfl
  | some a =>
    obtain ⟨hp, i, hi, hget, hbef⟩ := find?_eq_some_iff_getElem.mp h
    have hsome : (List.range l.length).find? (fun i => l[i]?.any p) = some i := by
      rw [find?_range_eq_some]
      refine ⟨?_, mem_range.mpr hi, fun j hj => ?_⟩
      · rw [getElem?_eq_getElem hi, Option.any_some, hget]
        exact hp
      · rw [getElem?_eq_getElem (Nat.lt_trans hj hi), Option.any_some]
        exact hbef j hj
    rw [hsome, Option.bind_some, getElem?_eq_getElem hi, hget]

theorem ConstantTable.find_eq (table : ConstantTable) (name : Text) :
    table.find name = table.registrations.find? (·.name == name) := by
  unfold find
  by_cases hslt : table.slots = []
  · have hload := table.load
    rw [hslt, length_nil] at hload
    have hemp : table.registrations = [] := length_eq_zero_iff.mp (by omega)
    rw [hslt, hemp]
    rfl
  rw [if_neg (by simpa using hslt)]
  have hindexed := table.indexed hslt
  obtain ⟨k, hk⟩ := hindexed.isPowerOfTwo
  have hslot : (scopeStringHash name).toNat &&& (table.slots.length - 1) =
      slotAt table.slots (scopeStringHash name).toNat 0 := by
    rw [slotAt, hk, Nat.and_two_pow_sub_one_eq_mod, Nat.add_zero]
  rw [hslot, hindexed.slot_eq]
  · rw [registrationHashes, length_map]
    exact find?_range_getElem? _ _
  · intro i hi hmat
    rw [registrationHashes, length_map] at hi
    rw [getElem?_eq_getElem hi, Option.any_some, beq_iff_eq] at hmat
    simp only [registrationHashes, getElem_map, hmat]

/-! ### Values in a scope -/

/-- The value of an expression in a scope. A name has the value that the initializer of its constant
has where that stands. -/
inductive Evaluates (program : Program) : Scope → ConstantExpression → ℤ → Prop
  | label {scope scope' : Scope} {name : Text} {e : ConstantExpression} {a : ℤ}
    (hresolve : resolve program scope name = some (scope', e))
    (h : Evaluates program scope' e a) : Evaluates program scope (.label name) a
  | integerLiteral {scope : Scope} {literal : IntegerLiteral} :
    Evaluates program scope (.integerLiteral literal) (decimalNumber literal.literal)
  | prefixExpression {scope : Scope} {operator : TokenType} {right : ConstantExpression} {a b : ℤ}
    (hright : Evaluates program scope right a) (h : prefixValue operator a = some b) :
    Evaluates program scope (.prefixExpression operator right) b
  | infixExpression {scope : Scope} {operator : TokenType} {left right : ConstantExpression}
    {a b c : ℤ} (hleft : Evaluates program scope left a) (hright : Evaluates program scope right b)
    (h : infixValue operator a b = some c) :
    Evaluates program scope (.infixExpression left operator right) c

def labels : ConstantExpression → List Text
  | .label name => [name]
  | .prefixExpression _ right => labels right
  | .infixExpression left _ right => labels left ++ labels right
  | _ => []

/-- Whether a value is one that a step of an expression may have: below `2 ^ 320`, and in the range
of the type of the step. -/
def StepInBounds (types : TypeTable) (node : ConstantExpression) (a : ℤ) : Prop :=
  a.natAbs < 2 ^ literalBits ∧
    (isLiteralExpression node = false → ∀ type, types.get node = some type → type.InRange a)

/-- Every literal and every step of an expression is in bounds. -/
def InBounds (program : Program) (scope : Scope) (types : TypeTable) : ConstantExpression → Prop
  | .integerLiteral literal => decimalNumber literal.literal < 2 ^ literalBits
  | .prefixExpression operator right => InBounds program scope types right ∧
      ∀ a, Evaluates program scope (.prefixExpression operator right) a →
        StepInBounds types (.prefixExpression operator right) a
  | .infixExpression left operator right => InBounds program scope types left ∧
      InBounds program scope types right ∧
      ∀ a, Evaluates program scope (.infixExpression left operator right) a →
        StepInBounds types (.infixExpression left operator right) a
  | _ => True

/-- The operators of an expression are those that fold exactly: a bitwise result takes at most 320
bits, and a shift count is in bounds. -/
def FoldsSafelyIn (program : Program) (scope : Scope) (types : TypeTable) :
    ConstantExpression → Prop
  | .prefixExpression _ right => FoldsSafelyIn program scope types right
  | .infixExpression left operator right => FoldsSafelyIn program scope types left ∧
      FoldsSafelyIn program scope types right ∧
      (operator = .bitAnd ∨ operator = .bitOr ∨ operator = .bitXor →
        ∀ a, Evaluates program scope (.infixExpression left operator right) a → FitsTwos a) ∧
      (operator = .bitShiftLeft ∨ operator = .bitShiftRight → InBounds program scope types right)
  | _ => True

/-! ### Folding in a scope -/

/-- What `constant_fold` reads of the checker. -/
def constantTables (table : ConstantTable) (types : TypeTable) : ConstantTables where
  findConstInteger name := (table.find name).map Registration.value
  typeTableGet := types.get

/-- The registered values are those of their initializers. -/
def ConstantTable.Sound (program : Program) (table : ConstantTable) : Prop :=
  ∀ r ∈ table.registrations, r.value.isTooLarge = false ∧ r.value.Normal ∧
    Evaluates program r.scope r.initializer r.value.toInt

/-- Each name that folds is the constant that it denotes. -/
def ConstantTable.Denotes (program : Program) (table : ConstantTable) (scope : Scope)
    (e : ConstantExpression) : Prop := ∀ name ∈ labels e, ∀ r, table.find name = some r →
    resolve program scope name = some (r.scope, r.initializer)

structure FoldsIn (program : Program) (scope : Scope) (types : TypeTable) (e : ConstantExpression)
    (v : LiteralValue) : Prop where
  evaluates : v.isTooLarge = false → Evaluates program scope e v.toInt
  small : InBounds program scope types e → v.isTooLarge = false
  normal : v.Normal

variable {v : LiteralValue}

theorem foldTyped_isTooLarge {tables : ConstantTables} {node : ConstantExpression}
    (h : (foldTyped (some tables) node v).isTooLarge = false) : v.isTooLarge = false := by
  unfold foldTyped at h
  dsimp only at h
  split_ifs at h
  · exact h
  · cases htype : tables.typeTableGet node with
    | none => rwa [htype] at h
    | some type =>
      rw [htype] at h
      dsimp only at h
      split_ifs at h
      exact h

theorem foldTyped_toInt (tables : ConstantTables) (node : ConstantExpression) (v : LiteralValue) :
    (foldTyped (some tables) node v).toInt = v.toInt := by
  unfold foldTyped
  dsimp only
  split_ifs
  · rfl
  · cases tables.typeTableGet node with
    | none => rfl
    | some type =>
      dsimp only
      split_ifs <;> rfl

theorem foldTyped_normal {tables : ConstantTables} {node : ConstantExpression} (h : v.Normal) :
    (foldTyped (some tables) node v).Normal := by
  unfold foldTyped
  dsimp only
  split_ifs
  · exact h
  · cases tables.typeTableGet node with
    | none => exact h
    | some type =>
      dsimp only
      split_ifs <;> exact h

variable {table : ConstantTable}

theorem foldTyped_small {types : TypeTable} {node : ConstantExpression} (hv : v.Normal)
    (hsml : v.isTooLarge = false) (h : StepInBounds types node v.toInt) :
    (foldTyped (some (constantTables table types)) node v).isTooLarge = false := by
  unfold foldTyped
  dsimp only
  by_cases hlit : isLiteralExpression node = true
  · rwa [if_pos hlit]
  rw [if_neg hlit, show (constantTables table types).typeTableGet node = types.get node from rfl]
  cases htype : types.get node with
  | none => exact hsml
  | some type =>
    dsimp only
    rw [if_pos]
    · exact hsml
    · exact (literalFits_iff hv hsml (types.sized node type htype)).mpr
        (h.2 (Bool.not_eq_true _ |>.mp hlit) type htype)

variable {program : Program}

theorem FoldsIn.of_operatorTo {scope : Scope} {types : TypeTable} {node : ConstantExpression}
    {large : Prop} {x : ℤ} (hv : OperatorTo v large x)
    (hx : ¬ large → Evaluates program scope node x)
    (hbnd : InBounds program scope types node → ¬ large ∧
      ∀ a, Evaluates program scope node a → StepInBounds types node a) :
    FoldsIn program scope types node (foldTyped (some (constantTables table types)) node v) := by
  refine ⟨fun hsml => ?_, fun hin => ?_, foldTyped_normal hv.normal⟩
  · have hmark := foldTyped_isTooLarge hsml
    rw [foldTyped_toInt, hv.toInt_eq hmark]
    refine hx fun hbig => ?_
    rw [hv.isTooLarge_iff.mpr (.inl hbig)] at hmark
    cases hmark
  · obtain ⟨hbig, hstep⟩ := hbnd hin
    have hin' := hstep x (hx hbig)
    have hsml : v.isTooLarge = false := by
      rw [← Bool.not_eq_true, hv.isTooLarge_iff, not_or, Nat.not_le]
      exact ⟨hbig, hin'.1⟩
    refine foldTyped_small hv.normal hsml ?_
    rwa [hv.toInt_eq hsml]

theorem constantFold_foldsIn (htab : table.Sound program) {scope : Scope} {types : TypeTable}
    {e : ConstantExpression} (hnam : table.Denotes program scope e)
    (hsafe : FoldsSafelyIn program scope types e)
    (h : constantFold (some (constantTables table types)) e = some v) :
    FoldsIn program scope types e v := by
  induction e generalizing v with
  | label name =>
    obtain ⟨r, hr, rfl⟩ := Option.map_eq_some_iff.mp h
    have hmem : r ∈ table.registrations := by
      rw [table.find_eq] at hr
      exact mem_of_find?_eq_some hr
    obtain ⟨hsml, hnorm, hval⟩ := htab r hmem
    exact ⟨fun _ => .label (hnam name (mem_singleton.mpr rfl) r hr) hval, fun _ => hsml, hnorm⟩
  | integerLiteral literal =>
    have hlit := foldIntegerLiteral_foldsTo literal
    rw [← Option.some.inj h]
    refine ⟨fun hsml => ?_, fun hin => ?_, hlit.normal⟩
    · rw [← Option.some.inj (hlit.exact_eq hsml)]
      exact .integerLiteral
    · rw [← Bool.not_eq_true, hlit.isTooLarge_iff, not_not]
      exact hin
  | prefixExpression operator right ih =>
    rw [constantFold, Option.map_eq_some_iff] at h
    obtain ⟨w, hw, rfl⟩ := h
    obtain ⟨r, hrgt, hw⟩ := Option.bind_eq_some_iff.mp hw
    have hr := ih hnam hsafe hrgt
    obtain ⟨x, hx, hoperator⟩ := foldPrefixOperator_operatorTo operator hw
    refine .of_operatorTo hoperator (fun hbig => ?_) fun hin => ⟨?_, hin.2⟩
    · exact .prefixExpression (hr.evaluates (Bool.not_eq_true _ |>.mp hbig)) hx
    · rw [hr.small hin.1]
      exact Bool.false_ne_true
  | infixExpression left operator right ihleft ihright =>
    rw [constantFold, Option.map_eq_some_iff] at h
    obtain ⟨w, hw, rfl⟩ := h
    obtain ⟨l, hleft, hw⟩ := Option.bind_eq_some_iff.mp hw
    obtain ⟨r, hrgt, hw⟩ := Option.bind_eq_some_iff.mp hw
    obtain ⟨hsafeleft, hsaferight, hbitwise, hshf⟩ := hsafe
    have hl := ihleft (fun name hname => hnam name (mem_append_left _ hname)) hsafeleft hleft
    have hr := ihright (fun name hname => hnam name (mem_append_right _ hname)) hsaferight
      hrgt
    obtain ⟨x, hx, hoperator⟩ := foldInfix_operatorTo operator hl.normal hr.normal
      (fun hop hleft hrgt => hbitwise hop _
        (.infixExpression (hl.evaluates hleft) (hr.evaluates hrgt)
          (by rcases hop with rfl | rfl | rfl <;> rfl)))
      (fun hop => hr.small (hshf hop)) hw
    refine .of_operatorTo hoperator (fun hbig => ?_) fun hin => ⟨?_, hin.2.2⟩
    · rw [not_or, Bool.not_eq_true, Bool.not_eq_true] at hbig
      exact .infixExpression (hl.evaluates hbig.1) (hr.evaluates hbig.2) hx
    · rw [hl.small hin.1, hr.small hin.2.1]
      simp
  | other => cases h
/-! ### The folds of a program -/

/-- A fold of the checker: an expression where it stands, its types, and the name that the result
is registered under, if it is the initializer of a constant. -/
structure FoldStep where
  scope : Scope
  types : TypeTable
  expression : ConstantExpression
  registers : Option Text

def FoldStep.fold (step : FoldStep) (table : ConstantTable) : Option LiteralValue :=
  constantFold (some (constantTables table step.types)) step.expression

/-- The table after a fold: a constant is registered if it is not too large. -/
def FoldStep.run (step : FoldStep) (table : ConstantTable) : ConstantTable :=
  match step.registers, step.fold table with
  | some name, some v =>
    if v.isTooLarge then table else table.register ⟨name, v, step.scope, step.expression⟩
  | _, _ => table

/-- `check_const_integer_value`: the fold of a declaration that is checked. -/
def checkConstIntegerValue (scope : Scope) (d : VariableDeclaration) : List FoldStep :=
  match d.typeName, d.value with
  | some typeName, some value =>
    if d.isMutable || !isIntegerTypeName typeName then []
    else [⟨scope, d.valueTypes, value, some d.name⟩]
  | _, _ => []

/-- `register_file_scope_const_integers`, for one declaration: no type is resolved yet. -/
def registerFileScopeConstInteger (d : FileDeclaration) : List FoldStep :=
  match d.body with
  | .variable v =>
    if v.isSynthetic then []
    else checkConstIntegerValue ⟨d.file, []⟩ { v with valueTypes := .empty }
  | .routines _ => []

/-- The scope after a statement: a declaration binds its name. -/
def BodyStatement.scopeAfter (scope : Scope) : BodyStatement → Scope
  | .declaration d => { scope with locals := (d.name, d.constant) :: scope.locals }
  | _ => scope

mutual

def statementSteps : BodyStatement → Scope → List FoldStep
  | .declaration d, scope => checkConstIntegerValue scope d
  | .fold e types, scope => [⟨scope, types, e, none⟩]
  | .block bound body, scope =>
    bodySteps body { scope with locals := (bound.map fun name => (name, none)) ++ scope.locals }

def bodySteps : List BodyStatement → Scope → List FoldStep
  | [], _ => []
  | s :: l, scope => statementSteps s scope ++ bodySteps l (s.scopeAfter scope)

end

def checkSteps (d : FileDeclaration) : List FoldStep :=
  match d.body with
  | .variable v => checkConstIntegerValue ⟨d.file, []⟩ v
  | .routines l => l.flatMap fun routine =>
      bodySteps routine.body ⟨d.file, routine.parameters.map fun name => (name, none)⟩

/-- The folds of a program, in the order of the passes of the checker. -/
def programSteps (program : Program) : List FoldStep :=
  program.declarations.flatMap registerFileScopeConstInteger ++
    (program.declarations.flatMap checkSteps ++ program.instantiations.flatMap checkSteps)

def runSteps (table : ConstantTable) : List FoldStep → ConstantTable
  | [] => table
  | step :: l => runSteps (step.run table) l

/-- Each fold of a list meets the conditions: every name that folds is the constant it denotes, and
the operators are safe. -/
def StepsMeet (program : Program) : ConstantTable → List FoldStep → Prop
  | _, [] => True
  | table, step :: l => (table.Denotes program step.scope step.expression ∧
      FoldsSafelyIn program step.scope step.types step.expression) ∧
    StepsMeet program (step.run table) l

theorem stepsMeet_append {l l' : List FoldStep} : StepsMeet program table (l ++ l') ↔
      StepsMeet program table l ∧ StepsMeet program (runSteps table l) l' := by
  induction l generalizing table with
  | nil => simp [StepsMeet, runSteps]
  | cons step l ih =>
    simp only [cons_append, StepsMeet, ih, runSteps, and_assoc]

theorem FoldStep.run_sound (htab : table.Sound program) {step : FoldStep}
    (hnam : table.Denotes program step.scope step.expression)
    (hsafe : FoldsSafelyIn program step.scope step.types step.expression) :
    (step.run table).Sound program := by
  unfold run
  cases step.registers with
  | none => exact htab
  | some name =>
    cases hfold : step.fold table with
    | none => exact htab
    | some v =>
      dsimp only
      split_ifs with hbig
      · exact htab
      · rw [Bool.not_eq_true] at hbig
        have hv := constantFold_foldsIn htab hnam hsafe hfold
        intro r hr
        rw [ConstantTable.registrations_register, mem_append, mem_singleton] at hr
        rcases hr with hr | rfl
        · exact htab r hr
        · exact ⟨hbig, hv.normal, hv.evaluates hbig⟩

theorem runSteps_sound (htab : table.Sound program) {l : List FoldStep}
    (h : StepsMeet program table l) : (runSteps table l).Sound program := by
  induction l generalizing table with
  | nil => exact htab
  | cons step l ih => exact ih (step.run_sound htab h.1.1 h.1.2) h.2

theorem Evaluates.resolve_labels {scope : Scope} {e : ConstantExpression} {a : ℤ}
    (h : Evaluates program scope e a) : ∀ name ∈ labels e, (resolve program scope name).isSome := by
  induction h with
  | label hres _ _ =>
    intro name hname
    rw [mem_singleton.mp hname, hres]
    rfl
  | integerLiteral => exact fun name hname => by cases hname
  | prefixExpression _ _ ih => exact ih
  | infixExpression _ _ _ ihleft ihright =>
    intro name hname
    rcases mem_append.mp hname with hname | hname
    · exact ihleft name hname
    · exact ihright name hname

def mainFile : SourceFile := ⟨bytes "main.gray", bytes "main", []⟩

/-- `const N i64 = 3`. -/
def constN : FileDeclaration where
  file := mainFile
  name := bytes "N"
  isPrivate := false
  body := .variable ⟨bytes "N", false, false, some (bytes "i64"),
    some (.integerLiteral (integerLiteralOf (bytes "3"))), .empty⟩

/-- A function that folds the name `N`, of a parameter. -/
def foldsN (parameter : Text) : FileDeclaration where
  file := mainFile
  name := bytes "f"
  isPrivate := false
  body := .routines [⟨[parameter], [.fold (.label (bytes "N")) .empty]⟩]

/-- The fold of `constN`. -/
def stepN : FoldStep :=
  ⟨⟨mainFile, []⟩, .empty, .integerLiteral (integerLiteralOf (bytes "3")), some (bytes "N")⟩

/-- The fold of `foldsN`. -/
def stepUse (parameter : Text) : FoldStep :=
  ⟨⟨mainFile, [(parameter, none)]⟩, .empty, .label (bytes "N"), none⟩

theorem programSteps_foldsN (parameter : Text) :
    programSteps ⟨[constN, foldsN parameter], []⟩ = [stepN, stepN] ++ stepUse parameter :: [] := rfl

end Grayscale
