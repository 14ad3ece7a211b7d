import Grayscale.Library.StructuredCode
import Grayscale.Util.Bytes

/-!
# Deferred calls

An `ensure` statement (`defer` is its alias) names a call that runs when the function is left. The
code generator writes the calls out at each exit: the value that is returned is stored in `_ret`,
the calls come next, the last one first, and then the arenas are released. Which calls belong to an
exit is a count of the `ensure` statements emitted before it, applied to the list of those in the
body; the type checker admits them at the top level of the body only.

The text of a call is emitted where the exit stands, inside every scope around it.
-/

namespace Grayscale.DeferredCalls

open StructuredCode

/-! ### Function bodies -/

/-- The call that an `ensure` statement defers, and the locals that it reads. -/
structure EnsureExpression where
  function : Text
  reads : List Text
  deriving DecidableEq

/-- The number of an arena that a statement opens for its body. -/
abbrev ArenaId := ℕ

/-- What a scope begins with: the names that its statement binds, and its arena, if it puts one on
`scope_arenas`. The analysis that decides this is not modelled. -/
structure ScopeEntry where
  names : List Text
  arena : Option ArenaId
  deriving DecidableEq

/-- Statements without statements in them. A `return` carries the number of its values; the end of
the body is where a function is left without one. -/
inductive SourceLeaf
  | declare (name : Text)
  | simple
  | ensure (expression : EnsureExpression)
  | return (count : ℕ)
  | endOfBody
  deriving DecidableEq

/-- Statements of a function body. -/
abbrev Statement := Code SourceLeaf ScopeEntry Text

/-- Statements in a row: a block that opens no scope, as a declaration of several variables is
parsed to. -/
def block {Leaf Scope Label : Type*} (statements : List (Code Leaf Scope Label)) :
    Code Leaf Scope Label := statements.foldr .sequence .skip

/-- A braced block that binds nothing. -/
def braces (body : Statement) : Statement := .scope ⟨[], none⟩ body

/-- `if` and `otherwise`; an `or` branch is an alternative that opens no arena. -/
def ifStatement (arena : Option ArenaId) (consequence alternative : Statement) : Statement :=
  .scope ⟨[], arena⟩ (.branch (braces consequence) (braces alternative))

/-- `when`: the cases, each with the names that its pattern binds, and the default. -/
def whenStatement (cases : List (List Text × Statement)) (default : Statement) : Statement :=
  cases.foldr (fun c rest => .branch (.scope ⟨c.1, none⟩ c.2) rest) (braces default)

/-- `for`, `for_each` and `while`, whose body shares its scope with the names they bind. -/
def loopStatement (label : Option Text) (names : List Text) (arena : Option ArenaId)
    (body : Statement) : Statement := .loop false label (.scope ⟨names, arena⟩ body)

/-- `loop`, which only a jump or a `return` leaves. -/
def endlessLoop (label : Option Text) (arena : Option ArenaId) (body : Statement) : Statement :=
  .loop true label (.scope ⟨[], arena⟩ body)

/-- `call() or_return`: the parser declares a temporary, returns the number of values on an error,
and declares the variables that the call is unwrapped into. -/
def orReturn (temporary : Text) (arena : Option ArenaId) (count : ℕ) (names : List Text) :
    Statement :=
  block (.leaf (.declare temporary) :: ifStatement arena (.leaf (.return count)) .skip ::
    names.map fun name => .leaf (.declare name))

/-- A function: its parameters and its body, and what the exits depend on. A returned value is
copied if its type says so (`copiesOut`, by the position in the list of return types). -/
structure FunctionDeclaration where
  parameters : List Text
  body : List Statement
  returnTypeCount : ℕ
  hasReturnNames : Bool
  isMain : Bool
  usesCallerArena : Bool
  usesWatermark : Bool
  needsScopeMark : Bool
  copiesOut : List ℕ
  deriving DecidableEq

/-- `check_no_nested_ensure`: whether no E3070 is reported. -/
def checkNoNestedEnsure : Bool → Statement → Bool
  | nested, .leaf (.ensure _) => !nested
  | _, .leaf _ | _, .skip | _, .jump _ _ => true
  | _, .sequence first second => checkNoNestedEnsure true first && checkNoNestedEnsure true second
  | _, .branch consequence alternative =>
    checkNoNestedEnsure true consequence && checkNoNestedEnsure true alternative
  | _, .loop _ _ body => checkNoNestedEnsure true body
  | _, .scope _ body => checkNoNestedEnsure true body

/-- The type checker admits the `ensure` statements of the body. -/
def FunctionDeclaration.accepted (f : FunctionDeclaration) : Bool :=
  f.body.all (checkNoNestedEnsure false)

/-! ### Meaning of a body -/

/-- The variable that a name denotes among the live locals, nearest first: its place, counted from
the outermost. -/
def denotes : List Text → Text → Option ℕ
  | [], _ => none
  | name :: outer, x => if name = x then some outer.length else denotes outer x

/-- An `ensure` statement that has been reached, with the locals that were live there. -/
structure Reached where
  expression : EnsureExpression
  scope : List Text
  deriving DecidableEq

/-- The live locals, nearest first, and the `ensure` statements reached, in their order. -/
structure SourceState where
  scope : List Text
  reached : List Reached
  deriving DecidableEq

/-- How a function is left. -/
inductive ExitKind
  | return (count : ℕ)
  | endOfBody
  deriving DecidableEq

/-- A function that is left, and the state it is left in. -/
structure Exit where
  kind : ExitKind
  state : SourceState
  deriving DecidableEq

/-- The meaning of the statements, as far as deferred calls are concerned. -/
def sourceMachine : Machine SourceLeaf ScopeEntry SourceState Exit where
  act s
    | .declare name => .inl { s with scope := name :: s.scope }
    | .simple => .inl s
    | .ensure e => .inl { s with reached := s.reached ++ [⟨e, s.scope⟩] }
    | .return count => .inr ⟨.return count, s⟩
    | .endOfBody => .inr ⟨.endOfBody, s⟩
  enter s e := { s with scope := e.names ++ s.scope }
  close s t := { t with scope := s.scope }

/-- The execution of a function that takes the decisions. -/
def FunctionDeclaration.run (f : FunctionDeclaration) (n : ℕ) (decisions : List Bool) :
    Option (Outcome SourceState Exit Text × List Bool) :=
  sourceMachine.run n ⟨f.parameters, []⟩ (block (f.body ++ [.leaf .endOfBody])) decisions

/-! ### Generated code -/

/-- What the code of an exit does: `_ret` is initialised, a deferred call runs, a part of `_ret` is
copied to the arena of the caller, an arena is released. -/
inductive ExitStep
  | compute
  | call (expression : EnsureExpression)
  | copyOut (position : ℕ)
  | releaseScratch (arena : ArenaId)
  | releaseFunctionArena
  | restoreScopeMark
  deriving DecidableEq

/-- Statements of the generated code without statements in them. -/
inductive CodeLeaf
  | declare (name : Text)
  | simple
  | exit (steps : List ExitStep)
  deriving DecidableEq

abbrev CStatement := Code CodeLeaf ScopeEntry Text

/-- `ensure_reached` and `scope_arenas` of the code generator, innermost first. -/
structure EmitState where
  ensureReached : ℕ
  scopeArenas : List ArenaId
  deriving DecidableEq

/-- `collect_ensures`: the `ensure` statements that stand in the block itself. -/
def collectEnsures (body : List Statement) : List EnsureExpression := body.filterMap fun
    | .leaf (.ensure e) => some e
    | _ => none

/-- `emit_ensure_cleanup`: the calls reached so far, the last one first. -/
def emitEnsureCleanup (f : FunctionDeclaration) (σ : EmitState) : List ExitStep :=
  let ensures := collectEnsures f.body
  (ensures.take (min σ.ensureReached ensures.length)).reverse.map .call

/-- `emit_scratch_arena_unwind`, less the guards of the loops. -/
def emitScratchArenaUnwind (σ : EmitState) : List ExitStep := σ.scopeArenas.map .releaseScratch

/-- `emit_function_return_escape` and `emit_multi_function_return_escape`. -/
def emitFunctionReturnEscape (f : FunctionDeclaration) (σ : EmitState) : List ExitStep :=
  if f.usesCallerArena then emitScratchArenaUnwind σ
  else f.copiesOut.map .copyOut ++ emitScratchArenaUnwind σ ++ [.releaseFunctionArena]

/-- The end of an exit without a value: the arenas of the scopes, and the mark if there is one. -/
def emitVoidExit (f : FunctionDeclaration) (σ : EmitState) : List ExitStep :=
  emitScratchArenaUnwind σ ++
    if f.usesCallerArena || !f.needsScopeMark then [] else [.restoreScopeMark]

def emitReturnStatement (f : FunctionDeclaration) (σ : EmitState) (count : ℕ) : List ExitStep :=
  let watermark := f.returnTypeCount > 0 && f.usesWatermark
  if count > 1 then
    [.compute] ++ emitEnsureCleanup f σ ++ emitFunctionReturnEscape f σ
  else if count = 1 ∧ f.returnTypeCount > 1 then
    [.compute] ++ emitEnsureCleanup f σ ++ emitFunctionReturnEscape f σ
  else if f.returnTypeCount = 0 then
    emitEnsureCleanup f σ ++ emitVoidExit f σ
  else if count = 1 then
    [.compute] ++ emitEnsureCleanup f σ ++
      if watermark then
        emitScratchArenaUnwind σ ++ if f.needsScopeMark then [.restoreScopeMark] else []
      else emitFunctionReturnEscape f σ
  else if f.hasReturnNames then
    [.compute] ++ emitEnsureCleanup f σ ++ emitFunctionReturnEscape f σ
  else
    emitEnsureCleanup f σ ++ emitVoidExit f σ

/-- The end of the body in `emit_function_declaration`. -/
def emitEndOfBody (f : FunctionDeclaration) (σ : EmitState) : List ExitStep :=
  emitEnsureCleanup f σ ++
    if f.isMain || f.usesCallerArena then []
    else if f.returnTypeCount = 0 || f.usesWatermark then
      if f.needsScopeMark then [.restoreScopeMark] else []
    else [.releaseFunctionArena]

/-- The code of a statement without statements in it, other than `ensure`. -/
def emitLeaf (f : FunctionDeclaration) (σ : EmitState) : SourceLeaf → CodeLeaf
  | .declare name => .declare name
  | .simple | .ensure _ => .simple
  | .return count => .exit (emitReturnStatement f σ count)
  | .endOfBody => .exit (emitEndOfBody f σ)

def emitStatement (f : FunctionDeclaration) : EmitState → Statement → CStatement × EmitState
  | σ, .leaf (.ensure _) => (.skip, { σ with ensureReached := σ.ensureReached + 1 })
  | σ, .leaf l => (.leaf (emitLeaf f σ l), σ)
  | σ, .skip => (.skip, σ)
  | σ, .jump isBreak label => (.jump isBreak label, σ)
  | σ, .sequence first second =>
    let (first, σ) := emitStatement f σ first
    let (second, σ) := emitStatement f σ second
    (.sequence first second, σ)
  | σ, .branch consequence alternative =>
    let (consequence, σ) := emitStatement f σ consequence
    let (alternative, σ) := emitStatement f σ alternative
    (.branch consequence alternative, σ)
  | σ, .loop endless label body =>
    let (body, σ) := emitStatement f σ body
    (.loop endless label body, σ)
  | σ, .scope e body =>
    let (body, σ') := emitStatement f { σ with scopeArenas := e.arena.toList ++ σ.scopeArenas } body
    (.scope e body, { σ' with scopeArenas := σ.scopeArenas })

def emitBlock (f : FunctionDeclaration) : EmitState → List Statement → List CStatement × EmitState
  | σ, [] => ([], σ)
  | σ, statement :: rest =>
    let (code, σ) := emitStatement f σ statement
    let (codes, σ) := emitBlock f σ rest
    (code :: codes, σ)

/-- The code of a function: its body, and the exit at its end. -/
def FunctionDeclaration.emit (f : FunctionDeclaration) : CStatement :=
  block (emitBlock f ⟨0, []⟩ (f.body ++ [.leaf .endOfBody])).1

/-! ### Meaning of the generated code -/

/-- What happens as a function is left; a call runs with the variables that its names denote. -/
inductive Event
  | computed
  | called (function : Text) (denoted : List (Option ℕ))
  | copied (position : ℕ)
  | released
  deriving DecidableEq

/-- A call that runs where the locals are live. -/
def EnsureExpression.runIn (e : EnsureExpression) (scope : List Text) : Event :=
  .called e.function (e.reads.map (denotes scope))

def ExitStep.event (scope : List Text) : ExitStep → Event
  | .compute => .computed
  | .call e => e.runIn scope
  | .copyOut position => .copied position
  | .releaseScratch _ | .releaseFunctionArena | .restoreScopeMark => .released

/-- The meaning of the generated code over its live locals: C resolves a name where it stands. -/
def codeMachine : Machine CodeLeaf ScopeEntry (List Text) (List Event) where
  act scope
    | .declare name => .inl (name :: scope)
    | .simple => .inl scope
    | .exit steps => .inr (steps.map (ExitStep.event scope))
  enter scope e := e.names ++ scope
  close scope _ := scope

/-- The run of the generated code that takes the decisions. -/
def FunctionDeclaration.runEmitted (f : FunctionDeclaration) (n : ℕ) (decisions : List Bool) :
    Option (Outcome (List Text) (List Event) Text × List Bool) :=
  codeMachine.run n f.parameters f.emit decisions

def Reached.call (d : Reached) : Event := d.expression.runIn d.scope

/-- Whether an event is a part of the release of the arenas. -/
def Event.IsRelease : Event → Prop
  | .copied _ | .released => True
  | .computed | .called _ _ => False

/-- The calls of the statements reached run once each, the last one first, after the returned value
has been computed and before an arena is released. -/
def RunsDeferred (e : Exit) (events : List Event) : Prop :=
  ∃ before after, events = before ++ e.state.reached.reverse.map Reached.call ++ after ∧
    (∀ x ∈ before, x = .computed) ∧ ∀ x ∈ after, x.IsRelease

end Grayscale.DeferredCalls
