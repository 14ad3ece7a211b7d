import Grayscale.Util.Bytes
import Mathlib.Data.List.DropRight

/-!
# The arguments of a call

The type checker puts named arguments into the order of the parameters. The emitter passes the
defaults of omitted parameters as expressions at the call; where it can, it binds the arguments to C
variables with the names of the parameters first, so that a default can mention them.
-/

namespace Grayscale

/-! ### Written calls -/

/-- A name in an expression: of a variable in a function, or of a declaration, which has another
name in C. -/
inductive NameUse
  | ofVariable (name : Text)
  | ofDeclaration (written cName : Text)

def NameUse.cName : NameUse → Text
  | ofVariable name => name
  | ofDeclaration _ cName => cName

/-- An expression: a node of the syntax tree, and the names in it. -/
structure CallExpression (ω : Type) where
  node : ω
  uses : List NameUse

/-- A parameter. The type parameters of a generic function are left out: C does not see them. -/
structure CallParameter (ω : Type) where
  name : Text
  isMutable : Bool
  defaultValue : Option (CallExpression ω)

/-- A function declaration that is accepted. -/
structure Callee (ω : Type) where
  parameters : List (CallParameter ω)
  /-- E2012. -/
  nodup : (parameters.map CallParameter.name).Nodup
  /-- E2039. -/
  required_first : parameters.Pairwise fun p q =>
    p.defaultValue.isSome = true → q.defaultValue.isSome = true

/-- An argument as it is written. An earlier pass may have bound it to a temporary. -/
structure WrittenArgument (ω : Type) where
  name : Option Text
  value : CallExpression ω
  isBound : Bool

/-- The names in the scope of a call: those of locals, of these the mutable parameters and the
references, which C reads through a pointer, and the C names of the declarations that the file
sees. -/
structure CallerScope where
  locals : List Text
  references : List Text
  resolve : Text → Text

def CallerScope.Sees (caller : CallerScope) : NameUse → Prop
  | .ofVariable name => name ∈ caller.locals
  | .ofDeclaration written cName =>
    cName = caller.resolve written ∧ cName ∉ caller.locals ∧ written ∉ caller.references

structure WrittenCall (ω : Type) (caller : CallerScope) where
  arguments : List (WrittenArgument ω)
  sees : ∀ argument ∈ arguments, ∀ use ∈ argument.value.uses, caller.Sees use

variable {ω : Type}

/-! ### The type checker -/

/-- What is passed for a parameter: a written argument, or the parameter's default. -/
inductive ArgumentSlot (ω : Type)
  | written (argument : WrittenArgument ω)
  | default (value : CallExpression ω)

/-- The arguments in front of the first named one. -/
def positionalCount (arguments : List (WrittenArgument ω)) : ℕ :=
  (arguments.takeWhile fun argument => argument.name.isNone).length

/-- A named argument is put into its slot: E5031 for an unknown name, E5032 for a filled slot. -/
def placeNamed (parameters : List (CallParameter ω)) (slots : List (Option (WrittenArgument ω)))
    (argument : WrittenArgument ω) : Option (List (Option (WrittenArgument ω))) :=
  (parameters.findIdx? fun parameter => argument.name = some parameter.name).bind fun slot =>
    if slots[slot]?.join.isSome then none else some (slots.set slot (some argument))

/-- The slots up to the last filled one. -/
def filledSlots (slots : List (Option (WrittenArgument ω))) : List (Option (WrittenArgument ω)) :=
  slots.rdropWhile Option.isNone

/-- A gap between arguments is filled with the default of its parameter. -/
def fillGap (parameter : CallParameter ω) (slot : Option (WrittenArgument ω)) :
    Option (ArgumentSlot ω) :=
  match slot with
  | some argument => some (.written argument)
  | none => parameter.defaultValue.map .default

/-- `typechecker_resolve_named_arguments`: E5033 for a positional argument after a named one. -/
def resolveNamedArguments (parameters : List (CallParameter ω))
    (arguments : List (WrittenArgument ω)) : Option (List (Option (ArgumentSlot ω))) :=
  if arguments.all fun argument => argument.name.isNone then
    some (arguments.map fun argument => some (.written argument))
  else
    let positional := positionalCount arguments
    let named := arguments.drop positional
    if named.all (fun argument => argument.name.isSome) ∧ positional ≤ parameters.length then
      (named.foldlM (placeNamed parameters) (parameters.mapIdx fun i _ =>
        if i < positional then arguments[i]? else none)).map fun slots =>
          List.zipWith fillGap parameters (filledSlots slots)
    else none

/-- E5008 for too few or too many arguments. -/
def checkCount (callee : Callee ω) (slots : List (Option (ArgumentSlot ω))) :
    Option (List (Option (ArgumentSlot ω))) :=
  if callee.parameters.countP (fun parameter => parameter.defaultValue.isNone) ≤ slots.length ∧
    slots.length ≤ callee.parameters.length then some slots
  else none

/-- A call is accepted with these slots. The body of a generic function is checked with its type
parameters unbound, and again for each instantiation: after the first time
`resolve_call_expression` puts the arguments back as they were written, but not their names. -/
def acceptCall (isInGeneric : Bool) (callee : Callee ω) (arguments : List (WrittenArgument ω)) :
    Option (List (Option (ArgumentSlot ω))) :=
  ((resolveNamedArguments callee.parameters arguments).bind (checkCount callee)).bind fun slots =>
    if isInGeneric then checkCount callee (arguments.map fun argument => some (.written argument))
    else some slots

/-! ### The emitted call -/

inductive CRead
  | plain (cName : Text)
  | deref (cName : Text)

/-- An argument in C: an expression, or a temporary that holds its value. -/
inductive CArgument (ω : Type)
  | expression (node : ω) (reads : List CRead)
  | temporary (node : ω) (reads : List CRead)

/-- What is between the parentheses of the emitted call. -/
inductive CActual (ω : Type)
  | bound (name : Text)
  | argument (argument : CArgument ω)
  /-- `0`. -/
  | zero

/-- A call in C, inside of the variables that are declared for it. -/
structure CCall (ω : Type) where
  bindings : List (Text × CArgument ω)
  actuals : List (CActual ω)

/-- `emit_label`. -/
def emitUse (caller : CallerScope) : NameUse → CRead
  | .ofVariable name => if name ∈ caller.references then .deref name else .plain name
  | .ofDeclaration written cName =>
    if written ∈ caller.references then .deref written else .plain cName

def NameUse.inFile (caller : CallerScope) : NameUse → NameUse
  | ofVariable name => ofVariable name
  | ofDeclaration written _ => ofDeclaration written (caller.resolve written)

/-- An argument of the call node. A default that fills a gap is one of them, and its names are
resolved like those of the others. -/
def emitSlot (caller : CallerScope) (slot : ArgumentSlot ω) : CArgument ω :=
  match slot with
  | .written argument =>
    let reads := argument.value.uses.map fun use => emitUse caller (use.inFile caller)
    if argument.isBound then .temporary argument.value.node reads
    else .expression argument.value.node reads
  | .default value =>
    .expression value.node (value.uses.map fun use => emitUse caller (use.inFile caller))

/-- `emit_parameter_default_value`: names are resolved in the file of the callee. -/
def emitOmitted (caller : CallerScope) (parameter : CallParameter ω) : CActual ω :=
  match parameter.defaultValue with
  | some value => .argument (.expression value.node (value.uses.map (emitUse caller)))
  | none => .zero

/-- The arguments are bound to variables: a default is used, no parameter is mutable, and the callee
is named. -/
def bindsArguments (isDirect : Bool) (callee : Callee ω) (count : ℕ) : Bool :=
  (callee.parameters.drop count).any (fun parameter => parameter.defaultValue.isSome) &&
    !callee.parameters.any CallParameter.isMutable && isDirect

/-- The end of `emit_call_expression_body`, and `emit_namespaced_call` for a callee that is not
named directly. There is no call where an argument is missing. -/
def emitCall (isDirect : Bool) (caller : CallerScope) (callee : Callee ω)
    (slots : List (Option (ArgumentSlot ω))) : Option (CCall ω) := (slots.mapM id).map fun slots =>
    let names := callee.parameters.map CallParameter.name
    let omitted := (callee.parameters.drop slots.length).map (emitOmitted caller)
    if bindsArguments isDirect callee slots.length then
      { bindings := names.zip (slots.map (emitSlot caller))
        actuals := (names.take slots.length).map .bound ++ omitted }
    else
      { bindings := []
        actuals := slots.map (fun slot => .argument (emitSlot caller slot)) ++ omitted }

/-! ### Values -/

/-- The values of names, and what nodes compute from them. A node is evaluated once, and nodes that
are written alike may still differ in what they compute. -/
structure Valuation (ω V : Type) where
  operate : ω → List V → V
  locals : Text → V
  globals : Text → V

variable {V : Type}

/-- Reading a name in C: the variables declared for the call hide the others, and have no value in
their own initializer. -/
def readName (caller : CallerScope) (val : Valuation ω V) (frame : List (Text × Option V)) :
    CRead → Option V
  | .plain cName =>
    match frame.lookup cName with
    | some value => value
    | none => some (if cName ∈ caller.locals then val.locals cName else val.globals cName)
  | .deref cName =>
    match frame.lookup cName with
    | some _ => none
    | none => some (val.locals cName)

def CArgument.evaluate (caller : CallerScope) (val : Valuation ω V)
    (frame : List (Text × Option V)) : CArgument ω → Option V
  | expression node reads => (reads.mapM (readName caller val frame)).map (val.operate node)
  | temporary node reads => (reads.mapM (readName caller val [])).map (val.operate node)

/-- The variables declared for a call. -/
def evaluateBindings (caller : CallerScope) (val : Valuation ω V) :
    List (Text × Option V) → List (Text × CArgument ω) → Option (List (Text × Option V))
  | frame, [] => some frame
  | frame, (name, argument) :: bindings =>
    (argument.evaluate caller val ((name, none) :: frame)).bind fun value =>
      evaluateBindings caller val ((name, some value) :: frame) bindings

/-- The value of what is between the parentheses; a `0` is no value of a parameter. -/
def CActual.evaluate (caller : CallerScope) (val : Valuation ω V)
    (frame : List (Text × Option V)) : CActual ω → Option V
  | bound name => (frame.lookup name).join
  | argument value => value.evaluate caller val frame
  | zero => none

/-- The values that a call passes. -/
def CCall.evaluate (caller : CallerScope) (val : Valuation ω V) (call : CCall ω) :
    Option (List V) := (evaluateBindings caller val [] call.bindings).bind fun frame =>
    call.actuals.mapM (CActual.evaluate caller val frame)

/-! ### What is to be passed -/

def writtenFor (arguments : List (WrittenArgument ω)) (i : ℕ) (parameter : CallParameter ω) :
    Option (WrittenArgument ω) :=
  if i < positionalCount arguments then arguments[i]?
  else arguments.find? fun argument => argument.name = some parameter.name

/-- The written argument of each parameter, or else its default. -/
def expectedSlots (callee : Callee ω) (arguments : List (WrittenArgument ω)) :
    List (Text × Option (ArgumentSlot ω)) := callee.parameters.mapIdx fun i parameter =>
    (parameter.name, fillGap parameter (writtenFor arguments i parameter))

def NameUse.callerValue (val : Valuation ω V) : NameUse → V
  | ofVariable name => val.locals name
  | ofDeclaration _ cName => val.globals cName

/-- The value of a name in the scope of the callee, where the parameters before are bound. -/
def NameUse.calleeValue (val : Valuation ω V) (earlier : List (Text × V)) : NameUse → Option V
  | ofVariable name => earlier.lookup name
  | ofDeclaration _ cName => some (val.globals cName)

/-- The value of a written argument in the scope of the caller, and of a default in the scope of the
callee. -/
def ArgumentSlot.value (val : Valuation ω V) (earlier : List (Text × V)) : ArgumentSlot ω → Option V
  | written argument =>
    some (val.operate argument.value.node (argument.value.uses.map (NameUse.callerValue val)))
  | default value =>
    (value.uses.mapM (NameUse.calleeValue val earlier)).map (val.operate value.node)

/-- The values of all parameters, after those of the parameters before them. -/
def expectedValues (val : Valuation ω V) :
    List (Text × V) → List (Text × Option (ArgumentSlot ω)) → Option (List V)
  | _, [] => some []
  | earlier, (name, slot) :: slots =>
    (slot.bind fun slot => slot.value val earlier).bind fun value =>
      (expectedValues val ((name, value) :: earlier) slots).map (value :: ·)

def Callee.defaultNodes (callee : Callee ω) : List ω :=
  callee.parameters.filterMap fun parameter => parameter.defaultValue.map CallExpression.node

/-- A call that is accepted, with the slots it is given. -/
structure AcceptedCall (callee : Callee ω) (caller : CallerScope) extends WrittenCall ω caller where
  /-- The nodes of the syntax tree are different ones. -/
  nodup : (arguments.map (fun argument => argument.value.node) ++ callee.defaultNodes).Nodup
  isInGeneric : Bool
  slots : List (Option (ArgumentSlot ω))
  accepted : acceptCall isInGeneric callee arguments = some slots

/-- The emitted call passes the value of its written argument or of its default to each parameter,
whatever the names hold and the nodes compute. -/
def PassesArguments (isDirect : Bool) {callee : Callee ω} {caller : CallerScope}
    (call : AcceptedCall callee caller) : Prop := ∀ (V : Type) (val : Valuation ω V), ∃ values,
    expectedValues val [] (expectedSlots callee call.arguments) = some values ∧
      (emitCall isDirect caller callee call.slots).bind (CCall.evaluate caller val) = some values

/-! ### The condition -/

/-- A name of a default means the same at the call as in the callee: a name of a parameter is bound
there, and nothing hides the name of a declaration. -/
def CallerScope.MeansSame (caller : CallerScope) (bound hidden : List Text) : NameUse → Prop
  | .ofVariable name => name ∈ bound ∧ name ∉ caller.references
  | .ofDeclaration written cName =>
    cName ∉ hidden ∧ cName ∉ caller.locals ∧ written ∉ caller.references

def CallerScope.ResolvesSame (caller : CallerScope) : NameUse → Prop
  | .ofVariable _ => True
  | .ofDeclaration written cName => caller.resolve written = cName

/-- What is passed keeps its meaning: no name of a written argument is hidden, unless the argument
is in a temporary. -/
def ArgumentSlot.KeepsMeaning (caller : CallerScope) (bound hidden : List Text) :
    ArgumentSlot ω → Prop
  | written argument =>
    argument.isBound = false → ∀ use ∈ argument.value.uses, use.cName ∉ hidden
  | default value =>
    ∀ use ∈ value.uses, caller.MeansSame bound hidden use ∧ caller.ResolvesSame use

/-- No argument is missing, each keeps its meaning where the parameters before it are bound, its own
name is hidden too, and the defaults of the parameters after them keep theirs. -/
def slotsKeepMeaning (caller : CallerScope) (isBlock : Bool) :
    List Text → List (Text × Option (ArgumentSlot ω)) → List (CallParameter ω) → Prop
  | bound, [], omitted =>
    let bound := if isBlock then bound else []
    ∀ parameter ∈ omitted, ∀ value ∈ parameter.defaultValue, ∀ use ∈ value.uses,
      caller.MeansSame bound bound use
  | _, (_, none) :: _, _ => False
  | bound, (name, some slot) :: slots, omitted =>
    slot.KeepsMeaning caller (if isBlock then bound else [])
        (if isBlock then name :: bound else []) ∧
      slotsKeepMeaning caller isBlock (name :: bound) slots omitted

/-- The number of parameters up to the last one that has a written argument. -/
def givenCount (callee : Callee ω) (arguments : List (WrittenArgument ω)) : ℕ :=
  (filledSlots (callee.parameters.mapIdx (writtenFor arguments))).length

/-- Arguments with a name are in the places of their parameters. -/
def InOrder (callee : Callee ω) (arguments : List (WrittenArgument ω)) : Prop :=
  ∀ (i : ℕ) (argument : WrittenArgument ω) (parameter : CallParameter ω),
    arguments[i]? = some argument → callee.parameters[i]? = some parameter →
      argument.name = none ∨ argument.name = some parameter.name

/-- The arguments of a call keep their places where they lose their names, and they keep their
meaning. -/
def KeepsMeaning (isDirect : Bool) {callee : Callee ω} {caller : CallerScope}
    (call : AcceptedCall callee caller) : Prop :=
  let given := givenCount callee call.arguments
  (call.isInGeneric = true → InOrder callee call.arguments) ∧ slotsKeepMeaning caller (bindsArguments isDirect callee given) []
    ((expectedSlots callee call.arguments).take given) (callee.parameters.drop given)

end Grayscale
