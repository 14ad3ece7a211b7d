import Grayscale.Library.Iteration
import Grayscale.Util.Bytes

/-!
# Generic instantiations

A generic function is emitted once for each list of types that its type parameters are bound to.
The type checker records these lists at the calls. It walks every body once, generic ones with their
type parameters unbound, and then the bodies of recorded instantiations until no more are found. All
walks share one syntax tree, in which a walk rewrites the type arguments of calls and the calls
themselves.
-/

namespace Grayscale

open Function

/-! ### Programs -/

/-- The types that the type parameters of a function are bound to. -/
abbrev Binding := List Text

structure GenericCall where
  /-- The generic function that the call is dispatched to, where the type parameters around it are
  bound or (`none`) are not; the type of a receiver may depend on them. -/
  dispatch : Option Binding → Option ℕ
  /-- The type arguments, as they are written. -/
  arguments : List Text

/-- A function. It is generic if it has type parameters. -/
structure GenericFunction where
  isEntry : Bool
  typeParameters : List Text
  calls : List GenericCall

/-- A program whose names are resolved. -/
structure GenericProgram where
  functions : List GenericFunction
  /-- `checker_resolve_type_name` in the file of a function, and what an alias stands for. -/
  resolve : ℕ → Text → Text
  /-- A struct or an enum of the entry module. -/
  isEntryType : Text → Bool
  resolve_resolve : ∀ f label, resolve f (resolve f label) = resolve f label
  /-- A leading dot names the entry module's type in every file. -/
  resolve_distinct : ∀ f label, isEntryType label = true → resolve f (byte '.' :: label) = label
  dispatch_lt : ∀ function ∈ functions, ∀ call ∈ function.calls, ∀ binding callee,
    call.dispatch binding = some callee → callee < functions.length

namespace GenericProgram

variable (p : GenericProgram)

def typeParameters (f : ℕ) : List Text :=
  (p.functions[f]?.map GenericFunction.typeParameters).getD []

def calls (f : ℕ) : List GenericCall := (p.functions[f]?.map GenericFunction.calls).getD []

def isModule (f : ℕ) : Bool := p.functions[f]?.any fun function => !function.isEntry

end GenericProgram

/-! ### The type checker -/

/-- What the walks share: the type arguments of each call of a function, how it was dispatched under
a binding, and the instantiations that are recorded of a function. -/
structure InstantiationState where
  labels : ℕ → ℕ → List Text
  forms : ℕ → ℕ → List (Binding × ℕ)
  found : ℕ → List Binding

/-- `keep_entry_type_argument_distinct`: the label and the type of a type argument. -/
def keepDistinct (p : GenericProgram) (isModule : Bool) (label bound : Text) : Text × Text :=
  if isModule && p.isEntryType bound then (byte '.' :: bound, byte '.' :: bound)
  else (label, bound)

/-- `resolve_type_argument`: the rewritten label, and the type. There is no type where the label is
a type parameter that is not bound. -/
def resolveTypeArgument (p : GenericProgram) (f : ℕ) (binding : Option Binding) (callee : ℕ)
    (label : Text) : Text × Option Text :=
  match (p.typeParameters f).idxOf? label with
  | some slot =>
    match binding with
    | none => (label, none)
    | some binding => (keepDistinct p (p.isModule callee) label (binding.getD slot [])).map id some
  | none =>
    let target := p.resolve f label
    (keepDistinct p (p.isModule callee) target target).map id some

def recordInstantiation (found : ℕ → List Binding) (callee : ℕ) (binding : Binding) :
    ℕ → List Binding :=
  if binding ∈ found callee then found
  else update found callee (found callee ++ [binding])

def updateCall {α : Type} (values : ℕ → ℕ → α) (f k : ℕ) (value : α) : ℕ → ℕ → α :=
  update values f (update (values f) k value)

/-- The form of a call under a binding. A call that is walked unbound is put back as written. -/
def recordForm (forms : ℕ → ℕ → List (Binding × ℕ)) (f k : ℕ) (binding : Option Binding)
    (callee : ℕ) : ℕ → ℕ → List (Binding × ℕ) :=
  match binding with
  | none => forms
  | some binding => updateCall forms f k ((binding, callee) :: forms f k)

/-- `resolve_generic_call` and `resolve_call_expression`. -/
def checkCall (p : GenericProgram) (f : ℕ) (binding : Option Binding) (st : InstantiationState)
    (entry : GenericCall × ℕ) : InstantiationState :=
  match entry.1.dispatch binding with
  | none => st
  | some callee =>
    let resolved := (st.labels f entry.2).map (resolveTypeArgument p f binding callee)
    { labels := updateCall st.labels f entry.2 (resolved.map Prod.fst)
      forms := recordForm st.forms f entry.2 binding callee
      found := match resolved.mapM Prod.snd with
        | none => st.found
        | some types => recordInstantiation st.found callee types }

def checkBody (p : GenericProgram) (f : ℕ) (binding : Option Binding) (st : InstantiationState) :
    InstantiationState := (p.calls f).zipIdx.foldl (checkCall p f binding) st

/-- The type parameters of a generic function are not bound in the first walk. -/
def mainBinding (p : GenericProgram) (f : ℕ) : Option Binding :=
  if p.typeParameters f = [] then some [] else none

def writtenCalls (p : GenericProgram) : InstantiationState where
  labels f k := ((p.calls f)[k]?.map GenericCall.arguments).getD []
  forms _ _ := []
  found _ := []

/-- Pass 2. -/
def mainPass (p : GenericProgram) : InstantiationState :=
  (List.range p.functions.length).foldl (fun st f => checkBody p f (mainBinding p f) st)
    (writtenCalls p)

/-- The loops of pass 3: the instantiations of each function that were walked, the function that is
looked at, and whether this round has walked any. -/
structure InstantiationPass where
  check : InstantiationState
  cursors : ℕ → ℕ
  index : ℕ
  isNew : Bool

/-- The next instantiation of the function, the next function, or the next round. -/
def instantiationStep (p : GenericProgram) (s : InstantiationPass) : Option InstantiationPass :=
  if s.index < p.functions.length then
    match (s.check.found s.index)[s.cursors s.index]? with
    | some binding => some
        { s with
          check := checkBody p s.index (some binding) s.check
          cursors := update s.cursors s.index (s.cursors s.index + 1)
          isNew := true }
    | none => some { s with index := s.index + 1 }
  else if s.isNew then some { s with index := 0, isNew := false }
  else none

/-- Pass 3, after pass 2. -/
def instantiationPass (p : GenericProgram) (fuel : ℕ) : Option InstantiationPass :=
  runUntil (instantiationStep p) fuel
    { check := mainPass p, cursors := fun _ => 0, index := 0, isNew := false }

/-! ### The emitter -/

/-- A function is emitted under a binding: a generic one for each that is recorded. -/
def IsEmitted (p : GenericProgram) (st : InstantiationState) (f : ℕ) (binding : Binding) : Prop :=
  f < p.functions.length ∧ (p.typeParameters f = [] ∧ binding = [] ∨ binding ∈ st.found f)

/-- A type argument in `codegen_call_bindings`. -/
def boundName (p : GenericProgram) (f : ℕ) (binding : Binding) (label : Text) : Text :=
  match (p.typeParameters f).idxOf? label with
  | some slot => binding.getD slot []
  | none => label

/-- The function that a call is emitted for: in the form that it had under this binding, or as it is
written. -/
def emittedCallee (st : InstantiationState) (f : ℕ) (binding : Binding)
    (entry : GenericCall × ℕ) : Option ℕ :=
  match (st.forms f entry.2).lookup binding with
  | some callee => some callee
  | none => entry.1.dispatch (some binding)

/-- `emit_call_expression`. -/
def emittedCall (p : GenericProgram) (st : InstantiationState) (f : ℕ) (binding : Binding)
    (entry : GenericCall × ℕ) : Option (ℕ × Binding) :=
  (emittedCallee st f binding entry).map fun callee =>
    (callee, (st.labels f entry.2).map (boundName p f binding))

/-! ### What is needed -/

/-- The instantiation that a call asks for, as it is written. -/
def calledFrom (p : GenericProgram) (f : ℕ) (binding : Option Binding) (call : GenericCall) :
    Option (ℕ × Binding) := (call.dispatch binding).bind fun callee =>
    (call.arguments.mapM fun label => (resolveTypeArgument p f binding callee label).2).map
      fun types => (callee, types)

/-- The least set of instantiations that has those of the calls in root bodies, and is closed under
the calls of instantiated bodies. -/
inductive Needed (p : GenericProgram) (isRoot : ℕ → Prop) : ℕ → Binding → Prop
  | called {f g : ℕ} {call : GenericCall} {types : Binding} : isRoot f → call ∈ p.calls f →
      calledFrom p f (mainBinding p f) call = some (g, types) → Needed p isRoot g types
  | instantiated {f g : ℕ} {binding types : Binding} {call : GenericCall} :
      Needed p isRoot f binding → call ∈ p.calls f →
      calledFrom p f (some binding) call = some (g, types) → Needed p isRoot g types

def EveryBody (_ : ℕ) : Prop := True

/-- The bodies of functions that are not generic. -/
def PlainBody (p : GenericProgram) (f : ℕ) : Prop := p.typeParameters f = []

/-- No walk leaves a type argument behind that is wrong for another one. -/
structure KeepsLabels (p : GenericProgram) : Prop where
  /-- A type parameter that is passed on to another module does not stand for an entry type. -/
  forwarded : ∀ f binding call callee label slot, Needed p EveryBody f binding →
    call ∈ p.calls f → call.dispatch (some binding) = some callee → label ∈ call.arguments →
    (p.typeParameters f).idxOf? label = some slot → p.isModule callee = true →
    p.isEntryType (binding.getD slot []) = false
  /-- A call is dispatched to the entry module or to other modules. -/
  dispatched : ∀ f call binding binding' callee callee', call ∈ p.calls f →
    call.dispatch binding = some callee → call.dispatch binding' = some callee' →
    p.isModule callee = p.isModule callee'
  /-- What a type argument is resolved to is not the name of a type parameter. -/
  captured : ∀ f call label binding callee, call ∈ p.calls f → label ∈ call.arguments →
    (p.typeParameters f).idxOf? label = none → call.dispatch binding = some callee →
    (p.typeParameters f).idxOf? (resolveTypeArgument p f binding callee label).1 = none

end Grayscale
