import Grayscale.Util.Bytes
import Mathlib.Data.List.Nodup
import Mathlib.Data.Set.Basic

/-!
# Iteration guards

The header of an array or a map counts the `for_each` loops over it, and what shifts or drops its
elements panics while the count is positive. The emitted loop raises the count of its guard
expression; each way out of it lowers the guards of the loops that it leaves, which
`iteration_guards` and `labeled_loops` of the code generator hold while a body is emitted.
-/

namespace Grayscale.IterationGuards

/-! ### Headers -/

/-- Where a header is: a variable, a field, an element, the value of a map entry. -/
abbrev Address := ℕ

/-- The header of an array or a map: which container it is, and its `iterating` field, an `int32_t`.
A run has fewer than `2 ^ 31` loops active at once, as each of them takes stack. -/
structure Header where
  container : ℕ
  iterating : ℤ
  deriving DecidableEq

/-- A `for_each` loop that has been entered and not left: the address that its guard expression
denotes, and the container that it iterates over. -/
structure ActiveLoop where
  guard : Address
  container : ℕ
  deriving DecidableEq

/-- The headers, and the active loops: those of the calls under way, and those of the current call,
innermost last, as in `iteration_guards`. -/
structure GuardState where
  headers : Address → Option Header
  nextContainer : ℕ
  outer : List ActiveLoop
  frame : List ActiveLoop

/-- The beginning of a run. -/
def GuardState.start : GuardState := ⟨fun _ => none, 0, [], []⟩

def GuardState.active (s : GuardState) : List ActiveLoop := s.outer ++ s.frame

/-- How many of the loops iterate over a container. -/
def loopsOver (loops : List ActiveLoop) (container : ℕ) : ℕ :=
  loops.countP fun loop => loop.container = container

/-- Whether a loop over the container at an address is active. -/
def GuardState.IsIterated (s : GuardState) (a : Address) : Prop :=
  ∃ h, s.headers a = some h ∧ loopsOver s.active h.container ≠ 0

/-- Every count is the number of the active loops over its container. -/
def CountsLoops (s : GuardState) : Prop :=
  ∀ a h, s.headers a = some h → h.iterating = loopsOver s.active h.container

def writeHeader (headers : Address → Option Header) (a : Address) (h : Option Header) :
    Address → Option Header := Function.update headers a h

/-- `gray_atomic_add32` on the `iterating` field of the header at an address. -/
def addIterating (headers : Address → Option Header) (a : Address) (n : ℤ) :
    Address → Option Header :=
  writeHeader headers a ((headers a).map fun h => { h with iterating := h.iterating + n })

/-! ### Operations -/

/-- Headers that are moved by one copy of memory, from distinct addresses. -/
structure Relocation where
  moves : List (Address × Address)
  sources_nodup : (moves.map Prod.fst).Nodup

/-- The headers after a relocation: an address that receives one holds it, and one that has only
given its own away holds none. -/
def Relocation.headersAfter (r : Relocation) (headers : Address → Option Header) (a : Address) :
    Option Header :=
  match r.moves.find? fun move => move.2 = a with
  | some move => headers move.1
  | none => if a ∈ r.moves.map Prod.fst then none else headers a

inductive HeaderOperation
  /-- `gray_array_new`, `gray_array_from`, `gray_array_copy`, `gray_map_new_kind`, `gray_map_copy`:
  a container of its own, with the count 0. -/
  | create (target : Address)
  /-- `remove_at`, `insert_at`, `clear`, `sort`, the assignment of an element or of a container, a
  map insertion or removal: P0034 and P0035 while the count is positive. -/
  | modify (target : Address)
  /-- A header copied as it is: the element that a loop variable is bound to, and the value that a
  function which allocates in its caller's arena returns. -/
  | share (source target : Address)
  /-- The growth of the storage of an array or a map (`gray_array_grow`, `map_rebuild`), the shift
  of its elements, and the store of a `&` argument back: the headers in it are copied to other
  addresses. -/
  | relocate (relocation : Relocation)
  /-- The end of a variable. -/
  | discard (target : Address)

/-- What an operation does; `none` if it panics. -/
def HeaderOperation.perform (s : GuardState) : HeaderOperation → Option GuardState
  | .create target =>
    some { s with
      headers := writeHeader s.headers target (some ⟨s.nextContainer, 0⟩)
      nextContainer := s.nextContainer + 1 }
  | .modify target =>
    match s.headers target with
    | none => none
    | some h => if 0 < h.iterating then none else some s
  | .share source target =>
    match s.headers source with
    | none => none
    | some h =>
      some { s with
        headers := writeHeader s.headers target (some ⟨s.nextContainer, h.iterating⟩)
        nextContainer := s.nextContainer + 1 }
  | .relocate relocation => some { s with headers := relocation.headersAfter s.headers }
  | .discard target => some { s with headers := writeHeader s.headers target none }

/-- The addresses whose headers an operation copies or overwrites. -/
def HeaderOperation.touched : HeaderOperation → List Address
  | .create target | .discard target => [target]
  | .modify _ => []
  | .share source target => [source, target]
  | .relocate relocation => relocation.moves.map Prod.fst ++ relocation.moves.map Prod.snd

/-! ### Loops -/

/-- The shape of the collection of a `for_each` loop: a label; a path through fields, elements,
entries and dereferences that begins at a label (`is_real_array_path`); anything else. -/
inductive CollectionShape
  | label
  | path
  | value
  deriving DecidableEq

/-- The collection of a `for_each` loop, and the addresses that it may denote. -/
structure Collection where
  isMap : Bool
  shape : CollectionShape
  places : Set Address

/-- `emit_foreach_map` copies the header of every map that is no label; `emit_foreach_array` guards
the array itself where its expression is a path (`guard_real`). -/
def Collection.guardsCopy (c : Collection) : Bool := c.isMap && c.shape = .path

/-- The beginning of a `for_each` loop: the guard expression is evaluated, and its count raised. A
temporary `t` of the loop has no header yet. -/
inductive Enters (c : Collection) (s : GuardState) : GuardState → Prop
  | stored {a : Address} {h : Header} (hshape : c.shape ≠ .value) (hcopy : c.guardsCopy = false)
    (hplace : a ∈ c.places) (ha : s.headers a = some h) : Enters c s { s with
      headers := addIterating s.headers a 1, frame := s.frame ++ [⟨a, h.container⟩] }
  | copied {a t : Address} {h : Header} (hcopy : c.guardsCopy = true) (hplace : a ∈ c.places)
    (ha : s.headers a = some h) (ht : s.headers t = none) : Enters c s { s with
      headers := addIterating (writeHeader s.headers t (some h)) t 1
      frame := s.frame ++ [⟨t, h.container⟩] }
  | created {t : Address} (hshape : c.shape = .value) (ht : s.headers t = none) :
    Enters c s { s with
      headers := addIterating (writeHeader s.headers t (some ⟨s.nextContainer, 0⟩)) t 1
      nextContainer := s.nextContainer + 1
      frame := s.frame ++ [⟨t, s.nextContainer⟩] }

/-- Statements, as far as they enter and leave loops. The calls in an expression come before its
statement, as do those that evaluate returned values, and those of `ensure` before a `return`. -/
inductive LoopStatement
  | simple (operations : Set (List HeaderOperation))
  | call (function : Text)
  | sequence (first second : LoopStatement)
  | branch (consequence alternative : LoopStatement)
  | loop (label : Option Text) (body : LoopStatement)
  | forEach (label : Option Text) (collection : Collection) (binding : Set (List HeaderOperation))
    (body : LoopStatement)
  | loopJump (isBreak : Bool) (label : Option Text)
  | return

/-! ### Emission -/

/-- `LabeledLoop`: a labeled loop whose body is emitted. The number that its labels are made of only
has to differ from those of the loops around it. -/
structure LabeledLoop where
  label : Text
  id : ℕ
  guardFloor : ℕ
  deriving DecidableEq

/-- What the code generator holds where it emits a statement: the number of the guards, and the
labeled loops, innermost first. -/
structure EmitContext where
  iterationGuardCount : ℕ
  labeledLoops : List LabeledLoop
  deriving DecidableEq

/-- The beginning of the body of a function. -/
def EmitContext.function : EmitContext := ⟨0, []⟩

/-- `emit_loop_body_with_arena`: the body of a labeled loop has the loop in its context. -/
def EmitContext.loopBody (c : EmitContext) : Option Text → EmitContext
  | none => c
  | some label =>
    { c with
      labeledLoops := ⟨label, c.labeledLoops.length, c.iterationGuardCount⟩ :: c.labeledLoops }

/-- `iteration_guard_push`. -/
def EmitContext.pushGuard (c : EmitContext) : EmitContext :=
  { c with iterationGuardCount := c.iterationGuardCount + 1 }

def EmitContext.target (c : EmitContext) (label : Text) : Option LabeledLoop :=
  c.labeledLoops.find? fun loop => loop.label = label

/-- `gray_atomic_sub32` on a guard of the current call. -/
def GuardState.releaseGuard (s : GuardState) (i : ℕ) : GuardState :=
  match s.frame[i]? with
  | none => s
  | some loop => { s with headers := addIterating s.headers loop.guard (-1) }

/-- The guards from `count - 1` down to `floor` are released: `emit_iteration_guard_unwind`, and the
last loop of `emit_labeled_exit_unwind`. -/
def GuardState.releaseGuards (floor : ℕ) : ℕ → GuardState → GuardState
  | 0, s => s
  | count + 1, s => if floor ≤ count then releaseGuards floor count (s.releaseGuard count) else s

/-! ### Runs -/

/-- How a run of a statement ends; `halted` where it is looked at before its end, or panics. -/
inductive Outcome
  | normal
  | broke
  | continued
  | jumped (isBreak : Bool) (id : ℕ)
  | returned
  | halted
  deriving DecidableEq

/-- What the condition of a run is about. -/
inductive GuardStep
  | enter (collection : Collection)
  | operation (operation : HeaderOperation)
  | recover

inductive Performs (condition : GuardState → GuardStep → Prop) :
    GuardState → List HeaderOperation → GuardState → Prop
  | nil (s : GuardState) : Performs condition s [] s
  | cons {s s' s'' : GuardState} {o : HeaderOperation} {operations : List HeaderOperation}
    (hcondition : condition s (.operation o)) (ho : o.perform s = some s')
    (h : Performs condition s' operations s'') : Performs condition s (o :: operations) s''

/-- The body of the loop ends so that the next iteration follows: at its end, with `continue`, or at
`_gray_continue_<id>` of the loop itself. -/
def EmitContext.Continues (c : EmitContext) (label : Option Text) (o : Outcome) : Prop :=
  o = .normal ∨ o = .continued ∨ label ≠ none ∧ o = .jumped false c.labeledLoops.length

/-- The body of the loop ends so that the loop does: with `break`, or at `_gray_break_<id>` of the
loop itself. -/
def EmitContext.Breaks (c : EmitContext) (label : Option Text) (o : Outcome) : Prop :=
  o = .broke ∨ label ≠ none ∧ o = .jumped true c.labeledLoops.length

/-- The body of the loop ends so that the loop is left for a place further out. -/
def EmitContext.Leaves (c : EmitContext) (label : Option Text) (o : Outcome) : Prop :=
  o = .returned ∨ ∃ isBreak id, o = .jumped isBreak id ∧ (label ≠ none → id ≠ c.labeledLoops.length)

/-- The runs of emitted statements, each step under the condition. -/
inductive Exec (program : Text → LoopStatement) (condition : GuardState → GuardStep → Prop) :
    EmitContext → LoopStatement → GuardState → Outcome → GuardState → Prop
  | halt (c : EmitContext) (t : LoopStatement) (s : GuardState) :
    Exec program condition c t s .halted s
  | simple {c : EmitContext} {operations : Set (List HeaderOperation)} {s s' : GuardState}
    {l : List HeaderOperation} (hl : l ∈ operations) (h : Performs condition s l s') :
    Exec program condition c (.simple operations) s .normal s'
  | simpleHalt {c : EmitContext} {operations : Set (List HeaderOperation)} {s s' : GuardState}
    {l rest : List HeaderOperation} (hl : l ++ rest ∈ operations) (h : Performs condition s l s') :
    Exec program condition c (.simple operations) s .halted s'
  | call {c : EmitContext} {function : Text} {s s' : GuardState} {o : Outcome}
    (h : Exec program condition .function (program function)
      { s with outer := s.active, frame := [] } o s') (ho : o = .normal ∨ o = .returned) :
    Exec program condition c (.call function) s .normal
      { s' with outer := s.outer, frame := s.frame }
  | callHalt {c : EmitContext} {function : Text} {s s' : GuardState}
    (h : Exec program condition .function (program function)
      { s with outer := s.active, frame := [] } .halted s') :
    Exec program condition c (.call function) s .halted s'
  | sequence {c : EmitContext} {first second : LoopStatement} {s s' s'' : GuardState} {o : Outcome}
    (hfirst : Exec program condition c first s .normal s')
    (hsecond : Exec program condition c second s' o s'') :
    Exec program condition c (.sequence first second) s o s''
  | sequenceStop {c : EmitContext} {first second : LoopStatement} {s s' : GuardState} {o : Outcome}
    (hfirst : Exec program condition c first s o s') (ho : o ≠ .normal) :
    Exec program condition c (.sequence first second) s o s'
  | consequence {c : EmitContext} {consequence alternative : LoopStatement} {s s' : GuardState}
    {o : Outcome} (h : Exec program condition c consequence s o s') :
    Exec program condition c (.branch consequence alternative) s o s'
  | alternative {c : EmitContext} {consequence alternative : LoopStatement} {s s' : GuardState}
    {o : Outcome} (h : Exec program condition c alternative s o s') :
    Exec program condition c (.branch consequence alternative) s o s'
  | loopDone {c : EmitContext} {label : Option Text} {body : LoopStatement} {s : GuardState} :
    Exec program condition c (.loop label body) s .normal s
  | loopNext {c : EmitContext} {label : Option Text} {body : LoopStatement} {s s' s'' : GuardState}
    {o o' : Outcome} (hbody : Exec program condition (c.loopBody label) body s o s')
    (ho : c.Continues label o) (hnext : Exec program condition c (.loop label body) s' o' s'') :
    Exec program condition c (.loop label body) s o' s''
  | loopBreak {c : EmitContext} {label : Option Text} {body : LoopStatement} {s s' : GuardState}
    {o : Outcome} (hbody : Exec program condition (c.loopBody label) body s o s')
    (ho : c.Breaks label o) : Exec program condition c (.loop label body) s .normal s'
  | loopLeave {c : EmitContext} {label : Option Text} {body : LoopStatement} {s s' : GuardState}
    {o : Outcome} (hbody : Exec program condition (c.loopBody label) body s o s')
    (ho : c.Leaves label o) : Exec program condition c (.loop label body) s o s'
  | loopHalt {c : EmitContext} {label : Option Text} {body : LoopStatement} {s s' : GuardState}
    (hbody : Exec program condition (c.loopBody label) body s .halted s') :
    Exec program condition c (.loop label body) s .halted s'
  -- `emit_labeled_break_target` stands before the guard is lowered, so a labeled `break` of the
  -- loop itself comes through here as well.
  | forEach {c : EmitContext} {label : Option Text} {collection : Collection}
    {binding : Set (List HeaderOperation)} {body : LoopStatement} {s s' s'' : GuardState}
    (hcondition : condition s (.enter collection)) (henter : Enters collection s s')
    (hloop : Exec program condition c.pushGuard (.loop label (.sequence (.simple binding) body)) s'
      .normal s'') : Exec program condition c (.forEach label collection binding body) s .normal
      { s''.releaseGuard c.iterationGuardCount with frame := s''.frame.dropLast }
  | forEachLeave {c : EmitContext} {label : Option Text} {collection : Collection}
    {binding : Set (List HeaderOperation)} {body : LoopStatement} {s s' s'' : GuardState}
    {o : Outcome} (hcondition : condition s (.enter collection)) (henter : Enters collection s s')
    (hloop : Exec program condition c.pushGuard (.loop label (.sequence (.simple binding) body)) s'
      o s'') (ho : o ≠ .normal) (hhalt : o ≠ .halted) :
    Exec program condition c (.forEach label collection binding body) s o
      { s'' with frame := s''.frame.dropLast }
  | forEachHalt {c : EmitContext} {label : Option Text} {collection : Collection}
    {binding : Set (List HeaderOperation)} {body : LoopStatement} {s s' s'' : GuardState}
    (hcondition : condition s (.enter collection)) (henter : Enters collection s s')
    (hloop : Exec program condition c.pushGuard (.loop label (.sequence (.simple binding) body)) s'
      .halted s'') : Exec program condition c (.forEach label collection binding body) s .halted s''
  | breakLoop {c : EmitContext} {s : GuardState} :
    Exec program condition c (.loopJump true none) s .broke s
  | continueLoop {c : EmitContext} {s : GuardState} :
    Exec program condition c (.loopJump false none) s .continued s
  | labeledJump {c : EmitContext} {isBreak : Bool} {label : Text} {target : LabeledLoop}
    {s : GuardState} (htarget : c.target label = some target) :
    Exec program condition c (.loopJump isBreak (some label)) s (.jumped isBreak target.id)
      (s.releaseGuards target.guardFloor c.iterationGuardCount)
  | return {c : EmitContext} {s : GuardState} :
    Exec program condition c .return s .returned (s.releaseGuards 0 c.iterationGuardCount)

/-- The states that the calls of a program reach one after another: `gray_fn_main`, or the `#test`
functions under `gray_test_run`, which goes on after one that has panicked. -/
inductive Reaches (program : Text → LoopStatement) (condition : GuardState → GuardStep → Prop) :
    List Text → GuardState → GuardState → Prop
  | here {function : Text} {rest : List Text} {s s' : GuardState} {o : Outcome}
    (h : Exec program condition .function (.call function) s o s') :
    Reaches program condition (function :: rest) s s'
  | next {function : Text} {rest : List Text} {s s' s'' : GuardState} {o : Outcome}
    (h : Exec program condition .function (.call function) s o s')
    (hcondition : condition s' .recover)
    (hrest : Reaches program condition rest { s' with outer := [], frame := [] } s'') :
    Reaches program condition (function :: rest) s s''

/-- The property of a state: every count is the number of the active loops over its container, and
a container without one can be modified. -/
def GuardsMeet (s : GuardState) : Prop :=
  CountsLoops s ∧ ∀ a h, s.headers a = some h → loopsOver s.active h.container = 0 →
    (HeaderOperation.modify a).perform s = some s

end Grayscale.IterationGuards
