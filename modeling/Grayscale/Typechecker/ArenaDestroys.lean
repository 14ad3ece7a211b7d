import Grayscale.Util.Bytes
import Mathlib.Data.Set.Basic

/-!
# Arenas destroyed twice

E3166 reports a destroy or a reset of an arena that has been destroyed. The pointer checker walks a
body once, with a row for the name of each handle: `is_destroyed`, which branches join and a binding
of the name clears, and `is_ensure_destroy_pending`. A loop body is walked once too: what marks the
arenas that it destroys, `is_premarked_destroyed`, is for dereferences only.
-/

namespace Grayscale.ArenaDestroys

/-! ### Bodies -/

/-- Statements that only use arenas: a handle bound to `mem.arena`, by a declaration or by an
assignment, `mem.destroy`, `mem.reset`, a block with its own scope, two ways to go on, a loop. -/
inductive ArenaBody
  | done
  | arena (isDeclaration : Bool) (handle : Text)
  | destroy (handle : Text)
  | reset (handle : Text)
  | sequence (first second : ArenaBody)
  | block (body : ArenaBody)
  | branch (consequence alternative : ArenaBody)
  | loop (body : ArenaBody)
  deriving DecidableEq

/-- `if` with its `otherwise`, or with an empty alternative. -/
def ifStatement (consequence alternative : ArenaBody) : ArenaBody :=
  .branch (.block consequence) (.block alternative)

/-- `when`: one of the bodies, or what is left if no case is met; `last` is the default, or empty
without one, or the last body of a `#strict` one, which always meets a case. -/
def whenStatement (bodies : List ArenaBody) (last : ArenaBody) : ArenaBody :=
  bodies.foldr (fun body rest => .branch (.block body) rest) (.block last)

/-- The statements at the top level of a function: `ensure mem.destroy` stands there only. -/
inductive TopStatement
  | plain (body : ArenaBody)
  | ensureDestroy (handle : Text)
  deriving DecidableEq

abbrev ArenaFunction := List TopStatement

/-- The handles that a block declares in its scope. -/
def ArenaBody.declared : ArenaBody → List Text
  | .arena true handle => [handle]
  | .sequence first second => first.declared ++ second.declared
  | _ => []

/-- The names that are bound to an arena anywhere in a body. -/
def ArenaBody.bound : ArenaBody → List Text
  | .arena _ handle => [handle]
  | .sequence first second | .branch first second => first.bound ++ second.bound
  | .block body | .loop body => body.bound
  | .done | .destroy _ | .reset _ => []

/-! ### The pointer checker -/

/-- An `ArenaLifetime`, as far as E3166 is concerned. -/
structure ArenaRow where
  isDestroyed : Bool
  isEnsureDestroyPending : Bool
  deriving DecidableEq

/-- The rows by name. `pointer_checker_premark_function_destroys` has made those of the handles that
a function destroys or resets before its body is walked; the others are never asked for. -/
abbrev ArenaRows := Text → ArenaRow

def pointerCheckerJoin (live other : ArenaRows) : ArenaRows := fun name =>
  { live name with isDestroyed := (live name).isDestroyed || (other name).isDestroyed }

/-- A change of the row of a name. -/
@[grind =]
def changeRow (rows : ArenaRows) (name : Text) (change : ArenaRow → ArenaRow) : ArenaRows :=
  Function.update rows name (change (rows name))

/-- The walk of a body: the rows behind it, and the handles that E3166 is reported for. -/
def ArenaBody.check : ArenaBody → ArenaRows → ArenaRows × List Text
  | .done, rows => (rows, [])
  | .arena _ handle, rows =>
    (changeRow rows handle fun row => { row with isDestroyed := false }, [])
  | .destroy handle, rows =>
    if (rows handle).isDestroyed || (rows handle).isEnsureDestroyPending then (rows, [handle])
    else (changeRow rows handle fun row => { row with isDestroyed := true }, [])
  | .reset handle, rows => if (rows handle).isDestroyed then (rows, [handle]) else (rows, [])
  | .sequence first second, rows =>
    let walked := first.check rows
    let rest := second.check walked.1
    (rest.1, walked.2 ++ rest.2)
  | .block body, rows => body.check rows
  | .branch consequence alternative, rows =>
    let walked := consequence.check rows
    let other := alternative.check rows
    (pointerCheckerJoin other.1 walked.1, walked.2 ++ other.2)
  | .loop body, rows => body.check rows

/-- The walk of the body of a function. -/
def checkFunction : ArenaFunction → ArenaRows → ArenaRows × List Text
  | [], rows => (rows, [])
  | .plain body :: rest, rows =>
    let walked := body.check rows
    let others := checkFunction rest walked.1
    (others.1, walked.2 ++ others.2)
  | .ensureDestroy handle :: rest, rows =>
    if (rows handle).isDestroyed || (rows handle).isEnsureDestroyPending then
      let others := checkFunction rest rows
      (others.1, handle :: others.2)
    else
      checkFunction rest
        (changeRow rows handle fun row => { row with isEnsureDestroyPending := true })

/-- The handles that E3166 is reported for in a function. -/
def destroyErrors (f : ArenaFunction) : List Text := (checkFunction f fun _ => ⟨false, false⟩).2

/-! ### Executions -/

/-- The arenas at run time: what the handles stand for, which arenas have been destroyed, and which
of these the checker has in sight. -/
structure ArenaMemory where
  handles : Text → Option ℕ
  destroyed : Set ℕ
  inSight : Set ℕ
  next : ℕ

/-- The beginning of a function. -/
def ArenaMemory.empty : ArenaMemory := ⟨fun _ => none, ∅, ∅, 0⟩

/-- The memory after `mem.arena`. -/
def ArenaMemory.create (M : ArenaMemory) (handle : Text) : ArenaMemory :=
  { M with handles := Function.update M.handles handle (some M.next), next := M.next + 1 }

/-- The memory after `mem.destroy`. -/
def ArenaMemory.destroy (M : ArenaMemory) (arena : ℕ) : ArenaMemory :=
  { M with destroyed := insert arena M.destroyed, inSight := insert arena M.inSight }

/-- A binding of its name that has not been made to it takes an arena out of sight. -/
def ArenaMemory.hide (M : ArenaMemory) (names : List Text) : ArenaMemory :=
  { M with inSight := { n ∈ M.inSight | ∀ x ∈ names, M.handles x ≠ some n } }

/-- The memory after a scope: the handles declared in it stand for what they stood for, and their
declarations hide the arenas of these. -/
def ArenaMemory.leave (M outside : ArenaMemory) (names : List Text) : ArenaMemory :=
  { M with handles := fun x => if x ∈ names then outside.handles x else M.handles x }.hide names

/-- The next iteration of a loop, which began at a memory: what has been destroyed in the loop is
out of sight, as the walk of the body begins without it. -/
def ArenaMemory.iterate (M start : ArenaMemory) : ArenaMemory :=
  { M with inSight := M.inSight ∩ start.inSight }

/-- The end of a loop: what was in sight at the end of an iteration is so behind the loop. -/
def ArenaMemory.behindLoop (M iteration : ArenaMemory) : ArenaMemory :=
  { M with inSight := M.inSight ∪ iteration.inSight }

/-- The executions of a body whose destroys and resets all meet a condition on the memory and the
handle: to the memory behind it, or to a destroy or reset of an arena that has been destroyed
(`none`). Conditions, and how often a loop runs, are left open. -/
inductive Exec (meets : ArenaMemory → Text → Prop) :
    ArenaBody → ArenaMemory → Option ArenaMemory → Prop
  | done {M : ArenaMemory} : Exec meets .done M (some M)
  | arena {isDeclaration : Bool} {handle : Text} {M : ArenaMemory} :
    Exec meets (.arena isDeclaration handle) M (some (M.create handle))
  | destroy {handle : Text} {M : ArenaMemory} {arena : ℕ} (hmeets : meets M handle)
    (hhandle : M.handles handle = some arena) (hlive : arena ∉ M.destroyed) :
    Exec meets (.destroy handle) M (some (M.destroy arena))
  | destroyTwice {handle : Text} {M : ArenaMemory} {arena : ℕ} (hmeets : meets M handle)
    (hhandle : M.handles handle = some arena) (hdestroyed : arena ∈ M.destroyed) :
    Exec meets (.destroy handle) M none
  | reset {handle : Text} {M : ArenaMemory} {arena : ℕ} (hmeets : meets M handle)
    (hhandle : M.handles handle = some arena) (hlive : arena ∉ M.destroyed) :
    Exec meets (.reset handle) M (some M)
  | resetDestroyed {handle : Text} {M : ArenaMemory} {arena : ℕ} (hmeets : meets M handle)
    (hhandle : M.handles handle = some arena) (hdestroyed : arena ∈ M.destroyed) :
    Exec meets (.reset handle) M none
  | sequence {first second : ArenaBody} {M M' : ArenaMemory} {result : Option ArenaMemory}
    (hfirst : Exec meets first M (some M')) (hsecond : Exec meets second M' result) :
    Exec meets (.sequence first second) M result
  | sequenceTwice {first second : ArenaBody} {M : ArenaMemory} (hfirst : Exec meets first M none) :
    Exec meets (.sequence first second) M none
  | block {body : ArenaBody} {M M' : ArenaMemory} (h : Exec meets body M (some M')) :
    Exec meets (.block body) M (some (M'.leave M body.declared))
  | blockTwice {body : ArenaBody} {M : ArenaMemory} (h : Exec meets body M none) :
    Exec meets (.block body) M none
  | consequence {consequence alternative : ArenaBody} {M : ArenaMemory}
    {result : Option ArenaMemory} (h : Exec meets consequence M result) :
    Exec meets (.branch consequence alternative) M result
  | alternative {consequence alternative : ArenaBody} {M : ArenaMemory}
    {result : Option ArenaMemory} (h : Exec meets alternative M result) :
    Exec meets (.branch consequence alternative) M result
  | loopEnd {body : ArenaBody} {M : ArenaMemory} :
    Exec meets (.loop body) M (some (M.hide body.bound))
  | loopTwice {body : ArenaBody} {M : ArenaMemory} (h : Exec meets (.block body) M none) :
    Exec meets (.loop body) M none
  | loopStep {body : ArenaBody} {M M' : ArenaMemory} {result : Option ArenaMemory}
    (h : Exec meets (.block body) M (some M'))
    (hrest : Exec meets (.loop body) (M'.iterate M) result) :
    Exec meets (.loop body) M (result.map fun after => after.behindLoop M')

/-- The deferred calls at the end of a function, the last one first. -/
def destroyAll (deferred : List Text) : ArenaBody :=
  deferred.foldr (fun handle rest => .sequence (.destroy handle) rest) .done

/-- The executions of a function; what is deferred so far, the last one first, runs at its end. -/
inductive FunctionExec (meets : ArenaMemory → Text → Prop) :
    ArenaFunction → List Text → ArenaMemory → Option ArenaMemory → Prop
  | exit {deferred : List Text} {M : ArenaMemory} {result : Option ArenaMemory}
    (h : Exec meets (destroyAll deferred) M result) : FunctionExec meets [] deferred M result
  | plain {body : ArenaBody} {rest : ArenaFunction} {deferred : List Text} {M M' : ArenaMemory}
    {result : Option ArenaMemory} (h : Exec meets body M (some M'))
    (hrest : FunctionExec meets rest deferred M' result) :
    FunctionExec meets (.plain body :: rest) deferred M result
  | plainTwice {body : ArenaBody} {rest : ArenaFunction} {deferred : List Text} {M : ArenaMemory}
    (h : Exec meets body M none) : FunctionExec meets (.plain body :: rest) deferred M none
  | ensureDestroy {handle : Text} {rest : ArenaFunction} {deferred : List Text} {M : ArenaMemory}
    {result : Option ArenaMemory} (h : FunctionExec meets rest (handle :: deferred) M result) :
    FunctionExec meets (.ensureDestroy handle :: rest) deferred M result

/-- Some execution whose destroys and resets all meet the condition destroys or resets an arena that
has been destroyed. -/
def DestroysTwice (meets : ArenaMemory → Text → Prop) (f : ArenaFunction) : Prop :=
  FunctionExec meets f [] .empty none

/-- If the arena of a handle has been destroyed, the checker has that in sight: it was not in an
earlier iteration of a loop that still runs, and there has been no binding of the same name to
another handle, or in a loop that was not entered. -/
def Follows (M : ArenaMemory) (handle : Text) : Prop :=
  ∀ n, M.handles handle = some n → n ∈ M.destroyed → n ∈ M.inSight

end Grayscale.ArenaDestroys
