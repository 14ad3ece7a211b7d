import Grayscale.Util.Bytes

/-!
# Arena lifetimes

The pointer checker walks a function body once and keeps, for every `@mem` arena, whether it has
been destroyed and how often it has been reset, joins that where branches meet, and marks what a
loop body destroys or resets before it walks the body. The arena of a pointer and the epoch it was
allocated in are kept on the symbol of the pointer, and are not joined.
-/

namespace Grayscale

open Function

/-! ### Bodies -/

mutual

/-- The statements of a body: `mut x = mem.arena(n)` and `x = mem.arena(n)`, `mut p = mem.alloc(x,
n)` and `p = mem.alloc(x, n)` (or `mem.init`), `mem.destroy(x)`, `mem.reset(x)`, `p^`, blocks, `if`
with an alternative that is empty if there is none, `when` with the default as the last of its
bodies, and loops with the variables that they declare. -/
inductive ArenaStatement
  | arena (isDeclaration : Bool) (handle : Text)
  | allocate (isDeclaration : Bool) (pointer handle : Text)
  | destroy (handle : Text)
  | reset (handle : Text)
  | dereference (pointer : Text)
  | block (body : ArenaBlock)
  | ifStatement (consequence alternative : ArenaBlock)
  | whenStatement (isStrict hasDefault : Bool) (bodies : ArenaCases)
  | loop (loopNames : List Text) (body : ArenaBlock)

/-- The statements of a block. -/
inductive ArenaBlock
  | nil
  | cons (statement : ArenaStatement) (rest : ArenaBlock)

/-- The bodies of a `when`. -/
inductive ArenaCases
  | nil
  | cons (body : ArenaBlock) (rest : ArenaCases)

end

mutual

/-- A statement with all statements in it, in source order. -/
def ArenaStatement.subtree : ArenaStatement → List ArenaStatement
  | .arena isDeclaration handle => [.arena isDeclaration handle]
  | .allocate isDeclaration pointer handle => [.allocate isDeclaration pointer handle]
  | .destroy handle => [.destroy handle]
  | .reset handle => [.reset handle]
  | .dereference pointer => [.dereference pointer]
  | .block body => .block body :: body.subtree
  | .ifStatement consequence alternative =>
    .ifStatement consequence alternative :: (consequence.subtree ++ alternative.subtree)
  | .whenStatement isStrict hasDefault bodies =>
    .whenStatement isStrict hasDefault bodies :: bodies.subtree
  | .loop loopNames body => .loop loopNames body :: body.subtree

def ArenaBlock.subtree : ArenaBlock → List ArenaStatement
  | .nil => []
  | .cons statement rest => statement.subtree ++ rest.subtree

/-- All statements in the bodies of a `when`. -/
def ArenaCases.subtree : ArenaCases → List ArenaStatement
  | .nil => []
  | .cons body rest => body.subtree ++ rest.subtree

end

/-- Whether a statement itself declares a name, as a variable or for a loop. -/
def ArenaStatement.declares (name : Text) : ArenaStatement → Bool
  | .arena isDeclaration handle => isDeclaration && handle == name
  | .allocate isDeclaration pointer _ => isDeclaration && pointer == name
  | .loop loopNames _ => loopNames.contains name
  | _ => false

def declaredInSubtree (body : ArenaBlock) (name : Text) : Bool :=
  body.subtree.any (ArenaStatement.declares name)

/-- The variables that the statements of a block declare in its scope. -/
def ArenaBlock.declaredNames : ArenaBlock → List Text
  | .nil => []
  | .cons (.arena true handle) rest => handle :: rest.declaredNames
  | .cons (.allocate true pointer _) rest => pointer :: rest.declaredNames
  | .cons _ rest => rest.declaredNames

/-- What names stand for after a scope: the ones declared in it stand for what they stood for. -/
def leaveScope {α : Type} (names : List Text) (outside inside : Text → α) : Text → α :=
  fun name => if name ∈ names then outside name else inside name

/-! ### The pointer checker -/

/-- `ArenaLifetime`, as far as dereferences are concerned. -/
structure ArenaLifetime where
  name : Text
  isDestroyed : Bool
  isPremarkedDestroyed : Bool
  epoch : ℕ

/-- The state of the pointer checker: the arenas, and the `mem_arena` and `mem_epoch` of the symbols
in scope. -/
structure PointerChecker where
  arenas : List ArenaLifetime
  symbols : Text → Option (Text × ℕ)

/-- The errors of the pointer checker. -/
inductive ArenaError
  | useAfterDestroy
  | useAfterReset
  | destroyedTwice
deriving DecidableEq

/-- `pointer_checker_arena_get`. -/
def arenaGet (arenas : List ArenaLifetime) (name : Text) : Option ArenaLifetime :=
  arenas.find? fun arena => arena.name == name

/-- A change of the arena that `pointer_checker_arena_ensure` finds or appends. -/
def arenaEnsure (change : ArenaLifetime → ArenaLifetime) (name : Text) :
    List ArenaLifetime → List ArenaLifetime
  | [] => [change ⟨name, false, false, 0⟩]
  | arena :: l =>
    if arena.name == name then change arena :: l else arena :: arenaEnsure change name l

/-- What is joined for one arena in `pointer_checker_join`. -/
def joinArena (live other : ArenaLifetime) : ArenaLifetime := { live with
    isDestroyed := live.isDestroyed || other.isDestroyed
    epoch := max live.epoch other.epoch }

/-- `pointer_checker_join`, arena by arena from the first on. -/
def pointerCheckerJoin : List ArenaLifetime → List ArenaLifetime → List ArenaLifetime
  | live :: l, other :: l' => joinArena live other :: pointerCheckerJoin l l'
  | l, _ => l

/-- A fresh arena of a handle: `pointer_checker_apply_mem_call` for `mem.arena`. -/
def freshArena (arena : ArenaLifetime) : ArenaLifetime := { arena with isDestroyed := false, epoch := 0 }

/-- The effect of `pointer_checker_apply_arena_lifecycle` for a destroy. -/
def destroyArena (arena : ArenaLifetime) : ArenaLifetime := { arena with isDestroyed := true }

/-- The effect of `pointer_checker_apply_arena_lifecycle` for a reset. -/
def resetArena (arena : ArenaLifetime) : ArenaLifetime := { arena with epoch := arena.epoch + 1 }

/-- The mark of a loop for an arena that it destroys. -/
def premarkArena (arena : ArenaLifetime) : ArenaLifetime :=
  { arena with isPremarkedDestroyed := true }

/-- `pointer_checker_apply_arena_lifecycle`. -/
def applyArenaLifecycle (change : ArenaLifetime → ArenaLifetime) (name : Text)
    (checker : PointerChecker) : PointerChecker × List ArenaError :=
  if (arenaGet checker.arenas name).any ArenaLifetime.isDestroyed then
    (checker, [.destroyedTwice])
  else ({ checker with arenas := arenaEnsure change name checker.arenas }, [])

/-- `pointer_checker_check_mem_deref` for a bare variable. -/
def checkMemDeref (pointer : Text) (checker : PointerChecker) : List ArenaError :=
  match checker.symbols pointer with
  | none => []
  | some (arenaName, boundEpoch) =>
    match arenaGet checker.arenas arenaName with
    | none => []
    | some arena =>
      if arena.isDestroyed || arena.isPremarkedDestroyed then [.useAfterDestroy]
      else if arena.epoch > boundEpoch then [.useAfterReset]
      else []

/-- What `pointer_checker_premark_loop_body` does at one statement of a loop body. -/
def premarkStatement (body : ArenaBlock) (arenas : List ArenaLifetime) :
    ArenaStatement → List ArenaLifetime
  | .destroy handle =>
    if declaredInSubtree body handle then arenas else arenaEnsure premarkArena handle arenas
  | .reset handle =>
    if declaredInSubtree body handle then arenas else arenaEnsure resetArena handle arenas
  | _ => arenas

/-- `pointer_checker_premark_loop_body`. -/
def premarkLoopBody (body : ArenaBlock) (arenas : List ArenaLifetime) : List ArenaLifetime :=
  body.subtree.foldl (premarkStatement body) arenas

/-- `mem.arena` bound to a variable: its row is fresh, and its symbol points nowhere. -/
def bindArena (handle : Text) (checker : PointerChecker) : PointerChecker where
  arenas := arenaEnsure freshArena handle checker.arenas
  symbols := update checker.symbols handle none

/-- `pointer_checker_bind_mem_pointer` for an allocation: the symbol gets the epoch of the arena. -/
def bindMemPointer (pointer handle : Text) (checker : PointerChecker) : PointerChecker where
  arenas := arenaEnsure id handle checker.arenas
  symbols := update checker.symbols pointer
    (some (handle, ((arenaGet checker.arenas handle).map ArenaLifetime.epoch).getD 0))

/-- The state of a `when` after a body: joined with what the bodies before it have left. -/
def mergeBody (checked : PointerChecker) (merged : Option (List ArenaLifetime)) :
    List ArenaLifetime :=
  match merged with
  | none => checked.arenas
  | some arenas => pointerCheckerJoin checked.arenas arenas

/-- The arenas after a `when`. -/
def settleWhen (isStrict hasDefault : Bool) (before : List ArenaLifetime)
    (merged : Option (List ArenaLifetime)) : List ArenaLifetime :=
  match merged with
  | none => before
  | some arenas =>
    if !isStrict && !hasDefault then pointerCheckerJoin before arenas else arenas

/-- What is left of a block that is checked in a scope of its own. -/
def leaveChecked (body : ArenaBlock) (outside : PointerChecker)
    (checked : PointerChecker × List ArenaError) : PointerChecker × List ArenaError :=
  ({ checked.1 with symbols := leaveScope body.declaredNames outside.symbols checked.1.symbols },
    checked.2)

mutual

def ArenaStatement.check : ArenaStatement → PointerChecker → PointerChecker × List ArenaError
  | .arena _ handle, checker => (bindArena handle checker, [])
  | .allocate _ pointer handle, checker => (bindMemPointer pointer handle checker, [])
  | .destroy handle, checker => applyArenaLifecycle destroyArena handle checker
  | .reset handle, checker => applyArenaLifecycle resetArena handle checker
  | .dereference pointer, checker => (checker, checkMemDeref pointer checker)
  | .block body, checker => leaveChecked body checker (body.check checker)
  | .ifStatement consequence alternative, checker =>
    let thenChecked := leaveChecked consequence checker (consequence.check checker)
    let elseBefore := { thenChecked.1 with arenas := checker.arenas }
    let elseChecked := leaveChecked alternative elseBefore (alternative.check elseBefore)
    ({ elseChecked.1 with arenas := pointerCheckerJoin elseChecked.1.arenas thenChecked.1.arenas },
      thenChecked.2 ++ elseChecked.2)
  | .whenStatement isStrict hasDefault bodies, checker =>
    let checked := bodies.check checker.arenas none checker
    ({ checked.1 with arenas := settleWhen isStrict hasDefault checker.arenas checked.2.1 },
      checked.2.2)
  | .loop _ body, checker =>
    let premarked := { checker with arenas := premarkLoopBody body checker.arenas }
    leaveChecked body premarked (body.check premarked)

def ArenaBlock.check : ArenaBlock → PointerChecker → PointerChecker × List ArenaError
  | .nil, checker => (checker, [])
  | .cons statement rest, checker =>
    let first := statement.check checker
    let checked := rest.check first.1
    (checked.1, first.2 ++ checked.2)

/-- The pointer checker on the bodies of a `when`, each from the arenas before it; in the middle
what is merged of the bodies. -/
def ArenaCases.check : ArenaCases → List ArenaLifetime → Option (List ArenaLifetime) →
    PointerChecker → PointerChecker × Option (List ArenaLifetime) × List ArenaError
  | .nil, _, merged, checker => (checker, merged, [])
  | .cons body rest, before, merged, checker =>
    let outside := { checker with arenas := before }
    let first := leaveChecked body outside (body.check outside)
    let live := mergeBody first.1 merged
    let checked := rest.check before (some live) { first.1 with arenas := live }
    (checked.1, checked.2.1, first.2 ++ checked.2.2)

end

def ArenaBlock.checkScope (body : ArenaBlock) (checker : PointerChecker) :
    PointerChecker × List ArenaError := leaveChecked body checker (body.check checker)

/-- What is reported for a function body. -/
def arenaErrors (body : ArenaBlock) : List ArenaError := (body.checkScope ⟨[], fun _ => none⟩).2

/-! ### Executions -/

/-- The arenas at run time. An arena has a number; a handle stands for one, and a pointer for the
place in one, and the resets of it, that it was allocated at. -/
structure ArenaMemory where
  handles : Text → Option ℕ
  pointers : Text → Option (ℕ × ℕ)
  isDestroyed : ℕ → Bool
  resets : ℕ → ℕ
  next : ℕ

/-- The memory after `mem.arena`. -/
def ArenaMemory.create (memory : ArenaMemory) (handle : Text) : ArenaMemory := { memory with
    handles := update memory.handles handle (some memory.next)
    isDestroyed := update memory.isDestroyed memory.next false
    resets := update memory.resets memory.next 0
    next := memory.next + 1 }

/-- The memory after a scope. -/
def ArenaMemory.leave (memory : ArenaMemory) (names : List Text) (outside : ArenaMemory) :
    ArenaMemory := { memory with
    handles := leaveScope names outside.handles memory.handles
    pointers := leaveScope names outside.pointers memory.pointers }

/-- A dereference of a pointer uses an arena that is destroyed, or was reset since the
allocation. -/
def ArenaMemory.IsStale (memory : ArenaMemory) (pointer : Text) : Prop :=
  ∃ arena resets, memory.pointers pointer = some (arena, resets) ∧
    (memory.isDestroyed arena = true ∨ memory.resets arena > resets)

/-- What is executed: a statement, a block in a scope, or the statements of a block. -/
inductive ArenaTask
  | statement (s : ArenaStatement)
  | scope (b : ArenaBlock)
  | statements (b : ArenaBlock)

/-- A body of a `when`. -/
inductive ArenaCases.Has : ArenaCases → ArenaBlock → Prop
  | head {body : ArenaBlock} {rest : ArenaCases} : Has (.cons body rest) body
  | tail {body other : ArenaBlock} {rest : ArenaCases} (h : rest.Has body) :
    Has (.cons other rest) body

/-- The executions: to the memory after a task, or to a dereference of a stale pointer (`none`).
Conditions, and how often a loop runs, are left open. -/
inductive ArenaExec : ArenaTask → ArenaMemory → Option ArenaMemory → Prop
  | arena {isDeclaration : Bool} {handle : Text} {memory : ArenaMemory} :
    ArenaExec (.statement (.arena isDeclaration handle)) memory (some (memory.create handle))
  | allocate {isDeclaration : Bool} {pointer handle : Text} {memory : ArenaMemory} {arena : ℕ}
    (h : memory.handles handle = some arena) :
    ArenaExec (.statement (.allocate isDeclaration pointer handle)) memory (some { memory with
      pointers := update memory.pointers pointer (some (arena, memory.resets arena)) })
  | destroy {handle : Text} {memory : ArenaMemory} {arena : ℕ}
    (h : memory.handles handle = some arena) :
    ArenaExec (.statement (.destroy handle)) memory (some { memory with
      isDestroyed := update memory.isDestroyed arena true })
  | reset {handle : Text} {memory : ArenaMemory} {arena : ℕ}
    (h : memory.handles handle = some arena) :
    ArenaExec (.statement (.reset handle)) memory (some { memory with
      resets := update memory.resets arena (memory.resets arena + 1) })
  | dereference {pointer : Text} {memory : ArenaMemory} (h : ¬ memory.IsStale pointer) :
    ArenaExec (.statement (.dereference pointer)) memory (some memory)
  | stale {pointer : Text} {memory : ArenaMemory} (h : memory.IsStale pointer) :
    ArenaExec (.statement (.dereference pointer)) memory none
  | block {body : ArenaBlock} {memory : ArenaMemory} {result : Option ArenaMemory}
    (h : ArenaExec (.scope body) memory result) : ArenaExec (.statement (.block body)) memory result
  | consequence {consequence alternative : ArenaBlock} {memory : ArenaMemory}
    {result : Option ArenaMemory} (h : ArenaExec (.scope consequence) memory result) :
    ArenaExec (.statement (.ifStatement consequence alternative)) memory result
  | alternative {consequence alternative : ArenaBlock} {memory : ArenaMemory}
    {result : Option ArenaMemory} (h : ArenaExec (.scope alternative) memory result) :
    ArenaExec (.statement (.ifStatement consequence alternative)) memory result
  | whenCase {isStrict hasDefault : Bool} {bodies : ArenaCases} {body : ArenaBlock}
    {memory : ArenaMemory} {result : Option ArenaMemory} (hbody : bodies.Has body)
    (h : ArenaExec (.scope body) memory result) :
    ArenaExec (.statement (.whenStatement isStrict hasDefault bodies)) memory result
  | whenNone {bodies : ArenaCases} {memory : ArenaMemory} :
    ArenaExec (.statement (.whenStatement false false bodies)) memory (some memory)
  | loopEnd {loopNames : List Text} {body : ArenaBlock} {memory : ArenaMemory} :
    ArenaExec (.statement (.loop loopNames body)) memory (some memory)
  | loopStale {loopNames : List Text} {body : ArenaBlock} {memory : ArenaMemory}
    (h : ArenaExec (.scope body) memory none) :
    ArenaExec (.statement (.loop loopNames body)) memory none
  | loopStep {loopNames : List Text} {body : ArenaBlock} {memory middle : ArenaMemory}
    {result : Option ArenaMemory} (h : ArenaExec (.scope body) memory (some middle))
    (hrest : ArenaExec (.statement (.loop loopNames body)) middle result) :
    ArenaExec (.statement (.loop loopNames body)) memory result
  | scope {body : ArenaBlock} {memory after : ArenaMemory}
    (h : ArenaExec (.statements body) memory (some after)) :
    ArenaExec (.scope body) memory (some (after.leave body.declaredNames memory))
  | scopeStale {body : ArenaBlock} {memory : ArenaMemory}
    (h : ArenaExec (.statements body) memory none) : ArenaExec (.scope body) memory none
  | nil {memory : ArenaMemory} : ArenaExec (.statements .nil) memory (some memory)
  | cons {statement : ArenaStatement} {rest : ArenaBlock} {memory middle : ArenaMemory}
    {result : Option ArenaMemory} (h : ArenaExec (.statement statement) memory (some middle))
    (hrest : ArenaExec (.statements rest) middle result) :
    ArenaExec (.statements (.cons statement rest)) memory result
  | consStale {statement : ArenaStatement} {rest : ArenaBlock} {memory : ArenaMemory}
    (h : ArenaExec (.statement statement) memory none) :
    ArenaExec (.statements (.cons statement rest)) memory none

end Grayscale
