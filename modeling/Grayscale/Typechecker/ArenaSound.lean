import Grayscale.Typechecker.ArenaEffects

/-!
# Use after free

The pointer checker knows the arena of a pointer from the last allocation that it has walked over. A
body follows it where every dereference does: the pointer was not allocated in a branch or a loop
body that has ended, nor is it later in a loop around the dereference, and its handle has got no
other arena since. In bodies that do, whatever is not reported is safe.
-/

namespace Grayscale

open List Function
open Option (bind_eq_some_iff map_eq_some_iff some.inj)

/-! ### Following the checker -/

/-- What is known of a pointer: it has not been allocated, its last allocation is the one that the
checker has seen last, from the arena of a handle, or neither. -/
inductive PointerStatus
  | unset
  | allocated (handle : Text)
  | unknown
deriving DecidableEq

/-- What is known of the pointers, and whether the row of a handle is that of its arena. -/
structure ArenaTracking where
  pointers : Text → PointerStatus
  handles : Text → Bool

/-- What is known where the checker has walked over a part that is not executed. -/
def ArenaTracking.forget (t : ArenaTracking) (l : List ArenaStatement) : ArenaTracking where
  pointers pointer :=
    if Occurs ArenaStatement.assigns l pointer then .unknown else t.pointers pointer
  handles := t.handles

/-- What is known after a part that may be executed or not. -/
def ArenaTracking.spoil (t : ArenaTracking) (l : List ArenaStatement) : ArenaTracking where
  pointers pointer :=
    if Occurs ArenaStatement.assigns l pointer then .unknown
    else match t.pointers pointer with
      | .allocated handle =>
        if Occurs ArenaStatement.creates l handle then .unknown else .allocated handle
      | status => status
  handles handle := t.handles handle && !decide (Occurs ArenaStatement.creates l handle)

/-- What is known after a block, from what is known before it and at its end. -/
def ArenaTracking.leave (t : ArenaTracking) (body : ArenaBlock) (inside : ArenaTracking) :
    ArenaTracking where
  pointers pointer :=
    if pointer ∈ body.declaredNames then (t.spoil body.subtree).pointers pointer
    else match inside.pointers pointer with
      | .allocated handle => if handle ∈ body.declaredNames then .unknown else .allocated handle
      | status => status
  handles handle := !decide (handle ∈ body.declaredNames) && inside.handles handle

/-- What is known after branches: of pointers, what none of them may have changed, and of handles,
what is known after all of them. -/
def ArenaTracking.merge (t : ArenaTracking) (l : List ArenaStatement) (handles : Text → Bool) :
    ArenaTracking where
  pointers := (t.spoil l).pointers
  handles handle := t.handles handle && handles handle

mutual

/-- What is known after a statement, if its dereferences follow the checker. -/
def ArenaStatement.follow : ArenaStatement → ArenaTracking → Option ArenaTracking
  | .arena _ handle, t => some
    { pointers := fun pointer =>
        if pointer = handle ∨ t.pointers pointer = .allocated handle then .unknown
        else t.pointers pointer
      handles := update t.handles handle true }
  | .allocate _ pointer handle, t => some { t with
      pointers := update t.pointers pointer
        (if t.handles handle then .allocated handle else .unknown) }
  | .destroy _, t => some t
  | .reset _, t => some t
  | .dereference pointer, t => if t.pointers pointer = .unknown then none else some t
  | .block body, t => (body.follow t).map (t.leave body)
  | .ifStatement consequence alternative, t =>
    (consequence.follow t).bind fun thenInside =>
      (alternative.follow (t.forget consequence.subtree)).map fun elseInside =>
        t.merge (ArenaStatement.ifStatement consequence alternative).subtree fun handle =>
          (t.leave consequence thenInside).handles handle &&
            ((t.forget consequence.subtree).leave alternative elseInside).handles handle
  | .whenStatement isStrict hasDefault bodies, t =>
    (bodies.follow t).map
      (t.merge (ArenaStatement.whenStatement isStrict hasDefault bodies).subtree)
  | .loop loopNames body, t =>
    (body.follow (t.spoil (ArenaStatement.loop loopNames body).subtree)).map fun _ =>
      t.spoil (ArenaStatement.loop loopNames body).subtree

/-- What is known after the statements of a block. -/
def ArenaBlock.follow : ArenaBlock → ArenaTracking → Option ArenaTracking
  | .nil, t => some t
  | .cons statement rest, t => (statement.follow t).bind rest.follow

/-- The handles that are known after all bodies of a `when`. -/
def ArenaCases.follow : ArenaCases → ArenaTracking → Option (Text → Bool)
  | .nil, _ => some fun _ => true
  | .cons body rest, t =>
    (body.follow t).bind fun inside => (rest.follow (t.forget body.subtree)).map fun handles =>
      fun handle => (t.leave body inside).handles handle && handles handle

end

def FollowsChecker (body : ArenaBlock) : Prop :=
  (body.follow ⟨fun _ => .unset, fun _ => false⟩).isSome = true

/-! ### The invariant -/

/-- What the checker knows about the memory. `marked` holds of the handles whose arenas a loop
around the statement destroys. -/
structure ArenaInvariant (marked : Text → Prop) (t : ArenaTracking) (checker : PointerChecker)
    (memory : ArenaMemory) : Prop where
  distinct : memory.Distinct
  marks : ∀ handle, marked handle → ∃ row, arenaGet checker.arenas handle = some row ∧
    row.isPremarkedDestroyed = true
  handles : ∀ handle, t.handles handle = true → ∃ row, arenaGet checker.arenas handle = some row ∧
    ∀ arena, memory.handles handle = some arena → memory.isDestroyed arena = true →
      row.isDestroyed = true ∨ marked handle
  allocated : ∀ pointer handle, t.pointers pointer = .allocated handle →
    ∃ arena resets epoch row, memory.pointers pointer = some (arena, resets) ∧
      memory.handles handle = some arena ∧ checker.symbols pointer = some (handle, epoch) ∧
      arenaGet checker.arenas handle = some row ∧ epoch ≤ row.epoch ∧
      (memory.isDestroyed arena = true → row.isDestroyed = true ∨ marked handle) ∧
      (resets < memory.resets arena → epoch < row.epoch)
  unset : ∀ pointer, t.pointers pointer = .unset → memory.pointers pointer = none

theorem name_of_arenaGet {arenas : List ArenaLifetime} {name : Text} {row : ArenaLifetime}
    (h : arenaGet arenas name = some row) : row.name = name :=
  beq_iff_eq.mp (find?_some (p := fun arena : ArenaLifetime => arena.name == name) h)

variable {t : ArenaTracking} {l : List ArenaStatement}

theorem spoil_eq_allocated {pointer handle : Text}
    (h : (t.spoil l).pointers pointer = .allocated handle) :
    t.pointers pointer = .allocated handle ∧ ¬ Occurs ArenaStatement.assigns l pointer ∧
      ¬ Occurs ArenaStatement.creates l handle := by
  change (if _ then _ else _) = _ at h
  split_ifs at h with hasgn
  cases hstat : t.pointers pointer with
  | allocated handle' =>
    rw [hstat] at h
    change (if _ then _ else _) = _ at h
    split_ifs at h with hmk
    obtain rfl := PointerStatus.allocated.inj h
    exact ⟨rfl, hasgn, hmk⟩
  | unset | unknown =>
    rw [hstat] at h
    cases h

theorem spoil_eq_unset {pointer : Text}
    (h : (t.spoil l).pointers pointer = .unset) :
    t.pointers pointer = .unset ∧ ¬ Occurs ArenaStatement.assigns l pointer := by
  change (if _ then _ else _) = _ at h
  split_ifs at h with hasgn
  cases hstat : t.pointers pointer with
  | allocated handle =>
    rw [hstat] at h
    change (if _ then _ else _) = _ at h
    split_ifs at h
  | unset => exact ⟨rfl, hasgn⟩
  | unknown =>
    rw [hstat] at h
    cases h

theorem spoil_handles {handle : Text}
    (h : (t.spoil l).handles handle = true) :
    t.handles handle = true ∧ ¬ Occurs ArenaStatement.creates l handle := by
  change (_ && _) = true at h
  rw [Bool.and_eq_true, Bool.not_eq_true', decide_eq_false_iff_not] at h
  exact h

section Invariant

variable {marked : Text → Prop} {t : ArenaTracking} {checker checked : PointerChecker}
  {memory after : ArenaMemory} {l : List ArenaStatement}

theorem ArenaInvariant.spoil (h : ArenaInvariant marked t checker memory)
    (hchk : CheckEffect l [] checker checked) (hmem : MemoryEffect l [] memory after) :
    ArenaInvariant marked (t.spoil l) checked after := by
  refine ⟨hmem.distinct, fun handle hmarked => ?_, fun handle hhandle => ?_,
    fun pointer handle hptr => ?_, fun pointer hptr => ?_⟩
  · obtain ⟨row, hrow, hmark⟩ := h.marks handle hmarked
    obtain ⟨row', hrow', hstep⟩ := hchk.rows.arenaGet not_mem_nil hrow
    exact ⟨row', hrow', hstep.premarked hmark⟩
  · obtain ⟨hkno, hmk⟩ := spoil_handles hhandle
    obtain ⟨row, hrow, hdead⟩ := h.handles handle hkno
    obtain ⟨row', hrow', hstep⟩ := hchk.rows.arenaGet not_mem_nil hrow
    obtain rfl := name_of_arenaGet hrow
    refine ⟨row', hrow', fun arena har hgone => ?_⟩
    rw [hmem.handles _ hmk] at har
    by_cases hkill : Occurs ArenaStatement.destroys l row.name
    · exact .inl (hstep.destroys hmk hkill)
    · rw [hmem.destroyed _ arena har hmk hkill] at hgone
      exact (hdead arena har hgone).imp_left (hstep.destroyed hmk)
  · obtain ⟨hstat, hasgn, hmk⟩ := spoil_eq_allocated hptr
    obtain ⟨arena, resets, epoch, row, hplc, har, hsym, hrow, hepoch, hdead, hreset⟩ :=
      h.allocated pointer handle hstat
    obtain ⟨row', hrow', hstep⟩ := hchk.rows.arenaGet not_mem_nil hrow
    obtain rfl := name_of_arenaGet hrow
    refine ⟨arena, resets, epoch, row', (hmem.pointers _ hasgn not_mem_nil).trans hplc,
      (hmem.handles _ hmk).trans har, (hchk.symbols _ hasgn not_mem_nil).trans hsym, hrow',
      Nat.le_trans hepoch (hstep.epoch hmk), fun hgone => ?_, fun hlt => ?_⟩
    · by_cases hkill : Occurs ArenaStatement.destroys l row.name
      · exact .inl (hstep.destroys hmk hkill)
      · rw [hmem.destroyed _ arena har hmk hkill] at hgone
        exact (hdead hgone).imp_left (hstep.destroyed hmk)
    · by_cases hrst : Occurs ArenaStatement.resets l row.name
      · exact Nat.lt_of_le_of_lt hepoch (hstep.resets hmk hrst)
      · rw [hmem.resets _ arena har hmk hrst] at hlt
        exact Nat.lt_of_lt_of_le (hreset hlt) (hstep.epoch hmk)
  · obtain ⟨hstat, hasgn⟩ := spoil_eq_unset hptr
    exact (hmem.pointers _ hasgn not_mem_nil).trans (h.unset pointer hstat)

theorem ArenaInvariant.forget (h : ArenaInvariant marked t checker memory)
    (harenas : checked.arenas = checker.arenas)
    (hsymbols : ∀ pointer, ¬ Occurs ArenaStatement.assigns l pointer →
      checked.symbols pointer = checker.symbols pointer) :
    ArenaInvariant marked (t.forget l) checked memory := by
  have hpointers : ∀ {pointer status}, (t.forget l).pointers pointer = status → status ≠ .unknown →
      t.pointers pointer = status ∧ ¬ Occurs ArenaStatement.assigns l pointer := by
    intro pointer status hstat hkno
    change (if _ then _ else _) = _ at hstat
    split_ifs at hstat with hasgn
    · exact absurd hstat.symm hkno
    · exact ⟨hstat, hasgn⟩
  refine ⟨h.distinct, ?_, ?_, fun pointer handle hptr => ?_, fun pointer hptr => ?_⟩
  · rw [harenas]
    exact h.marks
  · rw [harenas]
    exact h.handles
  · obtain ⟨hstat, hasgn⟩ := hpointers hptr (by simp)
    rw [harenas, hsymbols pointer hasgn]
    exact h.allocated pointer handle hstat
  · exact h.unset pointer (hpointers hptr (by simp)).1

theorem ArenaInvariant.merge {handles : Text → Bool}
    (h : ArenaInvariant marked (t.spoil l) checked after)
    (hhands : ∀ handle, t.handles handle = true → handles handle = true →
      ∃ row, arenaGet checked.arenas handle = some row ∧
        ∀ arena, after.handles handle = some arena → after.isDestroyed arena = true →
          row.isDestroyed = true ∨ marked handle) :
    ArenaInvariant marked (t.merge l handles) checked after := by
  refine ⟨h.distinct, h.marks, fun handle hhandle => ?_, h.allocated, h.unset⟩
  rw [ArenaTracking.merge, Bool.and_eq_true] at hhandle
  exact hhands handle hhandle.1 hhandle.2

theorem ArenaInvariant.leave {body : ArenaBlock} {inside : ArenaTracking}
    {checkedInside : PointerChecker × List ArenaError} {afterInside : ArenaMemory}
    (h : ArenaInvariant marked t checker memory)
    (hchk : CheckEffect body.subtree body.declaredNames checker checkedInside.1)
    (hmem : MemoryEffect body.subtree body.declaredNames memory afterInside)
    (hin : ArenaInvariant marked inside checkedInside.1 afterInside) :
    ArenaInvariant marked (t.leave body inside) (leaveChecked body checker checkedInside).1
      (afterInside.leave body.declaredNames memory) := by
  have hspoil := h.spoil hchk.scope
    (hmem.leave h.distinct fun _ hname => occurs_of_mem_declared hname)
  have hkp : ∀ {α : Type} (outside inner : Text → α) {name : Text}, name ∉ body.declaredNames →
      leaveScope body.declaredNames outside inner name = inner name :=
    fun _ _ _ hname => if_neg hname
  refine ⟨hspoil.distinct, hin.marks, fun handle hhandle => ?_,
    fun pointer handle hptr => ?_, fun pointer hptr => ?_⟩
  · rw [ArenaTracking.leave, Bool.and_eq_true, Bool.not_eq_true', decide_eq_false_iff_not] at hhandle
    obtain ⟨row, hrow, hdead⟩ := hin.handles handle hhandle.2
    refine ⟨row, hrow, fun arena har => hdead arena ?_⟩
    exact (hkp memory.handles afterInside.handles hhandle.1).symm.trans har
  · change (if _ then _ else _) = _ at hptr
    split_ifs at hptr with hdecl
    · exact hspoil.allocated pointer handle hptr
    · cases hstat : inside.pointers pointer with
      | unset | unknown =>
        rw [hstat] at hptr
        cases hptr
      | allocated handle' =>
        rw [hstat] at hptr
        change (if _ then _ else _) = _ at hptr
        split_ifs at hptr with hhandle
        obtain rfl := PointerStatus.allocated.inj hptr
        obtain ⟨arena, resets, epoch, row, hplc, har, hsym, hrest⟩ :=
          hin.allocated pointer handle' hstat
        exact ⟨arena, resets, epoch, row, (hkp _ _ hdecl).trans hplc,
          (hkp _ _ hhandle).trans har, (hkp _ _ hdecl).trans hsym, hrest⟩
  · change (if _ then _ else _) = _ at hptr
    split_ifs at hptr with hdecl
    · exact hspoil.unset pointer hptr
    · cases hstat : inside.pointers pointer with
      | unset => exact (hkp _ _ hdecl).trans (hin.unset pointer hstat)
      | allocated handle =>
        rw [hstat] at hptr
        change (if _ then _ else _) = _ at hptr
        split_ifs at hptr
      | unknown =>
        rw [hstat] at hptr
        cases hptr

end Invariant
/-! ### Single statements -/

theorem spoil_of_not_occurs
    (hasgn : ∀ name, ¬ Occurs ArenaStatement.assigns l name)
    (hmk : ∀ name, ¬ Occurs ArenaStatement.creates l name) : t.spoil l = t := by
  have hpointers : (t.spoil l).pointers = t.pointers := by
    funext pointer
    change (if _ then _ else _) = _
    rw [if_neg (hasgn pointer)]
    cases hstat : t.pointers pointer with
    | unset | unknown => rfl
    | allocated handle =>
      change (if _ then _ else _) = _
      rw [if_neg (hmk handle)]
  have hhands : (t.spoil l).handles = t.handles := by
    funext handle
    change (_ && _) = _
    rw [decide_eq_false (hmk handle), Bool.not_false, Bool.and_true]
  calc t.spoil l = ⟨(t.spoil l).pointers, (t.spoil l).handles⟩ := rfl
    _ = t := by rw [hpointers, hhands]

section Single

variable {marked : Text → Prop} {t t' : ArenaTracking} {checker : PointerChecker}
  {memory : ArenaMemory}

theorem ArenaInvariant.arena {isDeclaration : Bool} {handle : Text}
    (h : ArenaInvariant marked t checker memory)
    (ht : (ArenaStatement.arena isDeclaration handle).follow t = some t') :
    ArenaInvariant marked t' (bindArena handle checker) (memory.create handle) := by
  have hspoil := h.spoil (effect_arena isDeclaration handle [] checker)
    (memoryEffect_create h.distinct [])
  cases ht
  have hsame : ∀ {pointer status}, (if pointer = handle ∨ t.pointers pointer = .allocated handle then
      .unknown else t.pointers pointer) = status → status ≠ .unknown →
      (t.spoil [.arena isDeclaration handle]).pointers pointer = status := by
    intro pointer status hstat hkno
    split_ifs at hstat with hchg
    · exact absurd hstat.symm hkno
    · rw [not_or] at hchg
      change (if _ then _ else _) = _
      rw [if_neg fun hasgn => hchg.1 (beq_iff_eq.mp (occurs_singleton.mp hasgn)).symm]
      rw [hstat] at hchg ⊢
      cases status with
      | unset | unknown => rfl
      | allocated other =>
        change (if _ then _ else _) = _
        rw [if_neg fun hmk => hchg.2 ?_]
        rw [← beq_iff_eq.mp (occurs_singleton.mp hmk)]
  refine ⟨hspoil.distinct, hspoil.marks, fun other hoth => ?_,
    fun pointer other hptr => hspoil.allocated pointer other (hsame hptr (by simp)),
    fun pointer hptr => hspoil.unset pointer (hsame hptr (by simp))⟩
  by_cases heq : other = handle
  · obtain rfl := heq
    refine ⟨_, arenaGet_arenaEnsure freshArena (fun _ => rfl) checker.arenas,
      fun arena har hgone => ?_⟩
    rw [show (memory.create other).handles other = some memory.next from update_self ..]
      at har
    rw [← some.inj har, show (memory.create other).isDestroyed memory.next = false from
      update_self ..] at hgone
    cases hgone
  · refine hspoil.handles other ?_
    change (t.handles other && _) = true
    change update t.handles handle true other = true at hoth
    rw [update_of_ne heq] at hoth
    rw [hoth, decide_eq_false fun hmk => heq
      (beq_iff_eq.mp (occurs_singleton.mp hmk)).symm]
    rfl

theorem ArenaInvariant.allocate {isDeclaration : Bool} {pointer handle : Text} {arena : ℕ}
    (h : ArenaInvariant marked t checker memory) (har : memory.handles handle = some arena)
    (ht : (ArenaStatement.allocate isDeclaration pointer handle).follow t = some t') :
    ArenaInvariant marked t' (bindMemPointer pointer handle checker) { memory with
      pointers := update memory.pointers pointer (some (arena, memory.resets arena)) } := by
  cases ht
  have hrows : ∀ {name row}, arenaGet checker.arenas name = some row →
      arenaGet (bindMemPointer pointer handle checker).arenas name = some row := by
    intro name row hrow
    have hkp : RowsPrefix (fun row row' => row' = row) [] checker.arenas
        (bindMemPointer pointer handle checker).arenas :=
      rowsPrefix_arenaEnsure (fun _ => rfl) (fun _ _ => rfl) (fun _ _ => rfl)
    obtain ⟨row', hrow', rfl⟩ := hkp.arenaGet not_mem_nil hrow
    exact hrow'
  refine ⟨⟨h.distinct.bound, h.distinct.injective⟩, fun name hmarked => ?_, fun name hkno => ?_,
    fun name other hname => ?_, fun name hname => ?_⟩
  · obtain ⟨row, hrow, hmark⟩ := h.marks name hmarked
    exact ⟨row, hrows hrow, hmark⟩
  · obtain ⟨row, hrow, hdead⟩ := h.handles name hkno
    exact ⟨row, hrows hrow, hdead⟩
  · by_cases heq : name = pointer
    · obtain rfl := heq
      change update t.pointers name _ name = _ at hname
      rw [update_self] at hname
      split_ifs at hname with hkno
      obtain rfl := PointerStatus.allocated.inj hname
      obtain ⟨row, hrow, hdead⟩ := h.handles handle hkno
      refine ⟨arena, memory.resets arena, row.epoch, row, update_self .., har, ?_,
        hrows hrow, le_rfl, hdead arena har, fun hlt => absurd hlt (Nat.lt_irrefl _)⟩
      change update checker.symbols name _ name = _
      rw [update_self, hrow]
      rfl
    · change update t.pointers pointer _ name = _ at hname
      rw [update_of_ne heq] at hname
      obtain ⟨arena', resets, epoch, row, hplc, hhandle, hsym, hrow, hrest⟩ :=
        h.allocated name other hname
      exact ⟨arena', resets, epoch, row, (update_of_ne heq _ _).trans hplc, hhandle,
        (update_of_ne heq _ _).trans hsym, hrows hrow, hrest⟩
  · by_cases heq : name = pointer
    · obtain rfl := heq
      change update t.pointers name _ name = _ at hname
      rw [update_self] at hname
      split_ifs at hname
    · change update t.pointers pointer _ name = _ at hname
      rw [update_of_ne heq] at hname
      exact (update_of_ne heq _ _).trans (h.unset name hname)

theorem ArenaInvariant.not_isStale {pointer : Text} (h : ArenaInvariant marked t checker memory)
    (hkno : t.pointers pointer ≠ .unknown) (hchk : checkMemDeref pointer checker = []) :
    ¬ memory.IsStale pointer := by
  rintro ⟨arena, resets, hplc, hstale⟩
  cases hstat : t.pointers pointer with
  | unknown => exact hkno hstat
  | unset =>
    rw [h.unset pointer hstat] at hplc
    cases hplc
  | allocated handle =>
    obtain ⟨arena', resets', epoch, row, hplc', -, hsym, hrow, -, hdead, hreset⟩ :=
      h.allocated pointer handle hstat
    rw [hplc] at hplc'
    obtain ⟨rfl, rfl⟩ := Prod.mk.inj (some.inj hplc')
    rw [checkMemDeref, hsym] at hchk
    dsimp only at hchk
    rw [hrow] at hchk
    dsimp only at hchk
    split_ifs at hchk with hgone hepoch
    rw [Bool.or_eq_true, not_or] at hgone
    rcases hstale with hstale | hstale
    · rcases hdead hstale with hrowGone | hmarked
      · exact hgone.1 hrowGone
      · obtain ⟨row', hrow', hmark⟩ := h.marks handle hmarked
        rw [hrow] at hrow'
        cases hrow'
        exact hgone.2 hmark
    · exact hepoch (hreset hstale)

end Single
/-! ### Loops -/

/-- An execution that uses no stale pointer, and leaves a memory that satisfies a predicate. -/
def SafeResult (P : ArenaMemory → Prop) : Option ArenaMemory → Prop
  | none => False
  | some after => P after

theorem safeResult_loop {loopNames : List Text} {body : ArenaBlock} {P : ArenaMemory → Prop}
    (hbody : ∀ memory result, P memory → ArenaExec (.scope body) memory result → SafeResult P result)
    {memory : ArenaMemory} {result : Option ArenaMemory} (hmem : P memory)
    (h : ArenaExec (.statement (.loop loopNames body)) memory result) : SafeResult P result := by
  generalize htask : ArenaTask.statement (.loop loopNames body) = task at h
  induction h with
  | loopEnd => exact hmem
  | loopStale hstale _ =>
    obtain ⟨rfl, rfl⟩ := ArenaStatement.loop.inj (ArenaTask.statement.inj htask)
    exact (hbody _ _ hmem hstale).elim
  | loopStep hstep _ _ ih =>
    obtain ⟨rfl, rfl⟩ := ArenaStatement.loop.inj (ArenaTask.statement.inj htask)
    exact ih (hbody _ _ hmem hstep) rfl
  | arena | allocate _ | destroy _ | reset _ | dereference _ | stale _ | block _ _ | consequence _ _
  | alternative _ _ | whenCase _ _ _ | whenNone | scope _ _ | scopeStale _ _ | nil | cons _ _ _ _
  | consStale _ _ => cases htask

section Loop

variable {marked : Text → Prop} {t : ArenaTracking} {checker : PointerChecker}
  {loopNames : List Text} {body : ArenaBlock}

/-- The checker with the marks of a loop. -/
def premarkedChecker (body : ArenaBlock) (checker : PointerChecker) : PointerChecker :=
  { checker with arenas := premarkLoopBody body checker.arenas }

/-- The handles that are marked inside of a loop. -/
def LoopMarked (marked : Text → Prop) (body : ArenaBlock) (checker : PointerChecker)
    (handle : Text) : Prop := marked handle ∨ ((arenaGet checker.arenas handle).isSome = true ∧
    declaredInSubtree body handle = false ∧ Occurs ArenaStatement.destroys body.subtree handle)

/-- What every iteration of a loop keeps: the invariant with the marks, and that the pointers that
are known were allocated before any reset in the loop. -/
structure LoopInvariant (marked : Text → Prop) (t : ArenaTracking) (body : ArenaBlock)
    (checker : PointerChecker) (memory : ArenaMemory) : Prop where
  invariant : ArenaInvariant (LoopMarked marked body checker) t (premarkedChecker body checker) memory
  rows : ∀ handle, t.handles handle = true → (arenaGet checker.arenas handle).isSome = true
  places : ∀ pointer handle, t.pointers pointer = .allocated handle →
    (arenaGet checker.arenas handle).isSome = true
  epochs : ∀ pointer handle epoch row, t.pointers pointer = .allocated handle →
    checker.symbols pointer = some (handle, epoch) →
    arenaGet (premarkLoopBody body checker.arenas) handle = some row →
    Occurs ArenaStatement.resets body.subtree handle → epoch < row.epoch

theorem ArenaInvariant.enterLoop {memory : ArenaMemory}
    (h : ArenaInvariant marked t checker memory) :
    LoopInvariant marked (t.spoil (ArenaStatement.loop loopNames body).subtree) body checker
      memory := by
  have hmarks := rowsPrefix_premarkLoopBody body checker.arenas
  have hdecl : ∀ {handle}, ¬ Occurs ArenaStatement.creates
      (ArenaStatement.loop loopNames body).subtree handle → declaredInSubtree body handle = false :=
    fun hmk => not_declaredInSubtree fun hbody => hmk (hbody.mono (subset_cons_self ..))
  refine ⟨⟨h.distinct, fun handle hmarked => ?_, fun handle hhandle => ?_,
    fun pointer handle hptr => ?_, fun pointer hptr => ?_⟩, fun handle hhandle => ?_,
    fun pointer handle hptr => ?_, fun pointer handle epoch row hptr hsym hrow hrst => ?_⟩
  · rcases hmarked with hmarked | ⟨hsome, hnot, hkill⟩
    · obtain ⟨row, hrow, hmark⟩ := h.marks handle hmarked
      obtain ⟨row', hrow', hstep⟩ := hmarks.arenaGet not_mem_nil hrow
      exact ⟨row', hrow', hstep.grows.premarked hmark⟩
    · obtain ⟨row, hrow⟩ := Option.isSome_iff_exists.mp hsome
      obtain ⟨row', hrow', hstep⟩ := hmarks.arenaGet not_mem_nil hrow
      obtain rfl := name_of_arenaGet hrow
      exact ⟨row', hrow', hstep.destroys hnot hkill⟩
  · obtain ⟨row, hrow, hdead⟩ := h.handles handle (spoil_handles hhandle).1
    obtain ⟨row', hrow', hstep⟩ := hmarks.arenaGet not_mem_nil hrow
    exact ⟨row', hrow', fun arena har hgone =>
      (hdead arena har hgone).imp hstep.grows.destroyed .inl⟩
  · obtain ⟨arena, resets, epoch, row, hplc, har, hsym, hrow, hepoch, hdead, hreset⟩ :=
      h.allocated pointer handle (spoil_eq_allocated hptr).1
    obtain ⟨row', hrow', hstep⟩ := hmarks.arenaGet not_mem_nil hrow
    exact ⟨arena, resets, epoch, row', hplc, har, hsym, hrow',
      Nat.le_trans hepoch hstep.grows.epoch,
      fun hgone => (hdead hgone).imp hstep.grows.destroyed .inl,
      fun hlt => Nat.lt_of_lt_of_le (hreset hlt) hstep.grows.epoch⟩
  · exact h.unset pointer (spoil_eq_unset hptr).1
  · obtain ⟨row, hrow, -⟩ := h.handles handle (spoil_handles hhandle).1
    rw [hrow]
    rfl
  · obtain ⟨-, -, -, row, -, -, -, hrow, -⟩ :=
      h.allocated pointer handle (spoil_eq_allocated hptr).1
    rw [hrow]
    rfl
  · obtain ⟨hstat, -, hmk⟩ := spoil_eq_allocated hptr
    obtain ⟨-, -, epoch', row', -, -, hsym', hrow', hepoch, -⟩ := h.allocated pointer handle hstat
    rw [hsym] at hsym'
    obtain ⟨-, rfl⟩ := Prod.mk.inj (some.inj hsym')
    obtain ⟨row'', hrow'', hstep⟩ := hmarks.arenaGet not_mem_nil hrow'
    rw [hrow] at hrow''
    cases hrow''
    obtain rfl := name_of_arenaGet hrow'
    exact Nat.lt_of_le_of_lt hepoch (hstep.resets (hdecl hmk) hrst)

/-- What is known in a loop is not about names that its body changes. -/
structure KeptBy (l : List ArenaStatement) (t : ArenaTracking) : Prop where
  handles : ∀ handle, t.handles handle = true → ¬ Occurs ArenaStatement.creates l handle
  allocated : ∀ pointer handle, t.pointers pointer = .allocated handle →
    ¬ Occurs ArenaStatement.assigns l pointer ∧ ¬ Occurs ArenaStatement.creates l handle
  unset : ∀ pointer, t.pointers pointer = .unset → ¬ Occurs ArenaStatement.assigns l pointer

theorem keptBy_spoil (t : ArenaTracking) (loopNames : List Text) (body : ArenaBlock) :
    KeptBy body.subtree (t.spoil (ArenaStatement.loop loopNames body).subtree) := by
  have hmono : ∀ {p name}, Occurs p body.subtree name →
      Occurs p (ArenaStatement.loop loopNames body).subtree name :=
    fun hocc => hocc.mono (subset_cons_self ..)
  refine ⟨fun handle hhandle hmk => (spoil_handles hhandle).2 (hmono hmk),
    fun pointer handle hptr => ?_, fun pointer hptr hasgn => (spoil_eq_unset hptr).2 (hmono hasgn)⟩
  obtain ⟨-, hasgn, hmk⟩ := spoil_eq_allocated hptr
  exact ⟨fun h => hasgn (hmono h), fun h => hmk (hmono h)⟩

theorem LoopInvariant.step {memory after : ArenaMemory}
    (h : LoopInvariant marked t body checker memory) (hkept : KeptBy body.subtree t)
    (hmem : MemoryEffect body.subtree [] memory after) :
    LoopInvariant marked t body checker after := by
  refine ⟨⟨hmem.distinct, h.invariant.marks, fun handle hhandle => ?_,
    fun pointer handle hptr => ?_, fun pointer hptr => ?_⟩, h.rows, h.places, h.epochs⟩
  · have hmk := hkept.handles handle hhandle
    obtain ⟨row, hrow, hdead⟩ := h.invariant.handles handle hhandle
    refine ⟨row, hrow, fun arena har hgone => ?_⟩
    rw [hmem.handles _ hmk] at har
    by_cases hkill : Occurs ArenaStatement.destroys body.subtree handle
    · exact .inr (.inr ⟨h.rows handle hhandle, not_declaredInSubtree hmk, hkill⟩)
    · rw [hmem.destroyed _ arena har hmk hkill] at hgone
      exact hdead arena har hgone
  · obtain ⟨hasgn, hmk⟩ := hkept.allocated pointer handle hptr
    obtain ⟨arena, resets, epoch, row, hplc, har, hsym, hrow, hepoch, hdead, hreset⟩ :=
      h.invariant.allocated pointer handle hptr
    refine ⟨arena, resets, epoch, row, (hmem.pointers _ hasgn not_mem_nil).trans hplc,
      (hmem.handles _ hmk).trans har, hsym, hrow, hepoch, fun hgone => ?_, fun hlt => ?_⟩
    · by_cases hkill : Occurs ArenaStatement.destroys body.subtree handle
      · exact .inr (.inr ⟨h.places pointer handle hptr, not_declaredInSubtree hmk, hkill⟩)
      · rw [hmem.destroyed _ arena har hmk hkill] at hgone
        exact hdead hgone
    · by_cases hrst : Occurs ArenaStatement.resets body.subtree handle
      · exact h.epochs pointer handle epoch row hptr hsym hrow hrst
      · rw [hmem.resets _ arena har hmk hrst] at hlt
        exact hreset hlt
  · exact (hmem.pointers _ (hkept.unset pointer hptr) not_mem_nil).trans
      (h.invariant.unset pointer hptr)

theorem LoopInvariant.leaveLoop {memory : ArenaMemory} {checked : PointerChecker}
    (h : LoopInvariant marked t body checker memory) (hkept : KeptBy body.subtree t)
    (hmarks : ∀ handle, marked handle → ∃ row,
      arenaGet (premarkLoopBody body checker.arenas) handle = some row ∧
        row.isPremarkedDestroyed = true)
    (hchk : CheckEffect body.subtree [] (premarkedChecker body checker) checked) :
    ArenaInvariant marked t checked memory := by
  have hgone : ∀ {handle row row'}, ¬ Occurs ArenaStatement.creates body.subtree handle →
      RowStep body.subtree row row' → row.name = handle →
      row.isDestroyed = true ∨ LoopMarked marked body checker handle →
        row'.isDestroyed = true ∨ marked handle := by
    rintro handle row row' hmk hstep rfl (hrow | hmarked | ⟨-, -, hkill⟩)
    · exact .inl (hstep.destroyed hmk hrow)
    · exact .inr hmarked
    · exact .inl (hstep.destroys hmk hkill)
  refine ⟨h.invariant.distinct, fun handle hmarked => ?_, fun handle hhandle => ?_,
    fun pointer handle hptr => ?_, h.invariant.unset⟩
  · obtain ⟨row, hrow, hmark⟩ := hmarks handle hmarked
    obtain ⟨row', hrow', hstep⟩ := hchk.rows.arenaGet not_mem_nil hrow
    exact ⟨row', hrow', hstep.premarked hmark⟩
  · obtain ⟨row, hrow, hdead⟩ := h.invariant.handles handle hhandle
    obtain ⟨row', hrow', hstep⟩ := hchk.rows.arenaGet not_mem_nil hrow
    exact ⟨row', hrow', fun arena har hnow => hgone (hkept.handles handle hhandle) hstep
      (name_of_arenaGet hrow) (hdead arena har hnow)⟩
  · obtain ⟨hasgn, hmk⟩ := hkept.allocated pointer handle hptr
    obtain ⟨arena, resets, epoch, row, hplc, har, hsym, hrow, hepoch, hdead, hreset⟩ :=
      h.invariant.allocated pointer handle hptr
    obtain ⟨row', hrow', hstep⟩ := hchk.rows.arenaGet not_mem_nil hrow
    have hname := name_of_arenaGet hrow
    have hle : row.epoch ≤ row'.epoch := hstep.epoch (hname ▸ hmk)
    exact ⟨arena, resets, epoch, row', hplc, har,
      (hchk.symbols _ hasgn not_mem_nil).trans hsym, hrow', Nat.le_trans hepoch hle,
      fun hnow => hgone hmk hstep hname (hdead hnow),
      fun hlt => Nat.lt_of_lt_of_le (hreset hlt) hle⟩

end Loop
/-! ### Branches -/

/-- What is known of a handle after a branch: if its arena is destroyed, its row or a mark says
so. -/
def KnownAfter (marked : Text → Prop) (arenas : List ArenaLifetime) (handle : Text)
    (after : ArenaMemory) : Prop := ∃ row, arenaGet arenas handle = some row ∧
    ∀ arena, after.handles handle = some arena → after.isDestroyed arena = true →
      row.isDestroyed = true ∨ marked handle

theorem SafeResult.imp {P Q : ArenaMemory → Prop} {result : Option ArenaMemory}
    (h : SafeResult P result) (himp : ∀ after, result = some after → P after → Q after) :
    SafeResult Q result := by
  cases result with
  | none => exact h
  | some after => exact himp after rfl h

section Branches

variable {marked : Text → Prop} {t inside : ArenaTracking} {checker : PointerChecker}
  {memory after : ArenaMemory} {body : ArenaBlock} {result : Option ArenaMemory}
  {before live other : List ArenaLifetime} {l l' : List ArenaStatement} {handle : Text}
  {row : ArenaLifetime}

theorem ArenaInvariant.safeScope (h : ArenaInvariant marked t checker memory)
    (hchk : (body.check checker).2 = [])
    (hbody : ∀ result, ArenaExec (.statements body) memory result →
      SafeResult (ArenaInvariant marked inside (body.check checker).1) result)
    (hexec : ArenaExec (.scope body) memory result) :
    SafeResult (ArenaInvariant marked (t.leave body inside) (body.checkScope checker).1) result := by
  cases hexec with
  | scope hrun =>
    exact h.leave (body.checkEffect checker hchk) (hrun.effect h.distinct _ rfl) (hbody _ hrun)
  | scopeStale hrun => exact hbody _ hrun

theorem KnownAfter.joinLive (h : KnownAfter marked live handle after)
    (hrow : arenaGet before handle = some row) (hlive : RowsPrefix (RowStep l) [] before live)
    (hoth : RowsPrefix (RowStep l') [] before other) :
    KnownAfter marked (pointerCheckerJoin live other) handle after := by
  obtain ⟨first, second, hfst, -, hjoined⟩ := hlive.arenaGet_join hoth hrow
  obtain ⟨row', hrow', hdead⟩ := h
  obtain rfl : first = row' := some.inj (hfst.symm.trans hrow')
  exact ⟨_, hjoined, fun arena har hgone => (hdead arena har hgone).imp_left fun hfst =>
    (Bool.or_eq_true _ _).mpr (.inl hfst)⟩

theorem KnownAfter.joinOther (h : KnownAfter marked other handle after)
    (hrow : arenaGet before handle = some row) (hlive : RowsPrefix (RowStep l) [] before live)
    (hoth : RowsPrefix (RowStep l') [] before other) :
    KnownAfter marked (pointerCheckerJoin live other) handle after := by
  obtain ⟨first, second, -, hsnd, hjoined⟩ := hlive.arenaGet_join hoth hrow
  obtain ⟨row', hrow', hdead⟩ := h
  obtain rfl : second = row' := some.inj (hsnd.symm.trans hrow')
  exact ⟨_, hjoined, fun arena har hgone => (hdead arena har hgone).imp_left fun hsnd =>
    (Bool.or_eq_true _ _).mpr (.inr hsnd)⟩

theorem KnownAfter.mergeBody {merged : Option (List ArenaLifetime)}
    (h : KnownAfter marked checker.arenas handle after) (hrow : arenaGet before handle = some row)
    (hbody : RowsPrefix (RowStep l) [] before checker.arenas) (hmrg : MergedStep before l' merged) :
    KnownAfter marked (mergeBody checker merged) handle after := by
  cases merged with
  | none => exact h
  | some arenas => exact h.joinLive hrow hbody hmrg

theorem KnownAfter.settleWhen (isStrict hasDefault : Bool) (h : KnownAfter marked live handle after)
    (hrow : arenaGet before handle = some row) (hlive : RowsPrefix (RowStep l) [] before live) :
    KnownAfter marked (settleWhen isStrict hasDefault before (some live)) handle after := by
  rw [Grayscale.settleWhen]
  split_ifs
  · exact h.joinOther hrow (l := []) (RowsPrefix.refl RowStep.refl) hlive
  · exact h

theorem KnownAfter.settleNone {merged : Option (List ArenaLifetime)}
    (h : KnownAfter marked before handle after) (hrow : arenaGet before handle = some row)
    (hmrg : MergedStep before l merged) :
    KnownAfter marked (Grayscale.settleWhen false false before merged) handle after := by
  cases merged with
  | none => exact h
  | some arenas => exact h.joinLive hrow (l := []) (RowsPrefix.refl RowStep.refl) hmrg

end Branches

theorem ArenaCases.keeps {marked : Text → Prop} {handle : Text} {after : ArenaMemory} :
    ∀ (bodies : ArenaCases) {before live : List ArenaLifetime} {row : ArenaLifetime}
      {checker : PointerChecker} {l : List ArenaStatement}, RowsPrefix (RowStep l) [] before live →
      arenaGet before handle = some row → KnownAfter marked live handle after →
      (bodies.check before (some live) checker).2.2 = [] →
        ∃ arenas, (bodies.check before (some live) checker).2.1 = some arenas ∧
          KnownAfter marked arenas handle after
  | .nil, _, live, _, _, _, _, _, hkno, _ => ⟨live, rfl, hkno⟩
  | .cons body rest, before, live, row, checker, l, hlive, hrow, hkno, h => by
    obtain ⟨hfst, hrest⟩ := append_eq_nil_iff.mp h
    have hbody := (body.checkEffect { checker with arenas := before } hfst).scope
    exact rest.keeps (hbody.rows.joinSteps hlive) hrow (hkno.joinOther hrow hbody.rows hlive) hrest

mutual

/-- A statement that nothing is reported for keeps the invariant, and is safe. -/
theorem ArenaStatement.safe : ∀ (s : ArenaStatement) {marked : Text → Prop} {t t' : ArenaTracking}
    {checker : PointerChecker} {memory : ArenaMemory} {result : Option ArenaMemory},
    (s.check checker).2 = [] → s.follow t = some t' → ArenaInvariant marked t checker memory →
      ArenaExec (.statement s) memory result →
        SafeResult (ArenaInvariant marked t' (s.check checker).1) result
  | .arena isDeclaration handle, _, _, _, _, _, _, _, ht, h, hexec => by
    cases hexec with
    | arena => exact h.arena ht
  | .allocate isDeclaration pointer handle, _, _, _, _, _, _, _, ht, h, hexec => by
    cases hexec with
    | allocate har => exact h.allocate har ht
  | .destroy handle, _, t, _, _, _, _, hchk, ht, h, hexec => by
    cases hexec with
    | destroy har =>
      cases ht
      have hspoil := h.spoil (effect_destroy hchk)
        ((ArenaExec.destroy har).effect h.distinct _ rfl)
      rwa [spoil_of_not_occurs] at hspoil
      · exact fun name hasgn => nomatch (occurs_singleton.mp hasgn)
      · exact fun name hmk => nomatch (occurs_singleton.mp hmk)
  | .reset handle, _, t, _, _, _, _, hchk, ht, h, hexec => by
    cases hexec with
    | reset har =>
      cases ht
      have hspoil := h.spoil (effect_reset hchk)
        ((ArenaExec.reset har).effect h.distinct _ rfl)
      rwa [spoil_of_not_occurs] at hspoil
      · exact fun name hasgn => nomatch (occurs_singleton.mp hasgn)
      · exact fun name hmk => nomatch (occurs_singleton.mp hmk)
  | .dereference pointer, _, t, _, checker, _, _, hchk, ht, h, hexec => by
    rw [ArenaStatement.follow] at ht
    split_ifs at ht with hkno
    cases ht
    cases hexec with
    | dereference _ => exact h
    | stale hstale => exact h.not_isStale hkno hchk hstale
  | .block body, _, t, _, checker, memory, _, hchk, ht, h, hexec => by
    obtain ⟨inside, hin, rfl⟩ := map_eq_some_iff.mp ht
    cases hexec with
    | block hscope =>
      exact h.safeScope hchk (fun _ hrun => body.safe hchk hin h hrun) hscope
  | .ifStatement consequence alternative, marked, t, _, checker, memory, result, hchk, ht, h, hexec => by
    obtain ⟨thenInside, hthen, hrest⟩ := bind_eq_some_iff.mp ht
    obtain ⟨elseInside, helse, rfl⟩ := map_eq_some_iff.mp hrest
    obtain ⟨hcheckThen, hcheckElse⟩ := append_eq_nil_iff.mp hchk
    have hthenEffect := (consequence.checkEffect checker hcheckThen).scope
    have helseEffect := (alternative.checkEffect _ hcheckElse).scope
    have heffect := (ArenaStatement.ifStatement consequence alternative).checkEffect checker hchk
    have hspoil : ∀ after, result = some after → _ := fun after haft =>
      h.spoil heffect (hexec.effect h.distinct after haft)
    cases hexec with
    | consequence hscope =>
      refine (h.safeScope hcheckThen (fun _ hrun => consequence.safe hcheckThen hthen h hrun)
        hscope).imp fun after haft hbranch => (hspoil after haft).merge
          fun handle hkno hhandle => ?_
      rw [Bool.and_eq_true] at hhandle
      obtain ⟨row, hrow, -⟩ := h.handles handle hkno
      have hthenKnown : KnownAfter marked _ handle after := hbranch.handles handle hhandle.1
      exact hthenKnown.joinOther hrow helseEffect.rows hthenEffect.rows
    | alternative hscope =>
      have hforget : ArenaInvariant marked (t.forget consequence.subtree)
          { (consequence.checkScope checker).1 with arenas := checker.arenas } memory :=
        h.forget rfl fun pointer hasgn => hthenEffect.symbols pointer hasgn not_mem_nil
      refine (hforget.safeScope hcheckElse
        (fun _ hrun => alternative.safe hcheckElse helse hforget hrun) hscope).imp
        fun after haft hbranch => (hspoil after haft).merge fun handle hkno hhandle => ?_
      rw [Bool.and_eq_true] at hhandle
      obtain ⟨row, hrow, -⟩ := h.handles handle hkno
      have helseKnown : KnownAfter marked _ handle after := hbranch.handles handle hhandle.2
      exact helseKnown.joinLive hrow helseEffect.rows hthenEffect.rows
  | .whenStatement isStrict hasDefault bodies, marked, t, _, checker, memory, result, hchk, ht, h,
      hexec => by
    obtain ⟨handles, hhands, rfl⟩ := map_eq_some_iff.mp ht
    have heffect := (ArenaStatement.whenStatement isStrict hasDefault bodies).checkEffect checker hchk
    have hspoil : ∀ after, result = some after → _ := fun after haft =>
      h.spoil heffect (hexec.effect h.distinct after haft)
    obtain ⟨hmrg, -⟩ := bodies.checkEffect checker.arenas none checker [] rfl hchk
    cases hexec with
    | whenCase hbody hscope =>
      refine (bodies.safe hchk hhands h rfl hbody hscope).imp
        fun after haft hbranch => (hspoil after haft).merge fun handle hkno hhandle => ?_
      obtain ⟨row, hrow, -⟩ := h.handles handle hkno
      obtain ⟨arenas, hres, hafterKnown⟩ := hbranch handle hkno hhandle
      rw [hres] at hmrg
      change KnownAfter marked (settleWhen isStrict hasDefault checker.arenas _) handle after
      rw [hres]
      exact hafterKnown.settleWhen isStrict hasDefault hrow hmrg
    | whenNone =>
      refine (hspoil memory rfl).merge fun handle hkno _ => ?_
      obtain ⟨row, hrow, hdead⟩ := h.handles handle hkno
      have hbef : KnownAfter marked checker.arenas handle memory := ⟨row, hrow, hdead⟩
      exact hbef.settleNone hrow hmrg
  | .loop loopNames body, marked, t, _, checker, memory, result, hchk, ht, h, hexec => by
    obtain ⟨inside, hin, rfl⟩ := map_eq_some_iff.mp ht
    have hkept := keptBy_spoil t loopNames body
    have henter : LoopInvariant marked (t.spoil (ArenaStatement.loop loopNames body).subtree) body
        checker memory := h.enterLoop
    have haft := safeResult_loop (P := LoopInvariant marked _ body checker)
      (fun before final hbef hscope => ?_) henter hexec
    · refine haft.imp fun after _ hloop => hloop.leaveLoop hkept (fun handle hmarked => ?_)
        (body.checkEffect _ hchk).scope
      obtain ⟨row, hrow, hmark⟩ := h.marks handle hmarked
      obtain ⟨row', hrow', hstep⟩ :=
        (rowsPrefix_premarkLoopBody body checker.arenas).arenaGet not_mem_nil hrow
      exact ⟨row', hrow', hstep.grows.premarked hmark⟩
    · refine (hbef.invariant.safeScope hchk
        (fun _ hrun => body.safe hchk hin hbef.invariant hrun) hscope).imp
        fun after haft _ => hbef.step hkept (hscope.effect hbef.invariant.distinct after haft)

theorem ArenaBlock.safe : ∀ (body : ArenaBlock) {marked : Text → Prop} {t t' : ArenaTracking}
    {checker : PointerChecker} {memory : ArenaMemory} {result : Option ArenaMemory},
    (body.check checker).2 = [] → body.follow t = some t' →
      ArenaInvariant marked t checker memory → ArenaExec (.statements body) memory result →
        SafeResult (ArenaInvariant marked t' (body.check checker).1) result
  | .nil, _, _, _, _, _, _, _, ht, h, hexec => by
    cases ht
    cases hexec with
    | nil => exact h
  | .cons s rest, _, _, _, _, _, _, hchk, ht, h, hexec => by
    obtain ⟨hfst, hrest⟩ := append_eq_nil_iff.mp hchk
    obtain ⟨middle, hs, hbody⟩ := bind_eq_some_iff.mp ht
    cases hexec with
    | cons hstep hrun => exact rest.safe hrest hbody (s.safe hfst hs h hstep) hrun
    | consStale hstale => exact s.safe hfst hs h hstale

theorem ArenaCases.safe : ∀ (bodies : ArenaCases) {marked : Text → Prop} {t : ArenaTracking}
    {handles : Text → Bool} {checker : PointerChecker} {before : List ArenaLifetime}
    {merged : Option (List ArenaLifetime)} {l : List ArenaStatement} {memory : ArenaMemory}
    {result : Option ArenaMemory} {body : ArenaBlock},
    (bodies.check before merged checker).2.2 = [] → bodies.follow t = some handles →
      ArenaInvariant marked t { checker with arenas := before } memory →
      MergedStep before l merged → bodies.Has body → ArenaExec (.scope body) memory result →
        SafeResult (fun after => ∀ handle, t.handles handle = true → handles handle = true →
          ∃ arenas, (bodies.check before merged checker).2.1 = some arenas ∧
            KnownAfter marked arenas handle after) result
  | .nil, _, _, _, _, _, _, _, _, _, _, _, _, _, _, hbody, _ => by cases hbody
  | .cons first rest, marked, t, _, checker, before, merged, l, memory, result, body, hchk, ht, h,
      hmrg, hbody, hexec => by
    obtain ⟨inside, hin, hrest⟩ := bind_eq_some_iff.mp ht
    obtain ⟨handles, hhands, rfl⟩ := map_eq_some_iff.mp hrest
    obtain ⟨hcheckFirst, hcheckRest⟩ := append_eq_nil_iff.mp hchk
    have heffect := (first.checkEffect { checker with arenas := before } hcheckFirst).scope
    have hlive := mergedStep_mergeBody hmrg heffect.rows
    cases hbody with
    | head =>
      refine (h.safeScope hcheckFirst (fun _ hrun => first.safe hcheckFirst hin h hrun)
        hexec).imp fun after _ hbranch handle hkno hhandle => ?_
      rw [Bool.and_eq_true] at hhandle
      obtain ⟨row, hrow, -⟩ := h.handles handle hkno
      have hfst : KnownAfter marked _ handle after := hbranch.handles handle hhandle.1
      exact rest.keeps hlive hrow (hfst.mergeBody hrow heffect.rows hmrg) hcheckRest
    | tail hbody =>
      have hforget : ArenaInvariant marked (t.forget first.subtree)
          { (first.checkScope { checker with arenas := before }).1 with arenas := before } memory :=
        h.forget rfl fun pointer hasgn => heffect.symbols pointer hasgn not_mem_nil
      refine (rest.safe hcheckRest hhands hforget hlive hbody hexec).imp
        fun after _ haft handle hkno hhandle => haft handle hkno ?_
      rw [Bool.and_eq_true] at hhandle
      exact hhandle.2

end

/-! ### Function bodies -/

/-- The memory where a function body begins. -/
def ArenaMemory.empty : ArenaMemory := ⟨fun _ => none, fun _ => none, fun _ => false, fun _ => 0, 0⟩

/-- An execution of a function body uses a pointer after its arena is destroyed, or was reset. -/
def UsesStalePointer (body : ArenaBlock) : Prop := ArenaExec (.scope body) .empty none

instance (body : ArenaBlock) : Decidable (FollowsChecker body) :=
  inferInstanceAs (Decidable (_ = true))

theorem arenaInvariant_empty :
    ArenaInvariant (fun _ => False) ⟨fun _ => .unset, fun _ => false⟩ ⟨[], fun _ => none⟩
      ArenaMemory.empty where
  distinct := ⟨fun _ _ h => (by cases h), fun _ _ _ h => (by cases h)⟩
  marks _ h := h.elim
  handles _ h := nomatch h
  allocated _ _ h := by cases h
  unset _ _ := rfl

/-- A pointer that is used before its arena is destroyed. -/
def allocatedOnce : ArenaBlock :=
  .cons (.arena true (bytes "x")) <| .cons (.allocate true (bytes "p") (bytes "x")) <|
    .cons (.loop [] (.cons (.dereference (bytes "p")) .nil)) <| .cons (.destroy (bytes "x")) .nil

/-- A pointer that is allocated from another arena in a branch, and used after its first arena is
destroyed. -/
def branchedAllocation : ArenaBlock :=
  .cons (.arena true (bytes "x")) <| .cons (.arena true (bytes "y")) <|
    .cons (.allocate true (bytes "p") (bytes "x")) <|
    .cons (.ifStatement (.cons (.allocate false (bytes "p") (bytes "y")) .nil) .nil) <|
    .cons (.destroy (bytes "x")) <| .cons (.dereference (bytes "p")) .nil

theorem branchedAllocation_usesStale : UsesStalePointer branchedAllocation :=
  .scopeStale <| .cons .arena <| .cons .arena <| .cons (.allocate rfl) <|
    .cons (.alternative (.scope .nil)) <| .cons (.destroy rfl) <|
    .consStale <| .stale ⟨0, 0, rfl, .inl rfl⟩

end Grayscale
