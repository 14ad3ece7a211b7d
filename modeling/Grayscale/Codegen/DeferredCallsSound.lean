import Grayscale.Codegen.DeferredCalls

/-!
# Exits run the calls that were reached

The calls of an exit are the right ones: below the top level the count of `ensure` statements stands
still while code is emitted and while it runs, and at the top level both go through the body in
order. What an exit may get wrong is the variable that a name in a call denotes.
-/

namespace Grayscale.DeferredCalls

open StructuredCode List

/-! ### Exits -/

/-- Whether a step is a part of the release of the arenas. -/
def ExitStep.IsRelease : ExitStep → Prop
  | .copyOut _ | .releaseScratch _ | .releaseFunctionArena | .restoreScopeMark => True
  | .compute | .call _ => False

/-- Steps of an exit: the returned value is computed, the calls run, the arenas are released. -/
def Surrounds (calls steps : List ExitStep) : Prop :=
  ∃ before after, steps = before ++ calls ++ after ∧
    (∀ x ∈ before, x = .compute) ∧ ∀ x ∈ after, x.IsRelease

theorem isRelease_scratchArenaUnwind (σ : EmitState) :
    ∀ x ∈ emitScratchArenaUnwind σ, x.IsRelease := by
  intro x hx
  obtain ⟨a, -, rfl⟩ := mem_map.mp hx
  trivial

theorem isRelease_voidExit (f : FunctionDeclaration) (σ : EmitState) :
    ∀ x ∈ emitVoidExit f σ, x.IsRelease := by
  intro x hx
  obtain hx | hx := mem_append.mp hx
  · exact isRelease_scratchArenaUnwind σ x hx
  · split_ifs at hx with hmark
    · cases hx
    · rw [mem_singleton.mp hx]
      trivial

theorem isRelease_functionReturnEscape (f : FunctionDeclaration) (σ : EmitState) :
    ∀ x ∈ emitFunctionReturnEscape f σ, x.IsRelease := by
  intro x hx
  unfold emitFunctionReturnEscape at hx
  split_ifs at hx with hcaller
  · exact isRelease_scratchArenaUnwind σ x hx
  · rw [mem_append, mem_append] at hx
    obtain (hx | hx) | hx := hx
    · obtain ⟨position, -, rfl⟩ := mem_map.mp hx
      trivial
    · exact isRelease_scratchArenaUnwind σ x hx
    · rw [mem_singleton.mp hx]
      trivial

theorem Surrounds.value {calls after : List ExitStep} (h : ∀ x ∈ after, x.IsRelease) :
    Surrounds calls ([.compute] ++ calls ++ after) :=
  ⟨[.compute], after, rfl, fun _ hx => mem_singleton.mp hx, h⟩

theorem Surrounds.noValue {calls after : List ExitStep} (h : ∀ x ∈ after, x.IsRelease) :
    Surrounds calls (calls ++ after) := ⟨[], after, rfl, fun _ hx => (nomatch hx), h⟩

theorem emitReturnStatement_surrounds (f : FunctionDeclaration) (σ : EmitState) (count : ℕ) :
    Surrounds (emitEnsureCleanup f σ) (emitReturnStatement f σ count) := by
  have hesc : Surrounds (emitEnsureCleanup f σ)
      ([.compute] ++ emitEnsureCleanup f σ ++ emitFunctionReturnEscape f σ) :=
    .value (isRelease_functionReturnEscape f σ)
  have hvoid : Surrounds (emitEnsureCleanup f σ) (emitEnsureCleanup f σ ++ emitVoidExit f σ) :=
    .noValue (isRelease_voidExit f σ)
  unfold emitReturnStatement
  dsimp only
  split_ifs with hmany herr htys hone hwatermark hmark hnam
  · exact hesc
  · exact hesc
  · exact hvoid
  · refine Surrounds.value fun x hx => ?_
    obtain hx | hx := mem_append.mp hx
    · exact isRelease_scratchArenaUnwind σ x hx
    · rw [mem_singleton.mp hx]
      trivial
  · refine Surrounds.value fun x hx => ?_
    rw [append_nil] at hx
    exact isRelease_scratchArenaUnwind σ x hx
  · exact hesc
  · exact hesc
  · exact hvoid

theorem emitEndOfBody_surrounds (f : FunctionDeclaration) (σ : EmitState) :
    Surrounds (emitEnsureCleanup f σ) (emitEndOfBody f σ) := by
  refine Surrounds.noValue fun x hx => ?_
  split_ifs at hx with hmain hvoid hmark
  · cases hx
  · rw [mem_singleton.mp hx]
    trivial
  · cases hx
  · rw [mem_singleton.mp hx]
    trivial

/-! ### Below the top level -/

/-- A statement that is no `ensure`. -/
def SourceLeaf.IsOther : SourceLeaf → Prop
  | .ensure _ => False
  | _ => True

theorem allLeaves_of_check {code : Statement} (h : checkNoNestedEnsure true code = true) :
    code.AllLeaves SourceLeaf.IsOther := by
  induction code with
  | skip => trivial
  | jump isBreak label => trivial
  | leaf l =>
    cases l with
    | ensure e => cases h
    | _ => trivial
  | sequence first second ihfirst ihsecond =>
    rw [checkNoNestedEnsure, Bool.and_eq_true] at h
    exact ⟨ihfirst h.1, ihsecond h.2⟩
  | branch consequence alternative ihconsequence ihalternative =>
    rw [checkNoNestedEnsure, Bool.and_eq_true] at h
    exact ⟨ihconsequence h.1, ihalternative h.2⟩
  | loop endless label body ih => exact ih h
  | scope e body ih => exact ih h

theorem eq_ensure_or_allLeaves {code : Statement} (h : checkNoNestedEnsure false code = true) :
    (∃ e, code = .leaf (.ensure e)) ∨ code.AllLeaves SourceLeaf.IsOther := by
  cases code with
  | leaf l =>
    cases l with
    | ensure e => exact .inl ⟨e, rfl⟩
    | _ => exact .inr trivial
  | _ => exact .inr (allLeaves_of_check h)

/-- The leaf that is emitted, with a count that stands still. -/
def leafAt (f : FunctionDeclaration) (count : ℕ) (arenas : List ArenaId) (l : SourceLeaf) :
    CodeLeaf := emitLeaf f ⟨count, arenas⟩ l

def arenasInside (arenas : List ArenaId) (e : ScopeEntry) : List ArenaId := e.arena.toList ++ arenas

theorem emitStatement_eq_translate (f : FunctionDeclaration) {code : Statement}
    (h : code.AllLeaves SourceLeaf.IsOther) (σ : EmitState) : emitStatement f σ code =
      (code.translate (fun arenas l => .leaf (leafAt f σ.ensureReached arenas l)) id arenasInside
        σ.scopeArenas, σ) := by
  induction code generalizing σ with
  | skip => rfl
  | jump isBreak label => rfl
  | leaf l =>
    cases l with
    | ensure e => exact h.elim
    | _ => rfl
  | sequence first second ihfirst ihsecond =>
    rw [emitStatement, ihfirst h.1]
    dsimp only
    rw [ihsecond h.2]
    rfl
  | branch consequence alternative ihconsequence ihalternative =>
    rw [emitStatement, ihconsequence h.1]
    dsimp only
    rw [ihalternative h.2]
    rfl
  | loop endless label body ih =>
    rw [emitStatement, ih h]
    rfl
  | scope e body ih =>
    rw [emitStatement, ih h]
    rfl

/-- An exit runs the calls of the statements reached, where it stands. -/
def ExitAgrees (e : Exit) (events : List Event) : Prop :=
  ∃ steps, events = steps.map (ExitStep.event e.state.scope) ∧
    Surrounds (e.state.reached.reverse.map fun d => .call d.expression) steps

/-- The states of the two runs, while the statements reached stay the same. -/
def SameScope (reached : List Reached) (_ : List ArenaId) (s : SourceState) (scope : List Text) :
    Prop := scope = s.scope ∧ s.reached = reached

theorem simulates_below (f : FunctionDeclaration) {count : ℕ} {reached : List Reached}
    (hcleanup : ∀ arenas, emitEnsureCleanup f ⟨count, arenas⟩ =
      reached.reverse.map fun d => .call d.expression) :
    Simulates sourceMachine codeMachine SourceLeaf.IsOther (leafAt f count) id arenasInside
      (SameScope reached) ExitAgrees where
  act := by
    rintro arenas s scope l hl ⟨rfl, hrch⟩
    cases l with
    | declare name => exact .inl ⟨_, _, rfl, rfl, rfl, hrch⟩
    | simple => exact .inl ⟨_, _, rfl, rfl, rfl, hrch⟩
    | ensure e => exact hl.elim
    | «return» n =>
      refine .inr ⟨_, _, rfl, rfl, _, rfl, ?_⟩
      have h := emitReturnStatement_surrounds f ⟨count, arenas⟩ n
      rwa [hcleanup, ← hrch] at h
    | endOfBody =>
      refine .inr ⟨_, _, rfl, rfl, _, rfl, ?_⟩
      have h := emitEndOfBody_surrounds f ⟨count, arenas⟩
      rwa [hcleanup, ← hrch] at h
  enter := by
    rintro arenas s scope e ⟨rfl, hrch⟩
    exact ⟨rfl, hrch⟩
  close := by
    rintro arenas s scope s' scope' e ⟨rfl, -⟩ ⟨-, hrch'⟩
    exact ⟨rfl, hrch'⟩

/-! ### The top level -/

theorem collectEnsures_append (body rest : List Statement) :
    collectEnsures (body ++ rest) = collectEnsures body ++ collectEnsures rest := filterMap_append

theorem collectEnsures_other {code : Statement} (h : code.AllLeaves SourceLeaf.IsOther) :
    collectEnsures [code] = [] := by
  cases code with
  | leaf l =>
    cases l with
    | ensure e => exact h.elim
    | _ => rfl
  | _ => rfl

theorem emitEnsureCleanup_eq {f : FunctionDeclaration} {earlier rest : List Statement}
    (hbody : f.body = earlier ++ rest) {reached : List Reached}
    (hrch : reached.map Reached.expression = collectEnsures earlier) (arenas : List ArenaId) :
    emitEnsureCleanup f ⟨reached.length, arenas⟩ =
      reached.reverse.map fun d => .call d.expression := by
  have hlen : reached.length = (collectEnsures earlier).length := by
    rw [← hrch, length_map]
  have htake : (collectEnsures f.body).take
      (min reached.length (collectEnsures f.body).length) = reached.map Reached.expression := by
    rw [hbody, collectEnsures_append, hrch, hlen, length_append,
      Nat.min_eq_left (Nat.le_add_right _ _), take_left]
  rw [emitEnsureCleanup, htake, ← map_reverse, map_map]
  rfl

theorem run_block (f : FunctionDeclaration) {earlier rest : List Statement}
    (hbody : f.body = earlier ++ rest) (hrest : rest.all (checkNoNestedEnsure false) = true)
    {s : SourceState} (hs : s.reached.map Reached.expression = collectEnsures earlier) (n : ℕ)
    (ds : List Bool) : SameResult (fun _ _ => True) ExitAgrees
      (sourceMachine.run n s (block (rest ++ [.leaf .endOfBody]) : Statement) ds)
      (codeMachine.run n s.scope
        (block (emitBlock f ⟨s.reached.length, []⟩ (rest ++ [.leaf .endOfBody])).1) ds) := by
  have hcleanup := emitEnsureCleanup_eq hbody hs
  have hsim := simulates_below f hcleanup
  induction rest generalizing earlier s n ds with
  | nil =>
    cases n with
    | zero => exact .none
    | succ n =>
      have hother : Code.AllLeaves SourceLeaf.IsOther (.leaf .endOfBody : Statement) := trivial
      have hscope : SameScope s.reached [] s s.scope := ⟨rfl, rfl⟩
      have h := hsim.run n hother hscope ds
      cases n with
      | zero => exact .none
      | succ n =>
        obtain ⟨hx, -⟩ | ⟨o, o', ds', hx, hy, hout⟩ := h.cases
        · cases hx
        · cases hx
          cases hy
          cases hout with
          | left he => exact .some ds (.left he)
  | cons statement rest ih =>
    rw [all_cons, Bool.and_eq_true] at hrest
    have hbody' : f.body = (earlier ++ [statement]) ++ rest := by
      rw [hbody, append_assoc, singleton_append]
    cases n with
    | zero => exact .none
    | succ n =>
      obtain ⟨e, rfl⟩ | hother := eq_ensure_or_allLeaves hrest.1
      · -- the statement is reached, and the counter goes on by one
        cases n with
        | zero => exact .none
        | succ n =>
          have hs' : (s.reached ++ [(⟨e, s.scope⟩ : Reached)]).map Reached.expression =
              collectEnsures (earlier ++ [.leaf (.ensure e)]) := by
            rw [map_append, hs, collectEnsures_append]
            rfl
          have h := ih (s := { s with reached := s.reached ++ [⟨e, s.scope⟩] }) hbody' hrest.2 hs'
            (n + 1) ds (emitEnsureCleanup_eq hbody' hs')
            (simulates_below f (emitEnsureCleanup_eq hbody' hs'))
          rw [length_append, length_singleton] at h
          exact h
      · -- nothing is reached in the statement
        have hscope : SameScope s.reached [] s s.scope := ⟨rfl, rfl⟩
        have h := hsim.run n hother hscope ds
        have hemit := emitStatement_eq_translate f hother ⟨s.reached.length, []⟩
        rw [cons_append, emitBlock, hemit]
        simp only [block, foldr_cons, Machine.run]
        obtain ⟨hx, hy⟩ | ⟨o, o', ds', hx, hy, hout⟩ := h.cases
        · rw [hx, hy]
          exact .none
        · rw [hx, hy]
          cases hout with
          | @finished s' scope hst =>
            obtain ⟨rfl, hrch⟩ := hst
            have hs' : s'.reached.map Reached.expression =
                collectEnsures (earlier ++ [statement]) := by
              rw [hrch, hs, collectEnsures_append, collectEnsures_other hother, append_nil]
            have hrun := ih hbody' hrest.2 hs' n ds' (emitEnsureCleanup_eq hbody' hs')
              (simulates_below f (emitEnsureCleanup_eq hbody' hs'))
            rw [hrch] at hrun
            exact hrun
          | jumped isBreak label hst => exact .some ds' (.jumped isBreak label trivial)
          | left he => exact .some ds' (.left he)

theorem run_emitted {f : FunctionDeclaration} (hf : f.accepted = true) {n : ℕ}
    {decisions rest : List Bool} {e : Exit} (h : f.run n decisions = some (.left e, rest)) :
    ∃ events, f.runEmitted n decisions = some (.left events, rest) ∧ ExitAgrees e events := by
  have hsame := @run_block f [] f.body rfl hf ⟨f.parameters, []⟩ rfl n decisions
  obtain ⟨hx, -⟩ | ⟨o, o', ds', hx, hy, hout⟩ := hsame.cases
  · rw [FunctionDeclaration.run, hx] at h
    cases h
  · rw [FunctionDeclaration.run, hx] at h
    cases h
    cases hout with
    | left he => exact ⟨_, hy, he⟩

/-! ### What the names denote -/

def Event.isCall : Event → Bool
  | .called _ _ => true
  | .computed | .copied _ | .released => false

theorem filter_isCall {before calls after : List Event} (hbef : ∀ x ∈ before, x = .computed)
    (hcalls : ∀ x ∈ calls, x.isCall = true) (haft : ∀ x ∈ after, x.IsRelease) :
    (before ++ calls ++ after).filter Event.isCall = calls := by
  have hnone : before.filter Event.isCall = [] := by
    refine filter_eq_nil_iff.mpr fun x hx => ?_
    rw [hbef x hx]
    exact Bool.false_ne_true
  have hlate : after.filter Event.isCall = [] := by
    refine filter_eq_nil_iff.mpr fun x hx hcall => ?_
    have hrelease := haft x hx
    cases x with
    | called function denoted => exact hrelease
    | computed => exact hrelease
    | copied position => cases hcall
    | released => cases hcall
  rw [filter_append, filter_append, hnone, hlate, filter_eq_self.mpr hcalls, append_nil, nil_append]

theorem ExitAgrees.events {e : Exit} {events : List Event} (h : ExitAgrees e events) :
    ∃ before after, events = before ++
        (e.state.reached.reverse.map fun d => d.expression.runIn e.state.scope) ++ after ∧
      (∀ x ∈ before, x = .computed) ∧ ∀ x ∈ after, x.IsRelease := by
  obtain ⟨steps, rfl, before, after, rfl, hbef, haft⟩ := h
  refine ⟨before.map (ExitStep.event e.state.scope), after.map (ExitStep.event e.state.scope),
    ?_, fun x hx => ?_, fun x hx => ?_⟩
  · rw [map_append, map_append, map_map]
    rfl
  · obtain ⟨step, hstep, rfl⟩ := mem_map.mp hx
    rw [hbef step hstep]
    rfl
  · obtain ⟨step, hstep, rfl⟩ := mem_map.mp hx
    have hrelease := haft step hstep
    cases step with
    | compute => exact hrelease
    | call expression => exact hrelease
    | _ => trivial

theorem EnsureExpression.runIn_eq_iff (e : EnsureExpression) (scope scope' : List Text) :
    e.runIn scope = e.runIn scope' ↔ ∀ x ∈ e.reads, denotes scope x = denotes scope' x := by
  rw [EnsureExpression.runIn, EnsureExpression.runIn, Event.called.injEq, map_inj_left]
  exact and_iff_right rfl

theorem ExitAgrees.denotes_iff {e : Exit} {events : List Event} (h : ExitAgrees e events) :
    RunsDeferred e events ↔ ∀ d ∈ e.state.reached, ∀ x ∈ d.expression.reads,
      denotes e.state.scope x = denotes d.scope x := by
  have hcalls {scope : Reached → List Text} : ∀ x ∈ e.state.reached.reverse.map
      fun d => d.expression.runIn (scope d), x.isCall = true := by
    intro x hx
    obtain ⟨d, -, rfl⟩ := mem_map.mp hx
    rfl
  obtain ⟨before, after, rfl, hbef, haft⟩ := h.events
  constructor
  · rintro ⟨before', after', heq, hbef', haft'⟩ d hd
    -- both lists hold the same calls, in the same order
    have hfilter := congrArg (List.filter Event.isCall) heq
    have hdefer : ∀ x ∈ e.state.reached.reverse.map Reached.call, x.isCall = true :=
      @hcalls Reached.scope
    rw [filter_isCall hbef hcalls haft, filter_isCall hbef' hdefer haft', map_inj_left] at hfilter
    exact (d.expression.runIn_eq_iff _ _).mp (hfilter d (mem_reverse.mpr hd))
  · intro hden
    refine ⟨before, after, ?_, hbef, haft⟩
    congr 2
    refine map_congr_left fun d hd => ?_
    exact (d.expression.runIn_eq_iff _ _).mpr (hden d (mem_reverse.mp hd))

/-- `mut x i64 = 1`, `defer show(x)`, and `if c { mut x i64 = 2  return }`. -/
def shadowedInIf : FunctionDeclaration where
  parameters := []
  body := [.leaf (.declare (bytes "x")), .leaf (.ensure ⟨bytes "show", [bytes "x"]⟩),
    ifStatement none (block [.leaf (.declare (bytes "x")), .leaf (.return 0)]) .skip]
  returnTypeCount := 0
  hasReturnNames := false
  isMain := false
  usesCallerArena := false
  usesWatermark := false
  needsScopeMark := false
  copiesOut := []

end Grayscale.DeferredCalls
