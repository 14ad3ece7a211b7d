import Grayscale.Typechecker.CopyElision

/-!
# Copies that are not missed

A block with the storage of the place shared does what it does with a copy, if the place still
stands for the same address at the store. That is so unless a variable that indexes it is assigned,
a variable that it is reached through is declared anew, or the place is reached through a pointer in
the array itself.
-/

namespace Grayscale

open List
open Option (bind_eq_some_iff bind_some map_eq_some_iff some.inj)

/-! ### Simulation -/

/-- Results that agree: related ones, or the same output at the end of the program. -/
def RelatedResult {α β : Type} (P : α → β → Prop) : Except Text α → Except Text β → Prop
  | .ok a, .ok b => P a b
  | .error output, .error output' => output = output'
  | _, _ => False

/-- Outcomes that agree: the same value and related states. -/
abbrev RelatedOutcome {α σ τ : Type} (R : σ → τ → Prop) :
    Except Text (α × σ) → Except Text (α × τ) → Prop :=
  RelatedResult fun p q => p.1 = q.1 ∧ R p.2 q.2

/-- Two ways of using the state do the same in related states. `isFree` holds of the names that may
be declared. -/
structure Simulates {σ τ : Type} (first : ArrayAccess σ) (second : ArrayAccess τ)
    (R : σ → τ → Prop) (isFree : Text → Prop) (isAssigned : Text → Prop) : Prop where
  lookup : ∀ {s t}, R s t → ∀ name, first.lookup s name = second.lookup t name
  declare : ∀ {s t}, R s t → ∀ name value, isFree name →
    R (first.declare s name value) (second.declare t name value)
  assign : ∀ {s t}, R s t → ∀ name value, isAssigned name → (first.lookup s name).isSome = true →
    R (first.declare s name value) (second.declare t name value)
  elements : ∀ {s t}, R s t → first.elements s = second.elements t
  setElement : ∀ {s t}, R s t → ∀ index value,
    R (first.setElement s index value) (second.setElement t index value)
  called : ∀ {s t}, R s t → ∀ result, R (first.called s result) (second.called t result)
  output : ∀ {s t}, R s t → first.output s = second.output t
  print : ∀ {s t}, R s t → ∀ text, R (first.print s text) (second.print t text)

section Simulation

variable {σ τ : Type} {first : ArrayAccess σ} {second : ArrayAccess τ} {R : σ → τ → Prop}
  {isFree isAssigned : Text → Prop} {machine : ElisionMachine} {checker : ElisionChecker}
  {arrayName rootName : Text}

theorem RelatedOutcome.bind {α β γ : Type} {P : β → γ → Prop} {x : Except Text (α × σ)}
    {y : Except Text (α × τ)} {f : α × σ → Except Text β} {g : α × τ → Except Text γ}
    (h : RelatedOutcome R x y)
    (hnext : ∀ value s t, R s t → RelatedResult P (f (value, s)) (g (value, t))) :
    RelatedResult P (x.bind f) (y.bind g) := by
  cases x with
  | error output =>
    cases y with
    | error output' => exact h
    | ok q => exact h.elim
  | ok p =>
    cases y with
    | error output' => exact h.elim
    | ok q =>
      obtain ⟨value, s⟩ := p
      obtain ⟨value', t⟩ := q
      obtain ⟨rfl, hR⟩ : value = value' ∧ R s t := h
      exact hnext value s t hR

theorem RelatedOutcome.map {α β γ : Type} {P : β → γ → Prop} {x : Except Text (α × σ)}
    {y : Except Text (α × τ)} {f : α × σ → β} {g : α × τ → γ} (h : RelatedOutcome R x y)
    (hnext : ∀ value s t, R s t → P (f (value, s)) (g (value, t))) :
    RelatedResult P (x.map f) (y.map g) := by
  have hbind : RelatedResult P (x.bind fun p => .ok (f p)) (y.bind fun q => .ok (g q)) := h.bind hnext
  cases x <;> cases y <;> exact hbind

theorem Simulates.orPanic (h : Simulates first second R isFree isAssigned) {α : Type}
    (value : Option α) {s : σ} {t : τ} (hR : R s t) :
    RelatedOutcome R (orPanic first value s) (orPanic second value t) := by
  cases value with
  | none => exact h.output hR
  | some value => exact ⟨rfl, hR⟩

mutual

theorem Simulates.evaluate (h : Simulates first second R isFree isAssigned) :
    ∀ (expression : ElisionExpression) {s : σ} {t : τ}, R s t →
      expressionLeavesPlaceAlone checker arrayName rootName expression = true →
        RelatedOutcome R (evaluate first machine arrayName expression s)
          (evaluate second machine arrayName expression t)
  | .label _ value, s, t, hR, _ => by
    rw [Grayscale.evaluate, Grayscale.evaluate, h.lookup hR]
    exact h.orPanic _ hR
  | .integerLiteral _, s, t, hR, _ => ⟨rfl, hR⟩
  | .literal _, s, t, hR, _ => ⟨rfl, hR⟩
  | .interpolatedString parts, s, t, hR, halo =>
    (h.evaluateAll parts hR halo).bind fun values _ _ hR => h.orPanic (machine.interpolate values) hR
  | .structValue _ fieldValues, s, t, hR, halo =>
    (h.evaluateAll fieldValues hR halo).bind fun _ _ _ hR => ⟨rfl, hR⟩
  | .prefixExpression operator right, s, t, hR, halo =>
    (h.evaluate right hR halo).bind fun value _ _ hR => h.orPanic (machine.prefixValue operator value) hR
  | .infixExpression operator left right, s, t, hR, halo => by
    obtain ⟨hleft, hrgt⟩ := Bool.and_eq_true_iff.mp halo
    refine (h.evaluate left hR hleft).bind fun value s t hR => ?_
    dsimp only
    cases machine.shortCircuit operator value with
    | some result => exact ⟨rfl, hR⟩
    | none =>
      exact (h.evaluate right hR hrgt).bind fun value' _ _ hR =>
        h.orPanic (machine.infixValue operator value value') hR
  | .indexExpression _ left index, s, t, hR, halo => by
    refine (h.evaluate index hR (Bool.and_eq_true_iff.mp halo).2).bind fun value s t hR => ?_
    dsimp only
    split
    · rw [h.elements hR]
      exact h.orPanic _ hR
    · exact h.output hR
  | .callExpression function arguments, s, t, hR, halo => by
    refine (h.evaluateArguments arguments hR (Bool.and_eq_true_iff.mp halo).2).bind
      fun values s t hR => ?_
    dsimp only
    rw [h.elements hR]
    refine (h.orPanic (machine.call function values (second.elements t)) hR).bind
      fun result s t hR => ⟨rfl, ?_⟩
    dsimp only
    split_ifs
    · exact h.print (h.called hR result) _
    · exact h.print hR _
  | .nilValue, _, _, _, halo | .arrayValue _, _, _, _, halo | .mapValue _ _, _, _, _, halo
  | .postfixExpression _ _, _, _, _, halo | .memberExpression _ _, _, _, _, halo
  | .other, _, _, _, halo => by cases halo

theorem Simulates.evaluateAll (h : Simulates first second R isFree isAssigned) :
    ∀ (l : List ElisionExpression) {s : σ} {t : τ}, R s t →
      allLeavePlaceAlone checker arrayName rootName l = true →
        RelatedOutcome R (evaluateAll first machine arrayName l s)
          (evaluateAll second machine arrayName l t)
  | [], s, t, hR, _ => ⟨rfl, hR⟩
  | expression :: l, s, t, hR, halo => by
    obtain ⟨hexpr, hl⟩ := Bool.and_eq_true_iff.mp halo
    exact (h.evaluate expression hR hexpr).bind fun value s t hR =>
      (h.evaluateAll l hR hl).bind fun values s t hR => ⟨rfl, hR⟩

theorem Simulates.evaluateArguments (h : Simulates first second R isFree isAssigned) :
    ∀ (l : List ElisionExpression) {s : σ} {t : τ}, R s t →
      argumentsLeavePlaceAlone checker arrayName rootName l = true →
        RelatedOutcome R (evaluateArguments first machine arrayName l s)
          (evaluateArguments second machine arrayName l t)
  | [], s, t, hR, _ => ⟨rfl, hR⟩
  | argument :: l, s, t, hR, halo => by
    obtain ⟨harg, hl⟩ := Bool.and_eq_true_iff.mp halo
    rw [Grayscale.evaluateArguments, Grayscale.evaluateArguments]
    split_ifs with hlab
    · exact (h.evaluateArguments l hR hl).bind fun values s t hR => ⟨rfl, hR⟩
    · rw [Bool.or_eq_true] at harg
      exact (h.evaluate argument hR (harg.resolve_left hlab)).bind fun value s t hR =>
        (h.evaluateArguments l hR hl).bind fun values s t hR => ⟨rfl, hR⟩

end

def ElisionStatement.declaredNames : ElisionStatement → List Text
  | .variableDeclaration _ _ name _ _ _ => [name]
  | _ => []

def ElisionStatement.assignedNames : ElisionStatement → List Text
  | .assignStatement _ (.label _ name) _ _ => [name]
  | _ => []

theorem Simulates.execute (h : Simulates first second R isFree isAssigned)
    (statement : ElisionStatement) {s : σ} {t : τ} (hR : R s t)
    (halo : statementLeavesPlaceAlone checker arrayName rootName statement = true)
    (hdecl : ∀ name ∈ statement.declaredNames, isFree name)
    (hassign : ∀ name ∈ statement.assignedNames, isAssigned name) :
    RelatedResult R (execute first machine arrayName statement s)
      (execute second machine arrayName statement t) := by
  cases statement with
  | expressionStatement expression =>
    exact (h.evaluate expression hR halo).map fun _ _ _ hR => hR
  | variableDeclaration isMutable isSynthetic name value isScalar isArray =>
    refine (h.evaluate value hR (Bool.and_eq_true_iff.mp halo).2).bind fun value s t hR => ?_
    exact (h.orPanic (scalarOf (some value)) hR).map fun c _ _ hR =>
      h.declare hR name c (hdecl name (mem_singleton_self _))
  | assignStatement operator target value isScalar =>
    obtain ⟨htgt, hval⟩ := Bool.and_eq_true_iff.mp halo
    cases target with
    | label _ name =>
      refine (h.evaluate value hR hval).bind fun value s t hR => ?_
      dsimp only
      rw [h.lookup hR]
      cases hlook : second.lookup t name with
      | none => exact h.output hR
      | some old =>
        rw [bind_some]
        cases scalarOf (assignedValue machine operator (.leaf old) value) with
        | none => exact h.output hR
        | some c =>
          refine h.assign hR name c (hassign name (mem_singleton_self _)) ?_
          rw [h.lookup hR, hlook]
          rfl
    | indexExpression _ left index =>
      have hidx := (Bool.and_eq_true_iff.mp (Bool.and_eq_true_iff.mp htgt).1).2
      refine (h.evaluate index hR hidx).bind fun i s t hR =>
        (h.evaluate value hR hval).bind fun value s t hR => ?_
      dsimp only
      split
      · rw [h.elements hR]
        exact (h.orPanic _ hR).map fun element _ _ hR => h.setElement hR _ element
      · exact h.output hR
    | integerLiteral | literal | nilValue | interpolatedString | arrayValue | mapValue | structValue
    | prefixExpression | infixExpression | postfixExpression | memberExpression | callExpression
    | other => cases htgt
  | returnStatement | other => cases halo

theorem Simulates.executeAll (h : Simulates first second R isFree isAssigned)
    {l : List ElisionStatement} {s : σ} {t : τ} (hR : R s t)
    (halo : ∀ statement ∈ l, statementLeavesPlaceAlone checker arrayName rootName statement = true)
    (hdecl : ∀ name ∈ l.flatMap ElisionStatement.declaredNames, isFree name)
    (hassign : ∀ name ∈ l.flatMap ElisionStatement.assignedNames, isAssigned name) :
    RelatedResult R (executeAll first machine arrayName l s)
      (executeAll second machine arrayName l t) := by
  induction l generalizing s t with
  | nil => exact hR
  | cons statement l ih =>
    rw [flatMap_cons] at hdecl hassign
    have hfst : RelatedResult R (Grayscale.execute first machine arrayName statement s)
        (Grayscale.execute second machine arrayName statement t) :=
      h.execute statement hR (halo _ (mem_cons_self ..))
        (fun name hname => hdecl name (mem_append_left _ hname))
        (fun name hname => hassign name (mem_append_left _ hname))
    rw [Grayscale.executeAll, Grayscale.executeAll]
    cases hs : Grayscale.execute first machine arrayName statement s with
    | error output =>
      cases ht : Grayscale.execute second machine arrayName statement t with
      | error output' =>
        rw [hs, ht] at hfst
        exact hfst
      | ok t' =>
        rw [hs, ht] at hfst
        exact hfst.elim
    | ok s' =>
      cases ht : Grayscale.execute second machine arrayName statement t with
      | error output' =>
        rw [hs, ht] at hfst
        exact hfst.elim
      | ok t' =>
        rw [hs, ht] at hfst
        exact ih hfst (fun later hlater => halo later (mem_cons_of_mem _ hlater))
          (fun name hname => hdecl name (mem_append_right _ hname))
          (fun name hname => hassign name (mem_append_right _ hname))

end Simulation
/-! ### The shared storage -/

/-- The condition on the statements between the copy and the store, from the state before them. -/
structure PlaceKept (copy : ElidedCopy) (store : PlaceStore) : Prop where
  indexes : ∀ name ∈ indexNames copy.place,
    name ∉ copy.between.flatMap ElisionStatement.declaredNames ∧
      name ∉ copy.between.flatMap ElisionStatement.assignedNames
  roots : ∀ a, resolvePlace store copy.place = some a → ∀ b ∈ a :: placeReads store copy.place,
    ∀ name ∈ copy.between.flatMap ElisionStatement.declaredNames, b.root ≠ .name name
  reads : ∀ a, resolvePlace store copy.place = some a → ∀ b ∈ placeReads store copy.place,
    ¬ b.Inside a

section Shared

variable {store : PlaceStore} {a : Address PlaceKey PlaceRoot} {view : List PlaceValue}
  {isDeclared isAssigned : Text → Prop} {s : CopiedState} {t : SharedState}

/-- The states of the two runs between the copy and the store: the store of the copy is the shared
one with the array as it was, and no address has another kind than at the beginning. -/
structure SharesStorage (store : PlaceStore) (a : Address PlaceKey PlaceRoot) (view : List PlaceValue)
    (isDeclared isAssigned : Text → Prop) (s : CopiedState) (t : SharedState) : Prop where
  output : s.output = t.output
  isArray : ∃ cells, readAt t.store a = some (.array cells)
  copied : writeAt t.store a (.array view) = s.store
  elements : s.elements = t.elements a
  kinds : ∀ b, (∀ name, isDeclared name → b.root ≠ .name name) → kindAt s.store b = kindAt store b
  scalars : ∀ name, ¬ isDeclared name → ¬ isAssigned name →
    scalarOf (s.store (.name name)) = scalarOf (store (.name name))

theorem elementsAt_eq {cells : List PlaceValue} (h : readAt store a = some (.array cells)) :
    elementsAt store a = cells := by
  rw [elementsAt, h]

theorem scalarOf_root_eq_none (hpath : a.path ≠ []) {value : PlaceValue}
    (h : readAt store a = some value) : scalarOf (store a.root) = none := by
  obtain ⟨root, hroot, hread⟩ := bind_eq_some_iff.mp h
  rw [hroot]
  cases root with
  | leaf c =>
    obtain ⟨selector, path, heq⟩ := exists_cons_of_ne_nil hpath
    rw [heq, ValueTree.readPath] at hread
    cases selector <;> cases hread
  | record | array | pointer => rfl

theorem kindAt_update_leaf {name : PlaceRoot} {c c' : Scalar} (h : scalarOf (store name) = some c)
    (b : Address PlaceKey PlaceRoot) :
    kindAt (Function.update store name (some (.leaf c'))) b = kindAt store b := by
  by_cases hroot : name = b.root
  · subst hroot
    have hleaf : store b.root = some (.leaf c) := by
      cases hval : store b.root with
      | none =>
        rw [hval] at h
        cases h
      | some value =>
        rw [hval] at h
        cases value with
        | leaf c'' => rw [some.inj h]
        | record | array | pointer => cases h
    unfold kindAt readAt
    rw [Function.update_self, hleaf]
    cases b.path with
    | nil => rfl
    | cons selector path => cases selector <;> rfl
  · unfold kindAt
    rw [readAt_update hroot]

theorem SharesStorage.readAt_copied (h : SharesStorage store a view isDeclared isAssigned s t) :
    readAt s.store a = some (.array view) := by
  obtain ⟨cells, hcel⟩ := h.isArray
  rw [← h.copied]
  exact readAt_writeAt (by rw [hcel]; rfl)

theorem SharesStorage.lookup (hpath : a.path ≠ [])
    (h : SharesStorage store a view isDeclared isAssigned s t) (name : Text) :
    scalarOf (s.store (.name name)) = scalarOf (t.store (.name name)) := by
  obtain ⟨cells, hcel⟩ := h.isArray
  by_cases hroot : PlaceRoot.name name = a.root
  · rw [hroot, scalarOf_root_eq_none hpath h.readAt_copied, scalarOf_root_eq_none hpath hcel]
  · rw [← h.copied, writeAt_of_ne hroot]

theorem elements_update {name : PlaceRoot} (hname : name ≠ a.root) (t : SharedState)
    (value : Option PlaceValue) :
    SharedState.elements a { t with store := Function.update t.store name value } = t.elements a := by
  unfold SharedState.elements elementsAt
  rw [readAt_update hname]

theorem SharesStorage.update (h : SharesStorage store a view isDeclared isAssigned s t) {name : Text}
    (hroot : PlaceRoot.name name ≠ a.root) (hname : isDeclared name ∨ isAssigned name) (c : Scalar)
    (hkinds : ∀ b, (∀ name, isDeclared name → b.root ≠ .name name) →
      kindAt (Function.update s.store (.name name) (some (.leaf c))) b = kindAt s.store b) :
    SharesStorage store a view isDeclared isAssigned (copiedAccess.declare s name c)
      ((sharedAccess a).declare t name c) := by
  refine ⟨h.output, ?_, ?_, ?_, fun b hb => (hkinds b hb).trans (h.kinds b hb),
    fun other hdecl hassign => ?_⟩
  · obtain ⟨cells, hcel⟩ := h.isArray
    exact ⟨cells, (readAt_update hroot _).trans hcel⟩
  · change writeAt (Function.update t.store (.name name) _) a _ = Function.update s.store _ _
    rw [writeAt_update hroot, h.copied]
  · exact h.elements.trans (elements_update hroot t _).symm
  · have hne : PlaceRoot.name other ≠ PlaceRoot.name name := fun heq => by
      obtain rfl := PlaceRoot.name.inj heq
      exact hname.elim hdecl hassign
    change scalarOf (Function.update s.store _ _ (.name other)) = _
    rw [Function.update_of_ne hne]
    exact h.scalars other hdecl hassign

theorem SharesStorage.write (h : SharesStorage store a view isDeclared isAssigned s t)
    (cells elements : List PlaceValue) (moved : Option (List PlaceValue))
    (hels : moved.getD cells = elements) :
    SharesStorage store a view isDeclared isAssigned { s with elements := elements }
      { t with store := writeAt t.store a (.array cells), moved := moved } := by
  obtain ⟨old, hold⟩ := h.isArray
  have hread : readAt (writeAt t.store a (.array cells)) a = some (.array cells) :=
    readAt_writeAt (by rw [hold]; rfl)
  refine ⟨h.output, ⟨cells, hread⟩, ?_, ?_, h.kinds, h.scalars⟩
  · change writeAt (writeAt t.store a _) a _ = s.store
    rw [writeAt_writeAt, h.copied]
  · change elements = moved.getD (elementsAt (writeAt t.store a (.array cells)) a)
    rw [elementsAt_eq hread, hels]

theorem SharesStorage.move (h : SharesStorage store a view isDeclared isAssigned s t)
    (elements : List PlaceValue) :
    SharesStorage store a view isDeclared isAssigned { s with elements := elements }
      { t with moved := some elements } := ⟨h.output, h.isArray, h.copied, rfl, h.kinds, h.scalars⟩

theorem simulates_shared (hpath : a.path ≠ []) :
    Simulates copiedAccess (sharedAccess a) (SharesStorage store a view isDeclared isAssigned)
      (fun name => isDeclared name ∧ a.root ≠ .name name) isAssigned where
  lookup h name := h.lookup hpath name
  declare {s t} h name c hfree := by
    refine h.update hfree.2.symm (Or.inl hfree.1) c fun b hb => ?_
    unfold kindAt
    rw [readAt_update (hb name hfree.1).symm]
  assign {s t} h name c hassign hscal := by
    obtain ⟨old, hold⟩ := Option.isSome_iff_exists.mp hscal
    refine h.update (fun heq => ?_) (Or.inr hassign) c fun b _ => kindAt_update_leaf hold b
    change scalarOf (s.store (.name name)) = some old at hold
    rw [heq, scalarOf_root_eq_none hpath h.readAt_copied] at hold
    cases hold
  elements h := h.elements
  setElement {s t} h index value := by
    obtain ⟨store', moved, output⟩ := t
    have hels := h.elements
    cases moved with
    | some elements =>
      have hmove := h.move (elements.set index value)
      rwa [show elements = s.elements from hels.symm] at hmove ⊢
    | none =>
      refine h.write ((elementsAt store' a).set index value) (s.elements.set index value) none ?_
      exact congrArg (List.set · index value) hels.symm
  called {s t} h result := by
    obtain ⟨store', moved, output⟩ := t
    cases moved with
    | some elements => exact h.move result.elements
    | none =>
      change SharesStorage store a view isDeclared isAssigned _ (if _ then _ else _)
      split_ifs
      · exact h.write result.leftover result.elements (some result.elements) rfl
      · exact h.write result.elements result.elements none rfl
  output h := h.output
  print h text := ⟨congrArg (· ++ text) h.output, h.isArray, h.copied, h.elements, h.kinds, h.scalars⟩

end Shared
/-! ### The place at the store -/

/-- A place stands for the same address where its indexes have the same values and what is read to
resolve it is of the same kinds. -/
theorem resolvePlace_congr {store store' : PlaceStore} : ∀ (place : ElisionExpression),
    (∀ name ∈ indexNames place, scalarOf (store' (.name name)) = scalarOf (store (.name name))) →
      (∀ b ∈ placeReads store place, kindAt store' b = kindAt store b) →
        resolvePlace store' place = resolvePlace store place
  | .label _ _, _, _ => rfl
  | .memberExpression object _, hnam, hrd => by
    rw [resolvePlace, resolvePlace, resolvePlace_congr object hnam hrd]
  | .postfixExpression _ left, hnam, hrd => by
    have hleft := resolvePlace_congr left hnam fun b hb => hrd b (mem_append_left _ hb)
    rw [resolvePlace, resolvePlace, hleft]
    cases ha : resolvePlace store left with
    | none => rfl
    | some a =>
      rw [bind_some, bind_some, hrd a (mem_append_right _ (by rw [ha]; exact mem_singleton_self a))]
  | .indexExpression _ left index, hnam, hrd => by
    have hidx : indexScalar store' index = indexScalar store index := by
      cases index with
      | label _ name => exact hnam name (mem_append_right _ (mem_singleton_self name))
      | integerLiteral | literal | nilValue | interpolatedString | arrayValue | mapValue | structValue
      | prefixExpression | infixExpression | postfixExpression | indexExpression | memberExpression
      | callExpression | other => rfl
    have hsub : indexNames left ⊆ indexNames (.indexExpression ‹Bool› left index) := by
      cases index with
      | label _ name => exact subset_append_left ..
      | integerLiteral | literal | nilValue | interpolatedString | arrayValue | mapValue | structValue
      | prefixExpression | infixExpression | postfixExpression | indexExpression | memberExpression
      | callExpression | other => exact List.Subset.refl _
    have hleft := resolvePlace_congr left (fun name hname => hnam name (hsub hname))
      fun b hb => hrd b (mem_append_left _ hb)
    rw [resolvePlace, resolvePlace, hleft, hidx]
    cases ha : resolvePlace store left with
    | none => rfl
    | some a =>
      rw [bind_some, bind_some, hrd a (mem_append_right _ (by rw [ha]; exact mem_singleton_self a))]
  | .integerLiteral _, _, _ | .literal _, _, _ | .nilValue, _, _ | .interpolatedString _, _, _
  | .arrayValue _, _, _ | .mapValue _ _, _, _ | .structValue _ _, _, _ | .prefixExpression _ _, _, _
  | .infixExpression _ _ _, _, _ | .callExpression _ _, _, _ | .other, _, _ => rfl

theorem path_ne_nil_of_isCopiedPlace {store : PlaceStore} {place : ElisionExpression}
    {a : Address PlaceKey PlaceRoot} (h : isCopiedPlace place = true)
    (ha : resolvePlace store place = some a) : a.path ≠ [] := by
  cases place with
  | memberExpression object member =>
    obtain ⟨b, -, rfl⟩ := map_eq_some_iff.mp ha
    exact append_ne_nil_of_right_ne_nil _ (cons_ne_nil _ _)
  | indexExpression isScalar left index =>
    obtain ⟨b, -, hrest⟩ := bind_eq_some_iff.mp ha
    obtain ⟨kind, -, hrest⟩ := bind_eq_some_iff.mp hrest
    obtain ⟨key, -, hrest⟩ := bind_eq_some_iff.mp hrest
    obtain ⟨selector, -, rfl⟩ := map_eq_some_iff.mp hrest
    exact append_ne_nil_of_right_ne_nil _ (cons_ne_nil _ _)
  | label | integerLiteral | literal | nilValue | interpolatedString | arrayValue | mapValue
  | structValue | prefixExpression | infixExpression | postfixExpression | callExpression | other =>
    cases h

theorem leavesPlaceAlone_of_findStoreBack {checker : ElisionChecker} {arrayName rootName : Text}
    {place : ElisionExpression} {l : List ElisionStatement}
    {parts : List ElisionStatement × List ElisionStatement}
    (h : findStoreBack checker arrayName rootName place l = some parts) :
    ∀ statement ∈ parts.1, statementLeavesPlaceAlone checker arrayName rootName statement = true := by
  induction l generalizing parts with
  | nil => cases h
  | cons statement l ih =>
    rw [findStoreBack] at h
    cases hstore : storedToPlace place statement with
    | some stored =>
      rw [hstore] at h
      dsimp only at h
      split_ifs at h
      obtain rfl := some.inj h
      exact fun _ hmem => absurd hmem not_mem_nil
    | none =>
      rw [hstore] at h
      dsimp only at h
      split_ifs at h with halo
      obtain ⟨rest, hrest, rfl⟩ := map_eq_some_iff.mp h
      intro earlier hearlier
      rcases mem_cons.mp hearlier with rfl | hearlier
      · exact halo
      · exact ih hrest earlier hearlier

theorem elidedCopy_spec {checker : ElisionChecker} {declaration : ElisionStatement}
    {rest : List ElisionStatement} {copy : ElidedCopy}
    (h : elidedCopy checker declaration rest = some copy) : isCopiedPlace copy.place = true ∧
      ∀ statement ∈ copy.between,
        statementLeavesPlaceAlone checker copy.arrayName copy.rootName statement = true := by
  unfold elidedCopy at h
  split at h
  · split_ifs at h with hplc
    obtain ⟨rootName, -, hrest⟩ := bind_eq_some_iff.mp h
    split_ifs at hrest
    obtain ⟨parts, hpts, rfl⟩ := map_eq_some_iff.mp hrest
    exact ⟨(Bool.and_eq_true_iff.mp hplc).1, leavesPlaceAlone_of_findStoreBack hpts⟩
  · cases h

section Runs

variable {store : PlaceStore} {a : Address PlaceKey PlaceRoot} {view : List PlaceValue}
  {isDeclared isAssigned : Text → Prop} {s : CopiedState} {t : SharedState}

theorem sharesStorage_start (h : readAt store a = some (.array view)) :
    SharesStorage store a view isDeclared isAssigned ⟨store, view, []⟩ ⟨store, none, []⟩ :=
  ⟨rfl, ⟨view, h⟩, writeAt_self h, (elementsAt_eq h).symm, fun _ _ => rfl, fun _ _ _ => rfl⟩

theorem SharesStorage.storeBack_eq (h : SharesStorage store a view isDeclared isAssigned s t)
    (later : LaterStatements) :
    storeBack (t.settled a view.length) (some a) (t.elements a) t.output later =
      storeBack s.store (some a) s.elements s.output later := by
  obtain ⟨cells, hcel⟩ := h.isArray
  have hsettled : (readAt (t.settled a view.length) a).isSome = true ∧
      ∀ part, writeAt (t.settled a view.length) a part = writeAt t.store a part := by
    unfold SharedState.settled
    cases t.moved with
    | some elements => exact ⟨by rw [hcel]; rfl, fun _ => rfl⟩
    | none => exact ⟨by rw [readAt_writeAt (by rw [hcel]; rfl)]; rfl, fun _ => writeAt_writeAt⟩
  have hcopied : (readAt s.store a).isSome = true := by
    rw [h.readAt_copied]
    rfl
  rw [storeBack, storeBack, if_pos hsettled.1, if_pos hcopied, hsettled.2, h.elements, h.output,
    ← h.copied, writeAt_writeAt]

end Runs

/-! ### A copy that is missed -/

section Matrix

/-- Operators and a standard library of a program that uses none. -/
def bareMachine : ElisionMachine :=
  ⟨fun _ _ => none, fun _ _ => none, fun _ _ _ => none, fun _ => none, fun _ _ => .record [],
    fun _ _ _ => none⟩

/-- `mut m [[i64]] = {{1}, {2}}` and `mut i i64 = 0`. -/
def matrixStore : PlaceStore
  | .name name =>
    if name = bytes "m" then
      some (.array [.array [.leaf (.integer 1)], .array [.leaf (.integer 2)]])
    else if name = bytes "i" then some (.leaf (.integer 0))
    else none
  | .object _ => none

/-- `m[i]`. -/
def matrixRow : ElisionExpression :=
  .indexExpression false (.label false (bytes "m")) (.label true (bytes "i"))

/-- `mut xs [i64] = m[i]`. -/
def rowDeclaration : ElisionStatement :=
  .variableDeclaration true false (bytes "xs") matrixRow false true

/-- `xs[0] = 9`. -/
def setFirst : ElisionStatement :=
  .assignStatement .assign (.indexExpression true (.label false (bytes "xs")) (.integerLiteral 0))
    (.integerLiteral 9) true

/-- `i = 1`. -/
def nextRow : ElisionStatement :=
  .assignStatement .assign (.label true (bytes "i")) (.integerLiteral 1) true

/-- `m[i] = xs`. -/
def storeRow : ElisionStatement :=
  .assignStatement .assign matrixRow (.label false (bytes "xs")) false

/-- The copy of `m[i]`, with the statements before the store. -/
def rowCopy (between : List ElisionStatement) : ElidedCopy :=
  ⟨bytes "xs", bytes "m", matrixRow, between, []⟩

/-- No names of modules. -/
def plainChecker : ElisionChecker := ⟨fun _ => false⟩

/-- `io::println("${m[0][0]}")`, after the store. -/
def printFirst : LaterStatements := fun store output =>
  match readAt store ⟨.name (bytes "m"), [.element 0, .element 0]⟩ with
  | some (.leaf (.integer value)) => .ok (store, output ++ bytes (toString value))
  | _ => .error output

def outputOf : Except Text (PlaceStore × Text) → Text
  | .ok p => p.2
  | .error output => output

example : outputOf (runCopied bareMachine (rowCopy [setFirst]) printFirst matrixStore) = bytes "9" := by
  decide

theorem placeKept_matrixRow : PlaceKept (rowCopy [setFirst]) matrixStore where
  indexes _ _ := ⟨not_mem_nil, not_mem_nil⟩
  roots _ _ _ _ _ hname := absurd hname not_mem_nil
  reads a ha b hb := by
    obtain rfl : b = ⟨.name (bytes "m"), []⟩ := mem_singleton.mp hb
    obtain rfl : (⟨.name (bytes "m"), [.element 0]⟩ : Address PlaceKey PlaceRoot) = a := some.inj ha
    rintro ⟨-, suffix, hsuf⟩
    exact cons_ne_nil _ _ hsuf

end Matrix

end Grayscale
