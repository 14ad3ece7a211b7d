import Mathlib.Data.Option.Basic
import Mathlib.Tactic.Common

/-!
# Structured code

Code of sequences, branches, loops and scopes over arbitrary leaves, with jumps out of loops. What a
condition evaluates to is read from a list of decisions, so that runs of two codes can be compared
which take the same path. A translation that keeps the structure and replaces the leaves simulates
the code as soon as it simulates each leaf.
-/

namespace Grayscale.StructuredCode

/-- Code over leaves; a scope is tagged with what it begins with. -/
inductive Code (Leaf Scope Label : Type*)
  | skip
  | leaf (l : Leaf)
  | jump (isBreak : Bool) (label : Option Label)
  | sequence (first second : Code Leaf Scope Label)
  | branch (consequence alternative : Code Leaf Scope Label)
  | loop (endless : Bool) (label : Option Label) (body : Code Leaf Scope Label)
  | scope (tag : Scope) (body : Code Leaf Scope Label)
  deriving DecidableEq

/-- How code ends: it is through, it jumps to a loop around it, or it is left. -/
inductive Outcome (State Exit Label : Type*)
  | finished (s : State)
  | jumped (isBreak : Bool) (label : Option Label) (s : State)
  | left (e : Exit)
  deriving DecidableEq

/-- The outcome of a scope, from that of its body. -/
def Outcome.mapState {State Exit Label : Type*} (f : State → State) :
    Outcome State Exit Label → Outcome State Exit Label
  | .finished s => .finished (f s)
  | .jumped isBreak label s => .jumped isBreak label (f s)
  | .left e => .left e

/-- What the leaves do, and what the beginning and the end of a scope do to the state; the end is
given the state in front of the scope as well. -/
structure Machine (Leaf Scope State Exit : Type*) where
  act : State → Leaf → State ⊕ Exit
  enter : State → Scope → State
  close : State → State → State

section Run

variable {Leaf Scope Label State Exit : Type*} [DecidableEq Label]

def Targets (jump loop : Option Label) : Bool := jump.isNone || jump = loop

/-- The run of a code; `none` if the bound on its depth or its decisions do not suffice. -/
def Machine.run (M : Machine Leaf Scope State Exit) :
    ℕ → State → Code Leaf Scope Label → List Bool → Option (Outcome State Exit Label × List Bool)
  | 0, _, _, _ => none
  | _ + 1, s, .skip, ds => some (.finished s, ds)
  | _ + 1, s, .leaf l, ds =>
    match M.act s l with
    | .inl t => some (.finished t, ds)
    | .inr e => some (.left e, ds)
  | _ + 1, s, .jump isBreak label, ds => some (.jumped isBreak label s, ds)
  | n + 1, s, .sequence first second, ds =>
    match M.run n s first ds with
    | some (.finished t, ds') => M.run n t second ds'
    | result => result
  | _ + 1, _, .branch _ _, [] => none
  | n + 1, s, .branch consequence _, true :: ds => M.run n s consequence ds
  | n + 1, s, .branch _ alternative, false :: ds => M.run n s alternative ds
  | _ + 1, _, .loop _ _ _, [] => none
  | n + 1, s, .loop endless label body, again :: ds =>
    if again || endless then
      match M.run n s body ds with
      | some (.finished t, ds') => M.run n t (.loop endless label body) ds'
      | some (.jumped isBreak target t, ds') =>
        if Targets target label then
          if isBreak then some (.finished t, ds')
          else M.run n t (.loop endless label body) ds'
        else some (.jumped isBreak target t, ds')
      | result => result
    else some (.finished s, ds)
  | n + 1, s, .scope tag body, ds =>
    (M.run n (M.enter s tag) body ds).map fun (o, ds') => (o.mapState (M.close s), ds')

end Run

/-! ### Translations -/

section Translate

variable {Leaf Leaf' Scope Scope' Label Context : Type*}

/-- The code with its leaves and tags replaced, in a context that every scope extends. -/
def Code.translate (leaf : Context → Leaf → Code Leaf' Scope' Label) (tag : Scope → Scope')
    (inside : Context → Scope → Context) : Context → Code Leaf Scope Label → Code Leaf' Scope' Label
  | _, .skip => .skip
  | γ, .leaf l => leaf γ l
  | _, .jump isBreak label => .jump isBreak label
  | γ, .sequence first second =>
    .sequence (first.translate leaf tag inside γ) (second.translate leaf tag inside γ)
  | γ, .branch consequence alternative =>
    .branch (consequence.translate leaf tag inside γ) (alternative.translate leaf tag inside γ)
  | γ, .loop endless label body => .loop endless label (body.translate leaf tag inside γ)
  | γ, .scope e body => .scope (tag e) (body.translate leaf tag inside (inside γ e))

def Code.AllLeaves (p : Leaf → Prop) : Code Leaf Scope Label → Prop
  | .skip | .jump _ _ => True
  | .leaf l => p l
  | .sequence first second => first.AllLeaves p ∧ second.AllLeaves p
  | .branch consequence alternative => consequence.AllLeaves p ∧ alternative.AllLeaves p
  | .loop _ _ body => body.AllLeaves p
  | .scope _ body => body.AllLeaves p

end Translate

/-! ### Simulation -/

section Simulation

variable {Leaf Leaf' Scope Scope' Label Context State State' Exit Exit' : Type*}

inductive Outcome.Related (related : State → State' → Prop) (exits : Exit → Exit' → Prop) :
    Outcome State Exit Label → Outcome State' Exit' Label → Prop
  | finished {s : State} {t : State'} (h : related s t) :
    Related related exits (.finished s) (.finished t)
  | jumped {s : State} {t : State'} (isBreak : Bool) (label : Option Label) (h : related s t) :
    Related related exits (.jumped isBreak label s) (.jumped isBreak label t)
  | left {e : Exit} {e' : Exit'} (h : exits e e') : Related related exits (.left e) (.left e')

/-- Results of two runs that agree: neither has one, or they have taken the same decisions to
related outcomes. -/
inductive SameResult (related : State → State' → Prop) (exits : Exit → Exit' → Prop) :
    Option (Outcome State Exit Label × List Bool) →
      Option (Outcome State' Exit' Label × List Bool) → Prop
  | none : SameResult related exits none none
  | some {o : Outcome State Exit Label} {o' : Outcome State' Exit' Label} (ds : List Bool)
    (h : o.Related related exits o') : SameResult related exits (some (o, ds)) (some (o', ds))

/-- What makes a translation a simulation: a leaf with the property is replaced by a leaf that does
the same, and scopes begin and end alike. -/
structure Simulates (M : Machine Leaf Scope State Exit) (M' : Machine Leaf' Scope' State' Exit')
    (p : Leaf → Prop) (leaf : Context → Leaf → Leaf') (tag : Scope → Scope')
    (inside : Context → Scope → Context) (related : Context → State → State' → Prop)
    (exits : Exit → Exit' → Prop) : Prop where
  act : ∀ {γ s t l}, p l → related γ s t →
    (∃ s' t', M.act s l = .inl s' ∧ M'.act t (leaf γ l) = .inl t' ∧ related γ s' t') ∨
    (∃ e e', M.act s l = .inr e ∧ M'.act t (leaf γ l) = .inr e' ∧ exits e e')
  enter : ∀ {γ s t e}, related γ s t → related (inside γ e) (M.enter s e) (M'.enter t (tag e))
  close : ∀ {γ s t s' t' e}, related γ s t → related (inside γ e) s' t' →
    related γ (M.close s s') (M'.close t t')

variable {M : Machine Leaf Scope State Exit} {M' : Machine Leaf' Scope' State' Exit'}
  {p : Leaf → Prop} {leaf : Context → Leaf → Leaf'} {tag : Scope → Scope'}
  {inside : Context → Scope → Context} {related : Context → State → State' → Prop}
  {exits : Exit → Exit' → Prop} [DecidableEq Label]

omit [DecidableEq Label] in
theorem SameResult.close {r : State → State' → Prop} {q : State → State' → Prop} {f : State → State}
    {g : State' → State'} {x : Option (Outcome State Exit Label × List Bool)}
    {y : Option (Outcome State' Exit' Label × List Bool)}
    (h : SameResult r exits x y) (hcl : ∀ {s t}, r s t → q (f s) (g t)) :
    SameResult q exits (x.map fun (o, ds) => (o.mapState f, ds))
      (y.map fun (o, ds) => (o.mapState g, ds)) := by
  cases h with
  | none => exact .none
  | some ds h =>
    refine .some ds ?_
    cases h with
    | finished h => exact .finished (hcl h)
    | jumped isBreak label h => exact .jumped isBreak label (hcl h)
    | left h => exact .left h

omit [DecidableEq Label] in
theorem SameResult.cases {r : State → State' → Prop}
    {x : Option (Outcome State Exit Label × List Bool)}
    {y : Option (Outcome State' Exit' Label × List Bool)} (h : SameResult r exits x y) :
    (x = .none ∧ y = .none) ∨
      ∃ o o' ds, x = .some (o, ds) ∧ y = .some (o', ds) ∧ o.Related r exits o' := by
  cases h with
  | none => exact .inl ⟨rfl, rfl⟩
  | some ds h => exact .inr ⟨_, _, ds, rfl, rfl, h⟩

theorem Simulates.run (h : Simulates M M' p leaf tag inside related exits) (n : ℕ) {γ : Context}
    {s : State} {t : State'} {code : Code Leaf Scope Label} (hp : code.AllLeaves p)
    (hst : related γ s t) (ds : List Bool) : SameResult (related γ) exits (M.run n s code ds)
      (M'.run n t (code.translate (fun γ l => .leaf (leaf γ l)) tag inside γ) ds) := by
  induction n generalizing γ s t code ds with
  | zero => exact .none
  | succ n ih =>
    cases code with
    | skip => exact .some ds (.finished hst)
    | leaf l =>
      simp only [Code.translate, Machine.run]
      obtain ⟨s', t', hs, ht, hst'⟩ | ⟨e, e', hs, ht, he⟩ := h.act hp hst
      · rw [hs, ht]
        exact .some ds (.finished hst')
      · rw [hs, ht]
        exact .some ds (.left he)
    | jump isBreak label => exact .some ds (.jumped isBreak label hst)
    | sequence first second =>
      simp only [Code.translate, Machine.run]
      obtain ⟨hs, ht⟩ | ⟨o, o', ds', hs, ht, hout⟩ := (ih hp.1 hst ds).cases
      · rw [hs, ht]
        exact .none
      · rw [hs, ht]
        cases hout with
        | finished hst' => exact ih hp.2 hst' ds'
        | jumped isBreak label hst' => exact .some ds' (.jumped isBreak label hst')
        | left he => exact .some ds' (.left he)
    | branch consequence alternative =>
      cases ds with
      | nil => exact .none
      | cons d ds =>
        cases d with
        | true => exact ih hp.1 hst ds
        | false => exact ih hp.2 hst ds
    | loop endless label body =>
      cases ds with
      | nil => exact .none
      | cons again ds =>
        simp only [Code.translate, Machine.run]
        split_ifs with hagain
        · -- one more iteration, and the loop again after it
          have hloop {s' : State} {t' : State'} (hst' : related γ s' t') (ds' : List Bool) :=
            @ih γ s' t' (.loop endless label body) hp hst' ds'
          obtain ⟨hs, ht⟩ | ⟨o, o', ds', hs, ht, hout⟩ := (@ih γ s t body hp hst ds).cases
          · rw [hs, ht]
            exact .none
          · rw [hs, ht]
            cases hout with
            | finished hst' => exact hloop hst' ds'
            | jumped isBreak target hst' =>
              dsimp only
              split_ifs with htgt hbreak
              · exact .some ds' (.finished hst')
              · exact hloop hst' ds'
              · exact .some ds' (.jumped isBreak target hst')
            | left he => exact .some ds' (.left he)
        · exact .some ds (.finished hst)
    | scope e body =>
      exact (@ih _ _ _ body hp (h.enter hst) ds).close (h.close hst)

end Simulation

end Grayscale.StructuredCode
