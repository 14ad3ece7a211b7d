import Mathlib.Data.List.Basic
import Mathlib.Data.List.TakeWhile

/-!
# Scanning loops over a list

A scanning loop reads a list from the left. In each round a step function looks at its state and
at everything that is left, and either stops or takes one or more elements, with an output and a
new state. `run` iterates such a step function; the recursion is structural in the list, the
elements a round has already taken being skipped one at a time.
-/

namespace Grayscale.Scan

open List

variable {α σ ω : Type*}

/-- One round of a scanning loop: its output, the state it leaves, and how many elements it takes
beyond the first. -/
structure Round (σ ω : Type*) where
  output : ω
  state : σ
  extra : ℕ

/-- A finished run: the outputs of its rounds, the final state, and what was not taken. -/
structure Result (α σ ω : Type*) where
  outputs : List ω
  state : σ
  rest : List α

/-- Put the output of an earlier round in front. -/
def Result.cons (o : ω) (r : Result α σ ω) : Result α σ ω := { r with outputs := o :: r.outputs }

@[simp] theorem Result.cons_outputs (o : ω) (r : Result α σ ω) :
    (r.cons o).outputs = o :: r.outputs := rfl

@[simp] theorem Result.cons_state (o : ω) (r : Result α σ ω) : (r.cons o).state = r.state := rfl

@[simp] theorem Result.cons_rest (o : ω) (r : Result α σ ω) : (r.cons o).rest = r.rest := rfl

variable (step : σ → List α → Option (Round σ ω))

/-- The loop, entered while `skip` elements of an earlier round are still to be passed over. -/
def runSkip : ℕ → σ → List α → Result α σ ω
  | _, s, [] => ⟨[], s, []⟩
  | skip + 1, s, _ :: l => runSkip skip s l
  | 0, s, c :: l =>
    match step s (c :: l) with
    | none => ⟨[], s, c :: l⟩
    | some round => (runSkip round.extra round.state l).cons round.output

/-- Run the loop from state `s` on `l`. -/
def run (s : σ) (l : List α) : Result α σ ω := runSkip step 0 s l

theorem runSkip_eq (skip : ℕ) (s : σ) (l : List α) :
    runSkip step skip s l = run step s (l.drop skip) := by
  induction l generalizing skip with
  | nil => cases skip <;> rfl
  | cons c l ih =>
    cases skip with
    | zero => rfl
    | succ skip => exact ih skip

@[simp] theorem run_nil (s : σ) : run step s [] = ⟨[], s, []⟩ := rfl

theorem run_stop {s : σ} {c : α} {l : List α} (h : step s (c :: l) = none) :
    run step s (c :: l) = ⟨[], s, c :: l⟩ := by
  simp only [run, runSkip, h]

theorem run_cons {s : σ} {c : α} {l : List α} {round : Round σ ω}
    (h : step s (c :: l) = some round) :
    run step s (c :: l) = (run step round.state (l.drop round.extra)).cons round.output := by
  simp only [run, runSkip, h]
  rw [runSkip_eq, run]

theorem run_induct {P : σ → List α → Result α σ ω → Prop}
    (hnil : ∀ s, P s [] ⟨[], s, []⟩)
    (hstop : ∀ s c l, step s (c :: l) = none → P s (c :: l) ⟨[], s, c :: l⟩)
    (hrnd : ∀ s c l round, step s (c :: l) = some round →
      P round.state (l.drop round.extra) (run step round.state (l.drop round.extra)) →
        P s (c :: l) ((run step round.state (l.drop round.extra)).cons round.output))
    (s : σ) (l : List α) : P s l (run step s l) := by
  induction hn : l.length using Nat.strongRecOn generalizing s l with
  | ind n ih =>
    subst hn
    cases l with
    | nil => exact hnil s
    | cons c l =>
      cases h : step s (c :: l) with
      | none =>
        rw [run_stop step h]
        exact hstop s c l h
      | some round =>
        rw [run_cons step h]
        refine hrnd s c l round h (ih _ ?_ _ _ rfl)
        rw [length_drop, length_cons]
        omega

theorem rest_suffix (s : σ) (l : List α) : (run step s l).rest <:+ l := by
  refine run_induct step (P := fun _ l r => r.rest <:+ l) (fun _ => suffix_rfl)
    (fun _ _ _ _ => suffix_rfl) ?_ s l
  intro s c l round _ ih
  exact ih.trans ((drop_suffix _ _).trans (suffix_cons c l))

theorem run_rest (s : σ) (l : List α) :
    (run step s l).rest = [] ∨ step (run step s l).state (run step s l).rest = none :=
  run_induct step (P := fun _ _ r => r.rest = [] ∨ step r.state r.rest = none)
    (fun _ => .inl rfl) (fun _ _ _ h => .inr h) (fun _ _ _ _ _ ih => ih) s l

theorem run_state {P : σ → Prop}
    (hrnd : ∀ s c l round, step s (c :: l) = some round → P s → P round.state)
    {s : σ} (hs : P s) (l : List α) : P (run step s l).state := by
  refine run_induct step (P := fun s _ r => P s → P r.state) (fun _ h => h)
    (fun _ _ _ _ h => h) ?_ s l hs
  intro s c l round h ih hs
  exact ih (hrnd s c l round h hs)

theorem run_outputs {P : ω → Prop}
    (hrnd : ∀ s c l round, step s (c :: l) = some round → P round.output)
    (s : σ) (l : List α) : ∀ o ∈ (run step s l).outputs, P o := by
  refine run_induct step (P := fun _ _ r => ∀ o ∈ r.outputs, P o) (fun _ => by simp)
    (fun _ _ _ _ => by simp) ?_ s l
  intro s c l round h ih o ho
  rcases mem_cons.mp ho with rfl | ho
  · exact hrnd s c l round h
  · exact ih o ho

theorem drop_length_takeWhile (p : α → Bool) (l : List α) :
    l.drop (l.takeWhile p).length = l.dropWhile p := by
  conv_lhs => rw [← takeWhile_append_dropWhile (p := p) (l := l)]
  induction l with
  | nil => rfl
  | cons c l ih =>
    cases h : p c with
    | false => simp [h]
    | true => simpa [h] using ih

end Grayscale.Scan
