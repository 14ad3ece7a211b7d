import Mathlib.Data.Int.Notation
import Mathlib.Data.List.Basic

/-!
# Scans that count a depth

A scan walks a list with a depth that each element changes, and stops at the first element that its
step refuses. A part that a walk passes over from some depth to another one can be left out of a
scan.
-/

namespace Grayscale

section DepthScan

variable {α : Type} (step : ℤ → α → Option ℤ)

/-- The depth after a list, if the walk is not stopped in it. -/
def walk : ℤ → List α → Option ℤ
  | depth, [] => some depth
  | depth, c :: l => (step depth c).bind fun next => walk next l

/-- The elements before and after the one that stops the walk. -/
@[grind =] def scan : ℤ → List α → Option (List α × List α)
  | _, [] => none
  | depth, c :: l =>
    match step depth c with
    | none => some ([], l)
    | some next => (scan next l).map fun parts => (c :: parts.1, parts.2)

variable {step} {depth middle : ℤ} {l : List α}

theorem walk_append (h : walk step depth l = some middle)
    (l' : List α) : walk step depth (l ++ l') = walk step middle l' := by
  induction l generalizing depth with
  | nil =>
    cases h
    rfl
  | cons c l ih =>
    obtain ⟨next, hnext, hrest⟩ := Option.bind_eq_some_iff.mp h
    rw [List.cons_append, walk, hnext, Option.bind_some]
    exact ih hrest

theorem scan_append (h : walk step depth l = some middle)
    (l' : List α) :
    scan step depth (l ++ l') = (scan step middle l').map fun parts => (l ++ parts.1, parts.2) := by
  induction l generalizing depth with
  | nil =>
    cases h
    simp
  | cons c l ih =>
    obtain ⟨next, hnext, hrest⟩ := Option.bind_eq_some_iff.mp h
    rw [List.cons_append, scan, hnext]
    dsimp only
    rw [ih hrest, Option.map_map]
    rfl

theorem scan_eq_none (h : walk step depth l = some middle) : scan step depth l = none := by
  have happend := scan_append h []
  rwa [List.append_nil, scan, Option.map_none] at happend

theorem scan_stop {c : α} (h : walk step depth l = some middle)
    (hc : step middle c = none) (l' : List α) : scan step depth (l ++ c :: l') = some (l, l') := by
  rw [scan_append h, scan, hc, Option.map_some, List.append_nil]

theorem scan_eq_some {depth : ℤ} {l : List α} {parts : List α × List α}
    (h : scan step depth l = some parts) : ∃ c, l = parts.1 ++ c :: parts.2 := by
  induction l generalizing depth parts with
  | nil => cases h
  | cons c l ih =>
    rw [scan] at h
    cases hstep : step depth c with
    | none =>
      rw [hstep] at h
      cases h
      exact ⟨c, rfl⟩
    | some next =>
      rw [hstep] at h
      obtain ⟨rest, hrest, rfl⟩ := Option.map_eq_some_iff.mp h
      obtain ⟨stop, hl⟩ := ih hrest
      exact ⟨stop, by rw [hl]; rfl⟩

end DepthScan

end Grayscale
