import Mathlib.Data.List.Basic

/-!
# Depth-first search with a bounded path

A depth-first search that keeps the path it is on, does not enter an element of the path again, and
gives up when the path is full, finds its target exactly if a path of that length leads to it.
-/

namespace Grayscale

open List

section PathSearch

variable {α : Type*} [DecidableEq α] (next : α → List α) (target : α)

/-- Whether the target is met from an element, with room for so many more elements on the path. -/
def pathSearch : ℕ → List α → α → Bool
  | 0, _, _ => false
  | room + 1, path, x =>
    if x ∈ path then false
    else (next x).any fun y => decide (y = target) || pathSearch room (x :: path) y

/-- A path from an element to the target, with the elements between. -/
inductive PathTo : α → List α → Prop
  | last {x : α} (h : target ∈ next x) : PathTo x []
  | step {x y : α} {l : List α} (h : y ∈ next x) (hl : PathTo y l) : PathTo x (y :: l)

variable {next target}

omit [DecidableEq α] in
theorem PathTo.suffix {x y : α} {s t : List α} (h : PathTo next target x (s ++ y :: t)) :
    PathTo next target y t := by
  induction s generalizing x with
  | nil =>
    cases h with
    | step _ hl => exact hl
  | cons z s ih =>
    cases h with
    | step _ hl => exact ih hl

omit [DecidableEq α] in
theorem PathTo.exists_not_mem {x : α} {l : List α} (h : PathTo next target x l) :
    ∃ l', PathTo next target x l' ∧ l' ⊆ l ∧ l'.length ≤ l.length ∧ x ∉ l' := by
  induction hlen : l.length using Nat.strongRecOn generalizing l with
  | ind n ih =>
    subst hlen
    by_cases hmem : x ∈ l
    · obtain ⟨s, t, rfl⟩ := append_of_mem hmem
      have hlt : t.length < (s ++ x :: t).length := by
        rw [length_append, length_cons]
        omega
      obtain ⟨l', hl', hsub, hle, hx⟩ := ih t.length hlt h.suffix rfl
      refine ⟨l', hl', fun y hy => ?_, Nat.le_trans hle (Nat.le_of_lt hlt), hx⟩
      exact mem_append_right _ (mem_cons_of_mem _ (hsub hy))
    · exact ⟨l, h, List.Subset.refl l, Nat.le_refl _, hmem⟩

variable {room : ℕ}

theorem exists_pathTo_of_pathSearch {path : List α} {x : α}
    (h : pathSearch next target room path x = true) :
    ∃ l, PathTo next target x l ∧ l.length < room := by
  induction room generalizing path x with
  | zero => cases h
  | succ room ih =>
    rw [pathSearch] at h
    split_ifs at h with hmem
    obtain ⟨y, hy, hfnd⟩ := any_eq_true.mp h
    rcases Bool.or_eq_true _ _ |>.mp hfnd with htgt | hrest
    · rw [of_decide_eq_true htgt] at hy
      exact ⟨[], .last hy, Nat.succ_pos room⟩
    · obtain ⟨l, hl, hlen⟩ := ih hrest
      exact ⟨y :: l, .step hy hl, Nat.succ_lt_succ hlen⟩

theorem pathSearch_of_pathTo {path : List α} {x : α} {l : List α}
    (h : PathTo next target x l) (hlen : l.length < room) (hx : x ∉ path)
    (hl : ∀ y ∈ l, y ∉ path) : pathSearch next target room path x = true := by
  induction room generalizing path x l with
  | zero => exact absurd hlen (Nat.not_lt_zero _)
  | succ room ih =>
    obtain ⟨l', hl', hsub, hle, hfr⟩ := h.exists_not_mem
    rw [pathSearch, if_neg hx, any_eq_true]
    cases hl' with
    | last htgt => exact ⟨target, htgt, Bool.or_eq_true _ _ |>.mpr (.inl (decide_eq_true rfl))⟩
    | @step _ y t hy ht =>
      have havoid : ∀ z ∈ y :: t, z ∉ x :: path := fun z hz hmem => by
        rcases mem_cons.mp hmem with rfl | hpath
        · exact hfr hz
        · exact hl z (hsub hz) hpath
      refine ⟨y, hy, Bool.or_eq_true _ _ |>.mpr (.inr (ih ht ?_ ?_ ?_))⟩
      · rw [length_cons] at hle
        omega
      · exact havoid y (mem_cons_self ..)
      · exact fun z hz => havoid z (mem_cons_of_mem _ hz)

theorem pathSearch_iff {x : α} :
    pathSearch next target room [] x = true ↔ ∃ l, PathTo next target x l ∧ l.length < room :=
  ⟨exists_pathTo_of_pathSearch, fun ⟨_, hl, hlen⟩ =>
    pathSearch_of_pathTo hl hlen (not_mem_nil) (fun _ _ => not_mem_nil)⟩

end PathSearch

end Grayscale
