import Mathlib.Data.List.DropRight
import Mathlib.Logic.Relation

/-!
# Lexical resolution of paths

The elements of a path, where one of them leads up. An element in front of it is cancelled, and in a
rooted path nothing is above the root. The resolution is what is left when no step applies.
-/

namespace Grayscale.LexicalPath

open List

variable {α : Type} {up : α} {rooted : Bool}

/-- An element and the one behind it that leads up are cancelled; nothing leads above the root. -/
inductive CancelStep (up : α) (rooted : Bool) : List α → List α → Prop
  | back {l m : List α} {x : α} (hx : x ≠ up) :
      CancelStep up rooted (l ++ x :: up :: m) (l ++ m)
  | root {m : List α} (hrooted : rooted = true) : CancelStep up rooted (up :: m) m

/-- Cancellations lead from a list to another one, where none is left. -/
def Resolution (up : α) (rooted : Bool) (l r : List α) : Prop :=
  Relation.ReflTransGen (CancelStep up rooted) l r ∧ ∀ m, ¬ CancelStep up rooted r m

/-- The stacks that occur: those that lead up lie at the bottom, and in a rooted path there are
none. -/
def IsNormal (up : α) (rooted : Bool) (stack : List α) : Prop :=
  ∃ names k, stack = names ++ replicate k up ∧ up ∉ names ∧ (rooted = true → k = 0)

theorem isNormal_nil : IsNormal up rooted [] := ⟨[], 0, rfl, not_mem_nil, fun _ => rfl⟩

theorem IsNormal.not_step {stack : List α} (h : IsNormal up rooted stack) (m : List α) :
    ¬ CancelStep up rooted stack.reverse m := by
  obtain ⟨names, k, rfl, hnam, hrooted⟩ := h
  generalize hl : (names ++ replicate k up).reverse = l
  rw [reverse_append, reverse_replicate] at hl
  rintro (@⟨l, m, x, hx⟩ | ⟨hroot⟩)
  · -- The element in front of `up` is in the part that leads up, hence `up` itself.
    rcases append_eq_append_iff.mp hl with ⟨a, rfl, ha⟩ | ⟨a, hk, ha⟩
    · have hup : up ∈ names.reverse := by
        rw [ha]
        simp
      exact hnam (mem_reverse.mp hup)
    · cases a with
      | nil =>
        have hup : up ∈ names.reverse := by
          rw [← nil_append names.reverse, ← ha]
          simp
        exact hnam (mem_reverse.mp hup)
      | cons y a =>
        obtain ⟨rfl, -⟩ := List.cons.inj ha
        refine hx (eq_of_mem_replicate (n := k) ?_)
        rw [hk]
        simp
  · obtain rfl := hrooted hroot
    rw [replicate_zero, nil_append] at hl
    exact hnam (mem_reverse.mp (hl ▸ mem_cons_self))

section Stack

variable [DecidableEq α]

/-- An element on the stack, whose top is the last element. -/
def push (up : α) (rooted : Bool) (stack : List α) (x : α) : List α :=
  if x = up then
    match stack with
    | [] => if rooted then [] else [up]
    | top :: rest => if top = up then (if rooted then top :: rest else up :: top :: rest) else rest
  else x :: stack

/-- The resolution with a stack. -/
def resolve (up : α) (rooted : Bool) (l : List α) : List α := (l.foldl (push up rooted) []).reverse

variable {x : α}

theorem push_of_ne (hx : x ≠ up) (stack : List α) : push up rooted stack x = x :: stack := if_neg hx

theorem push_up_cons (hx : x ≠ up) (stack : List α) : push up rooted (x :: stack) up = stack := by
  rw [push, if_pos rfl]
  exact if_neg hx

theorem push_up_nil : push up rooted [] up = if rooted then [] else [up] := if_pos rfl

theorem CancelStep.resolve_eq {l m : List α} (h : CancelStep up rooted l m) :
    resolve up rooted l = resolve up rooted m := by
  cases h with
  | back hx =>
    rw [resolve, resolve, foldl_append, foldl_append, foldl_cons, foldl_cons,
      push_of_ne hx, push_up_cons hx]
  | root hroot =>
    rw [resolve, resolve, foldl_cons, push, if_pos rfl, hroot]
    rfl

variable {stack : List α}

theorem IsNormal.push (h : IsNormal up rooted stack) (x : α) :
    IsNormal up rooted (push up rooted stack x) := by
  obtain ⟨names, k, rfl, hnam, hroot⟩ := h
  by_cases hx : x = up
  swap
  · rw [push_of_ne hx]
    exact ⟨x :: names, k, rfl, by simp [hnam, Ne.symm hx], hroot⟩
  subst hx
  cases names with
  | cons y names =>
    have hy : y ≠ x := fun h => hnam (h ▸ mem_cons_self)
    rw [cons_append, push_up_cons hy]
    exact ⟨names, k, rfl, fun h => hnam (mem_cons_of_mem _ h), hroot⟩
  | nil =>
    cases hr : rooted with
    | true =>
      obtain rfl := hroot hr
      rw [replicate_zero, append_nil, push_up_nil, if_pos rfl]
      exact isNormal_nil
    | false =>
      refine ⟨[], k + 1, ?_, not_mem_nil, nofun⟩
      cases k <;> simp [LexicalPath.push, replicate_succ]

theorem IsNormal.foldl (h : IsNormal up rooted stack) (l : List α) :
    IsNormal up rooted (l.foldl (LexicalPath.push up rooted) stack) := by
  induction l generalizing stack with
  | nil => exact h
  | cons x l ih => exact ih (h.push x)

theorem reaches_foldl (h : IsNormal up rooted stack) (l : List α) :
    Relation.ReflTransGen (CancelStep up rooted) (stack.reverse ++ l)
      (l.foldl (push up rooted) stack).reverse := by
  induction l generalizing stack with
  | nil => rw [append_nil, foldl_nil]
  | cons x l ih =>
    rw [foldl_cons]
    have hnext := ih (h.push x)
    by_cases hx : x = up
    swap
    · rw [push_of_ne hx, reverse_cons, append_assoc, singleton_append] at hnext
      rwa [push_of_ne hx]
    subst hx
    cases stack with
    | nil =>
      rw [push_up_nil] at hnext ⊢
      by_cases hr : rooted = true
      · rw [if_pos hr] at hnext ⊢
        exact .head (.root hr) hnext
      · rwa [if_neg hr] at hnext ⊢
    | cons top rest =>
      by_cases htop : top = x
      · subst htop
        have hnot : rooted = false := by
          obtain ⟨names, k, hstack, hnam, hroot⟩ := h
          refine Bool.eq_false_iff.mpr fun hr => ?_
          obtain rfl := hroot hr
          rw [replicate_zero, append_nil] at hstack
          exact hnam (hstack ▸ mem_cons_self)
        have hpush : push top rooted (top :: rest) top = top :: top :: rest := by
          simp [push, hnot]
        rw [hpush] at hnext ⊢
        rwa [reverse_cons, append_assoc, singleton_append] at hnext
      · rw [push_up_cons htop] at hnext ⊢
        refine .head ?_ hnext
        rw [reverse_cons, append_assoc, singleton_append]
        exact .back htop

theorem resolve_eq_of_reaches {l r : List α}
    (h : Relation.ReflTransGen (CancelStep up rooted) l r) :
    resolve up rooted l = resolve up rooted r := by
  induction h with
  | refl => rfl
  | tail _ hstep ih => exact ih.trans hstep.resolve_eq

theorem resolution_iff {l r : List α} : Resolution up rooted l r ↔ r = resolve up rooted l := by
  have hreaches : ∀ l : List α, Relation.ReflTransGen (CancelStep up rooted) l
      (resolve up rooted l) := fun l => reaches_foldl isNormal_nil l
  constructor
  · rintro ⟨hsts, hnone⟩
    rw [resolve_eq_of_reaches hsts]
    rcases Relation.ReflTransGen.cases_head (hreaches r) with h | ⟨m, hstep, -⟩
    · exact h
    · exact absurd hstep (hnone m)
  · rintro rfl
    exact ⟨hreaches l, (isNormal_nil.foldl l).not_step⟩

variable {l : List α}

theorem mem_of_mem_resolve (h : x ∈ resolve up rooted l) : x ∈ l := by
  have hpush : ∀ (stack : List α) (y : α), ∀ z ∈ push up rooted stack y, z ∈ stack ∨ z = y := by
    intro stack y z hz
    by_cases hy : y = up
    · subst hy
      cases stack with
      | nil =>
        rw [push_up_nil] at hz
        split_ifs at hz <;> simp_all
      | cons top rest =>
        rw [push.eq_def, if_pos rfl] at hz
        simp only at hz
        split_ifs at hz <;> simp_all
    · rw [push_of_ne hy, mem_cons] at hz
      exact hz.symm
  have hfold : ∀ (l stack : List α), ∀ z ∈ l.foldl (push up rooted) stack, z ∈ stack ∨ z ∈ l := by
    intro l
    induction l with
    | nil => exact fun stack z hz => .inl hz
    | cons y l ih =>
      intro stack z hz
      rcases ih _ z hz with hz | hz
      · rcases hpush stack y z hz with hz | rfl
        · exact .inl hz
        · exact .inr mem_cons_self
      · exact .inr (mem_cons_of_mem _ hz)
  rw [resolve, mem_reverse] at h
  exact (hfold l [] x h).resolve_left not_mem_nil

omit [DecidableEq α] in
theorem IsNormal.of_cons (h : IsNormal up rooted (x :: stack)) : IsNormal up rooted stack := by
  obtain ⟨names, k, hstack, hnam, hroot⟩ := h
  cases names with
  | cons y names =>
    obtain ⟨-, rfl⟩ := List.cons.inj hstack
    exact ⟨names, k, rfl, fun h => hnam (mem_cons_of_mem _ h), hroot⟩
  | nil =>
    cases k with
    | zero => cases hstack
    | succ k =>
      obtain ⟨-, rfl⟩ := List.cons.inj hstack
      exact ⟨[], k, rfl, not_mem_nil, fun h => absurd (hroot h) (Nat.succ_ne_zero k)⟩

omit [DecidableEq α] in
theorem IsNormal.of_append {top stack : List α} (h : IsNormal up rooted (top ++ stack)) :
    IsNormal up rooted stack := by
  induction top with
  | nil => exact h
  | cons x top ih => exact ih h.of_cons

theorem IsNormal.resolve_eq (h : IsNormal up rooted l.reverse) : resolve up rooted l = l :=
  (resolution_iff.mp ⟨.refl, fun m hm => h.not_step m (by rwa [reverse_reverse])⟩).symm

theorem IsNormal.foldl_push (h : IsNormal up rooted l.reverse) :
    l.foldl (LexicalPath.push up rooted) [] = l.reverse := by
  have hres := h.resolve_eq
  rw [resolve] at hres
  rw [← reverse_reverse (l.foldl _ _), hres]

theorem foldl_replicate_up {names stack : List α} (hnam : up ∉ names) :
    (replicate names.length up).foldl (push up rooted) (names ++ stack) = stack := by
  induction names with
  | nil => rfl
  | cons x names ih =>
    obtain ⟨hx, hnam⟩ := not_or.mp (mt mem_cons.mpr hnam)
    rw [length_cons, replicate_succ, foldl_cons, cons_append, push_up_cons (Ne.symm hx), ih hnam]

theorem resolve_relative {l common names target : List α}
    (hl : resolve up rooted l = common ++ names) (hnam : up ∉ names)
    (htgt : IsNormal up rooted (common ++ target).reverse) :
    resolve up rooted (l ++ (replicate names.length up ++ target)) = common ++ target := by
  have hstack : l.foldl (push up rooted) [] = names.reverse ++ common.reverse := by
    rw [← reverse_append, ← hl, resolve, reverse_reverse]
  have hcommon : IsNormal up rooted common.reverse := by
    rw [reverse_append] at htgt
    exact htgt.of_append
  have hup : (replicate names.length up).foldl (push up rooted)
      (names.reverse ++ common.reverse) = common.reverse := by
    rw [← length_reverse]
    exact foldl_replicate_up fun h => hnam (mem_reverse.mp h)
  have hpush := htgt.foldl_push
  rw [foldl_append, hcommon.foldl_push] at hpush
  rw [resolve, foldl_append, foldl_append, hstack, hup, hpush, reverse_reverse]

theorem resolve_append {l m : List α} (hm : up ∉ m) :
    resolve up rooted (l ++ m) = resolve up rooted l ++ m := by
  have hfold : ∀ stack : List α, m.foldl (push up rooted) stack = m.reverse ++ stack := by
    induction m with
    | nil => exact fun _ => rfl
    | cons x m ih =>
      intro stack
      have hx : x ≠ up := fun h => hm (h ▸ mem_cons_self)
      rw [foldl_cons, push_of_ne hx, ih (fun h => hm (mem_cons_of_mem _ h)),
        reverse_cons, append_assoc, singleton_append]
  rw [resolve, resolve, foldl_append, hfold, reverse_append, reverse_reverse]

end Stack

end Grayscale.LexicalPath
