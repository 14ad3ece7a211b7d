import Mathlib.Algebra.Order.Group.Nat
import Mathlib.Data.List.Nodup
import Mathlib.Data.List.Pairwise
import Mathlib.Data.List.Perm.Subperm
import Mathlib.Data.Nat.Find

/-!
# Orders found in passes

A number of slots is emitted in passes: each pass goes over the slots from the first to the last,
and emits those that are ready, which are those whose needs are emitted already. What is left after
the passes is emitted at the end.
-/

namespace Grayscale.PassOrder

open List

/-! ### The passes -/

section Passes

variable (ready : List ℕ → ℕ → Bool) (total : ℕ)

def emitSlot (order : List ℕ) (slot : ℕ) : List ℕ :=
  if slot ∈ order then order else if ready order slot then order ++ [slot] else order

def emitPass (order : List ℕ) : List ℕ := (List.range total).foldl (emitSlot ready) order

/-- A number of passes, until everything is emitted. -/
def emitPasses : ℕ → List ℕ → List ℕ
  | 0, order => order
  | passes + 1, order =>
    if order.length < total then emitPasses passes (emitPass ready total order) else order

/-- The order of all slots. -/
def emitAll : List ℕ :=
  let order := emitPasses ready total total []
  order ++ (List.range total).filter (· ∉ order)

end Passes

/-! ### Chains -/

section Chains

variable (needs : ℕ → ℕ → Prop)

/-- A chain of needs from a slot, with `k` steps to a later slot. -/
inductive Chain : ℕ → ℕ → Prop
  | start (slot : ℕ) : Chain slot 0
  | earlier {slot need k : ℕ} (h : needs slot need) (hlt : need < slot) (hchain : Chain need k) :
    Chain slot k
  | later {slot need k : ℕ} (h : needs slot need) (hlt : slot < need) (hchain : Chain need k) :
    Chain slot (k + 1)

/-- A slot has shorter chains than another, or the same and the smaller place. -/
def Before (a b : ℕ) : Prop :=
  (∃ k, Chain needs b k ∧ ¬ Chain needs a k) ∨ (∀ k, Chain needs a k ↔ Chain needs b k) ∧ a < b

variable {needs}

theorem Chain.of_succ {slot k : ℕ} (h : Chain needs slot (k + 1)) : Chain needs slot k := by
  generalize hn : k + 1 = n at h
  induction h generalizing k with
  | start => cases hn
  | earlier h hlt _ ih => exact .earlier h hlt (ih hn)
  | @later slot need n h hlt hch ih =>
    have hk := Nat.succ.inj hn
    subst hk
    cases k with
    | zero => exact .start slot
    | succ k => exact .later h hlt (ih rfl)

theorem Chain.of_le {slot m n : ℕ} (h : Chain needs slot n) (hle : m ≤ n) : Chain needs slot m := by
  induction hle with
  | refl => exact h
  | step _ ih => exact ih h.of_succ

theorem Before.asymm {a b : ℕ} (hab : Before needs a b) (hba : Before needs b a) : False := by
  rcases hab with ⟨k, hb, ha⟩ | ⟨heq, hlt⟩
  · rcases hba with ⟨k', ha', hb'⟩ | ⟨heq, -⟩
    · rcases le_total k k' with hle | hle
      · exact ha (ha'.of_le hle)
      · exact hb' (hb.of_le hle)
    · exact ha ((heq k).mp hb)
  · rcases hba with ⟨k', ha', hb'⟩ | ⟨-, hlt'⟩
    · exact hb' ((heq k').mp ha')
    · exact absurd hlt (not_lt_of_gt hlt')

theorem Chain.exists_slots (hacyclic : ∀ a, ¬ Relation.TransGen needs a a) {slot k : ℕ}
    (h : Chain needs slot k) :
    ∃ l : List ℕ, l.length = k ∧ l.Nodup ∧ ∀ x ∈ l, Relation.TransGen needs slot x := by
  induction h with
  | start => exact ⟨[], rfl, nodup_nil, fun x hx => by cases hx⟩
  | earlier h _ _ ih =>
    obtain ⟨l, hlen, hnd, hl⟩ := ih
    exact ⟨l, hlen, hnd, fun x hx => .head h (hl x hx)⟩
  | @later slot need k h _ _ ih =>
    obtain ⟨l, hlen, hnd, hl⟩ := ih
    refine ⟨need :: l, by rw [length_cons, hlen], ?_, fun x hx => ?_⟩
    · exact nodup_cons.mpr ⟨fun hmem => hacyclic need (hl need hmem), hnd⟩
    · rcases mem_cons.mp hx with rfl | hx
      · exact .single h
      · exact .head h (hl x hx)

theorem not_chain_total (hacyclic : ∀ a, ¬ Relation.TransGen needs a a) {total : ℕ}
    (hneeds : ∀ {a b}, needs a b → b < total) {slot : ℕ} (hslot : slot < total) :
    ¬ Chain needs slot total := by
  intro h
  obtain ⟨l, hlen, hnd, hl⟩ := h.exists_slots hacyclic
  have hlt : ∀ x ∈ l, x < total := fun x hx => by
    obtain ⟨y, -, hy⟩ := Relation.TransGen.tail'_iff.mp (hl x hx)
    exact hneeds hy
  have hcons : (slot :: l).Nodup := nodup_cons.mpr ⟨fun hmem => hacyclic slot (hl slot hmem), hnd⟩
  have hsub : slot :: l ⊆ List.range total := fun x hx => by
    rcases mem_cons.mp hx with rfl | hx
    · exact mem_range.mpr hslot
    · exact mem_range.mpr (hlt x hx)
  have hle := (hcons.subperm hsub).length_le
  rw [length_cons, length_range, hlen] at hle
  exact absurd hle (Nat.not_succ_le_self total)

theorem before_of_needs (hacyclic : ∀ a, ¬ Relation.TransGen needs a a) {total : ℕ}
    (hneeds : ∀ {a b}, needs a b → b < total) {a b : ℕ} (h : needs b a) : Before needs a b := by
  rcases lt_trichotomy a b with hlt | rfl | hlt
  · by_cases hsame : ∀ k, Chain needs a k ↔ Chain needs b k
    · exact .inr ⟨hsame, hlt⟩
    · obtain ⟨k, hk⟩ := not_forall.mp hsame
      by_cases ha : Chain needs a k
      · exact absurd (iff_of_true ha (.earlier h hlt ha)) hk
      · exact .inl ⟨k, by_contra fun hb => hk (iff_of_false ha hb), ha⟩
  · exact absurd (.single h) (hacyclic a)
  · -- the least chain that the need has not is one that the slot has
    have hex : ∃ k, ¬ Chain needs a k := ⟨total, not_chain_total hacyclic hneeds (hneeds h)⟩
    classical
    have hfind := Nat.find_spec hex
    cases hn : Nat.find hex with
    | zero => exact absurd (.start a) (hn ▸ hfind)
    | succ k =>
      have hk : Chain needs a k := not_not.mp (Nat.find_min hex (hn ▸ Nat.lt_succ_self k))
      exact .inl ⟨k + 1, .later h hlt hk, hn ▸ hfind⟩

end Chains

/-! ### What is emitted -/

section Emitted

variable {needs : ℕ → ℕ → Prop} {ready : List ℕ → ℕ → Bool} {total : ℕ}

structure Emitted (needs : ℕ → ℕ → Prop) (total pass slot : ℕ) (order : List ℕ) : Prop where
  nodup : order.Nodup
  lt : ∀ x ∈ order, x < total
  mem_iff : ∀ x < total, x ∈ order ↔ ¬ Chain needs x (if x < slot then pass + 1 else pass)
  sorted : order.Pairwise (Before needs)

/-- A slot is ready if its needs are emitted. -/
def ReadyFor (needs : ℕ → ℕ → Prop) (total : ℕ) (ready : List ℕ → ℕ → Bool) : Prop :=
  ∀ order slot, slot < total →
    (ready order slot = true ↔ ∀ need, needs slot need → need ≠ slot → need ∈ order)

theorem Emitted.nil : Emitted needs total 0 0 [] where
  nodup := nodup_nil
  lt x hx := by cases hx
  mem_iff x _ := iff_of_false not_mem_nil fun h => h (by simpa using .start x)
  sorted := List.Pairwise.nil

theorem Emitted.ready_iff (hready : ReadyFor needs total ready)
    (hneeds : ∀ {a b}, needs a b → b < total) {pass slot : ℕ} {order : List ℕ}
    (h : Emitted needs total pass slot order) (hslot : slot < total) :
    ready order slot = true ↔ ¬ Chain needs slot (pass + 1) := by
  rw [hready order slot hslot]
  constructor
  · intro hall hch
    generalize hk : pass + 1 = k at hch
    cases hch with
    | start => cases hk
    | @earlier _ need _ hneed hlt hch =>
      have hmem := (h.mem_iff need (hneeds hneed)).mp (hall need hneed hlt.ne)
      rw [if_pos hlt, hk] at hmem
      exact hmem hch
    | @later _ need n hneed hlt hch =>
      have hmem := (h.mem_iff need (hneeds hneed)).mp (hall need hneed hlt.ne')
      rw [if_neg (not_lt_of_gt hlt), Nat.succ.inj hk] at hmem
      exact hmem hch
  · intro hch need hneed hne
    refine (h.mem_iff need (hneeds hneed)).mpr fun hneedChain => hch ?_
    rcases lt_or_gt_of_ne hne with hlt | hlt
    · rw [if_pos hlt] at hneedChain
      exact .earlier hneed hlt hneedChain
    · rw [if_neg (not_lt_of_gt hlt)] at hneedChain
      exact .later hneed hlt hneedChain

theorem Emitted.slot (hready : ReadyFor needs total ready)
    (hneeds : ∀ {a b}, needs a b → b < total) {pass slot : ℕ} {order : List ℕ}
    (h : Emitted needs total pass slot order) (hslot : slot < total) :
    Emitted needs total pass (slot + 1) (emitSlot ready order slot) := by
  have hself := h.mem_iff slot hslot
  rw [if_neg (lt_irrefl slot)] at hself
  -- only the slot itself is seen otherwise than before
  have hoth : ∀ x, x ≠ slot → ((if x < slot + 1 then pass + 1 else pass) =
      if x < slot then pass + 1 else pass) := fun x hx => by
    split_ifs <;> omega
  rw [emitSlot]
  by_cases hmem : slot ∈ order
  · rw [if_pos hmem]
    refine ⟨h.nodup, h.lt, fun x hx => ?_, h.sorted⟩
    by_cases hxs : x = slot
    · subst hxs
      rw [if_pos (Nat.lt_succ_self x)]
      exact iff_of_true hmem fun hch => hself.mp hmem hch.of_succ
    · rw [hoth x hxs]
      exact h.mem_iff x hx
  · have hpass : Chain needs slot pass := by_contra fun hno => hmem (hself.mpr hno)
    rw [if_neg hmem]
    by_cases hnow : ready order slot = true
    · have hlast := (h.ready_iff hready hneeds hslot).mp hnow
      rw [if_pos hnow]
      refine ⟨?_, ?_, fun x hx => ?_, ?_⟩
      · exact nodup_append.mpr ⟨h.nodup, nodup_singleton _, fun x hx y hy => by
          rw [mem_singleton.mp hy]
          rintro rfl
          exact hmem hx⟩
      · intro x hx
        rcases mem_append.mp hx with hx | hx
        · exact h.lt x hx
        · rw [mem_singleton.mp hx]
          exact hslot
      · by_cases hxs : x = slot
        · subst hxs
          rw [if_pos (Nat.lt_succ_self x)]
          exact iff_of_true (by simp) hlast
        · rw [hoth x hxs, mem_append, mem_singleton, or_iff_left hxs]
          exact h.mem_iff x hx
      · refine pairwise_append.mpr ⟨h.sorted, pairwise_singleton _ _, ?_⟩
        intro x hx y hy
        rw [mem_singleton.mp hy]
        have hx' := (h.mem_iff x (h.lt x hx)).mp hx
        by_cases hlt : x < slot
        · rw [if_pos hlt] at hx'
          by_cases hxpass : Chain needs x pass
          · refine .inr ⟨fun k => ?_, hlt⟩
            rcases Nat.lt_or_ge pass k with hk | hk
            · exact iff_of_false (fun hc => hx' (hc.of_le hk)) fun hc => hlast (hc.of_le hk)
            · exact iff_of_true (hxpass.of_le hk) (hpass.of_le hk)
          · exact .inl ⟨pass, hpass, hxpass⟩
        · rw [if_neg hlt] at hx'
          exact .inl ⟨pass, hpass, hx'⟩
    · have hlast := not_not.mp ((h.ready_iff hready hneeds hslot).not.mp hnow)
      rw [if_neg hnow]
      refine ⟨h.nodup, h.lt, fun x hx => ?_, h.sorted⟩
      by_cases hxs : x = slot
      · subst hxs
        rw [if_pos (Nat.lt_succ_self x)]
        exact iff_of_false hmem (not_not.mpr hlast)
      · rw [hoth x hxs]
        exact h.mem_iff x hx

theorem Emitted.pass (hready : ReadyFor needs total ready)
    (hneeds : ∀ {a b}, needs a b → b < total) {pass : ℕ} {order : List ℕ}
    (h : Emitted needs total pass 0 order) :
    Emitted needs total (pass + 1) 0 (emitPass ready total order) := by
  have hpre : ∀ n ≤ total,
      Emitted needs total pass n ((List.range n).foldl (emitSlot ready) order) := by
    intro n
    induction n with
    | zero => exact fun _ => h
    | succ n ih =>
      intro hn
      rw [range_succ, foldl_append]
      exact (ih (Nat.le_of_succ_le hn)).slot hready hneeds hn
  have hend := hpre total (le_refl total)
  refine ⟨hend.nodup, hend.lt, fun x hx => ?_, hend.sorted⟩
  have hmem := hend.mem_iff x hx
  rwa [if_pos hx] at hmem

theorem mem_of_length {order : List ℕ} (hnd : order.Nodup) (hlt : ∀ x ∈ order, x < total)
    (hlen : total ≤ order.length) {x : ℕ} (hx : x < total) : x ∈ order := by
  have hsub : order ⊆ List.range total := fun y hy => mem_range.mpr (hlt y hy)
  have hperm := (hnd.subperm hsub).perm_of_length_le (by rwa [length_range])
  exact hperm.mem_iff.mpr (mem_range.mpr hx)

theorem Emitted.passes (hready : ReadyFor needs total ready)
    (hneeds : ∀ {a b}, needs a b → b < total) (passes : ℕ) {pass : ℕ} {order : List ℕ}
    (h : Emitted needs total pass 0 order) :
    Emitted needs total (pass + passes) 0 (emitPasses ready total passes order) := by
  induction passes generalizing pass order with
  | zero => exact h
  | succ passes ih =>
    rw [emitPasses]
    by_cases hlen : order.length < total
    · rw [if_pos hlen, ← Nat.add_assoc, Nat.add_right_comm]
      exact ih (h.pass hready hneeds)
    · rw [if_neg hlen]
      refine ⟨h.nodup, h.lt, fun x hx => ?_, h.sorted⟩
      have hmem := mem_of_length h.nodup h.lt (not_lt.mp hlen) hx
      have hch := (h.mem_iff x hx).mp hmem
      rw [if_neg (Nat.not_lt_zero x)] at hch ⊢
      exact iff_of_true hmem fun hlong => hch (hlong.of_le (Nat.le_add_right _ _))

end Emitted

/-! ### The order -/

theorem sublist_or_sublist {l : List ℕ} {a b : ℕ} (ha : a ∈ l) (hb : b ∈ l) (hne : a ≠ b) :
    [a, b].Sublist l ∨ [b, a].Sublist l := by
  induction l with
  | nil => cases ha
  | cons x l ih =>
    rcases mem_cons.mp ha with hax | hal
    · have hbl : b ∈ l := (mem_cons.mp hb).resolve_left fun h => hne (hax.trans h.symm)
      exact .inl (hax ▸ (singleton_sublist.mpr hbl).cons_cons a)
    · rcases mem_cons.mp hb with hbx | hbl
      · exact .inr (hbx ▸ (singleton_sublist.mpr hal).cons_cons b)
      · exact (ih hal hbl).imp (·.cons _) (·.cons _)

theorem pairwise_idxOf {l : List ℕ} (h : l.Nodup) :
    l.Pairwise fun a b => l.idxOf a < l.idxOf b := by
  rw [pairwise_iff_getElem]
  intro i j hi hj hij
  rwa [h.idxOf_getElem i hi, h.idxOf_getElem j hj]

section Order

variable {needs : ℕ → ℕ → Prop} {ready : List ℕ → ℕ → Bool} {total : ℕ}
  (hready : ReadyFor needs total ready) (hneeds : ∀ {a b}, needs a b → b < total)
include hready hneeds

theorem emitted_emitPasses : Emitted needs total total 0 (emitPasses ready total total []) := by
  have h := Emitted.nil.passes hready hneeds total
  rwa [Nat.zero_add] at h

theorem nodup_emitAll : (emitAll ready total).Nodup := by
  have h := emitted_emitPasses hready hneeds
  refine nodup_append.mpr ⟨h.nodup, nodup_range.filter _, fun x hx y hy => ?_⟩
  rintro rfl
  have hnot := (mem_filter.mp hy).2
  exact of_decide_eq_true hnot hx

theorem mem_emitAll {x : ℕ} : x ∈ emitAll ready total ↔ x < total := by
  have h := emitted_emitPasses hready hneeds
  rw [emitAll, mem_append, mem_filter, mem_range, decide_eq_true_eq]
  constructor
  · rintro (hx | hx)
    · exact h.lt x hx
    · exact hx.1
  · intro hx
    by_cases hmem : x ∈ emitPasses ready total total []
    · exact .inl hmem
    · exact .inr ⟨hx, hmem⟩

variable (hacyclic : ∀ a, ¬ Relation.TransGen needs a a)
include hacyclic

theorem pairwise_emitAll : (emitAll ready total).Pairwise (Before needs) := by
  have h := emitted_emitPasses hready hneeds
  have hall : (List.range total).filter (· ∉ emitPasses ready total total []) = [] := by
    refine filter_eq_nil_iff.mpr fun x hx => ?_
    rw [mem_range] at hx
    have hmem := (h.mem_iff x hx).mpr (by
      rw [if_neg (Nat.not_lt_zero x)]
      exact not_chain_total hacyclic hneeds hx)
    simpa using hmem
  rw [emitAll, hall, append_nil]
  exact h.sorted

theorem sublist_emitAll_iff {a b : ℕ} (ha : a < total) (hb : b < total) :
    [a, b].Sublist (emitAll ready total) ↔ Before needs a b := by
  have hpair := pairwise_emitAll hready hneeds hacyclic
  constructor
  · exact fun h => pairwise_iff_forall_sublist.mp hpair h
  · intro h
    have hne : a ≠ b := by
      rintro rfl
      exact h.asymm h
    rcases sublist_or_sublist ((mem_emitAll hready hneeds).mpr ha)
      ((mem_emitAll hready hneeds).mpr hb) hne with hab | hba
    · exact hab
    · exact (h.asymm (pairwise_iff_forall_sublist.mp hpair hba)).elim

end Order

end Grayscale.PassOrder
