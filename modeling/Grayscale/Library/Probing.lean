import Mathlib.Data.List.Perm.Basic
import Mathlib.Data.List.Range
import Mathlib.Data.List.Rotate

/-!
# Linear probing with tombstones

A table of slots is probed along a list of slots. A removed entry leaves a tombstone, which a lookup
walks past and an insertion reuses.
-/

namespace Grayscale

open List

/-- A slot of a table. -/
inductive Slot (α : Type*)
  | empty
  | occupied (entry : α)
  | tombstone

/-- The slots of a table, from a first one on. -/
def probes (capacity first : ℕ) : List ℕ :=
  (List.range capacity).map fun i => (first + i) % capacity

theorem probes_eq_rotate (capacity first : ℕ) :
    probes capacity first = (List.range capacity).rotate first := by
  refine ext_getElem (by simp [probes]) fun i hi _ => ?_
  simp [probes, getElem_rotate, Nat.add_comm]

theorem mem_probes {capacity first slot : ℕ} : slot ∈ probes capacity first ↔ slot < capacity := by
  rw [probes_eq_rotate, mem_rotate, mem_range]

section Search

variable {α : Type*} (slots : ℕ → Slot α) (isMatch : α → Bool)

/-- The first slot with a match, before an empty slot. -/
def findIn : List ℕ → Option ℕ
  | [] => none
  | probe :: rest =>
    match slots probe with
    | .empty => none
    | .occupied entry => if isMatch entry then some probe else findIn rest
    | .tombstone => findIn rest

/-- Where an entry is put. -/
inductive Place
  | update (slot : ℕ)
  | insert (slot : ℕ)
  | nowhere
  deriving DecidableEq

/-- The place at the end of a search: the first tombstone, or else another slot. -/
def placeAt (firstTombstone other : Option ℕ) : Place :=
  match firstTombstone.or other with
  | some slot => .insert slot
  | none => .nowhere

/-- The place of an entry: a match before an empty slot is updated. Otherwise the first tombstone is
used, or the empty slot. -/
def placeIn : List ℕ → Option ℕ → Place
  | [], firstTombstone => placeAt firstTombstone none
  | probe :: rest, firstTombstone =>
    match slots probe with
    | .empty => placeAt firstTombstone (some probe)
    | .occupied entry => if isMatch entry then .update probe else placeIn rest firstTombstone
    | .tombstone => placeIn rest (firstTombstone.or (some probe))

/-- The slot is in the list, and no slot before it is empty. -/
def ReachedBy (l : List ℕ) (slot : ℕ) : Prop :=
  ∃ pre post, l = pre ++ slot :: post ∧ ∀ s ∈ pre, slots s ≠ .empty

variable {slots isMatch} {l : List ℕ} {slot : ℕ}

theorem ReachedBy.mem (h : ReachedBy slots l slot) : slot ∈ l := by
  obtain ⟨pre, post, rfl, -⟩ := h
  simp

theorem ReachedBy.mono {slots' : ℕ → Slot α} {l : List ℕ} {slot : ℕ} (h : ReachedBy slots l slot)
    (hslt : ∀ s, slots s ≠ .empty → slots' s ≠ .empty) : ReachedBy slots' l slot := by
  obtain ⟨pre, post, hl, hpre⟩ := h
  exact ⟨pre, post, hl, fun s hs => hslt s (hpre s hs)⟩

theorem findIn_sound (h : findIn slots isMatch l = some slot) :
    slot ∈ l ∧ ∃ entry, slots slot = .occupied entry ∧ isMatch entry = true := by
  induction l with
  | nil => simp [findIn] at h
  | cons probe rest ih =>
    rw [findIn] at h
    cases hprobe : slots probe with
    | empty => simp [hprobe] at h
    | tombstone =>
      rw [hprobe] at h
      exact ⟨mem_cons_of_mem _ (ih h).1, (ih h).2⟩
    | occupied entry =>
      rw [hprobe] at h
      simp only at h
      split_ifs at h with hmat
      · cases h
        exact ⟨mem_cons_self, entry, hprobe, hmat⟩
      · exact ⟨mem_cons_of_mem _ (ih h).1, (ih h).2⟩

theorem findIn_of_reachedBy {entry : α} (h : ReachedBy slots l slot)
    (hslot : slots slot = .occupied entry) (hmat : isMatch entry = true)
    (honly : ∀ s ∈ l, ∀ e, slots s = .occupied e → isMatch e = true → s = slot) :
    findIn slots isMatch l = some slot := by
  obtain ⟨pre, post, rfl, hpre⟩ := h
  induction pre with
  | nil => simp only [nil_append, findIn, hslot, hmat, if_true]
  | cons probe pre ih =>
    obtain ⟨hprobe, hpre⟩ := forall_mem_cons.mp hpre
    obtain ⟨hself, honly⟩ := forall_mem_cons.mp honly
    have hrest := ih hpre honly
    rw [cons_append, findIn]
    cases hs : slots probe with
    | empty => exact absurd hs hprobe
    | tombstone => exact hrest
    | occupied e =>
      simp only
      split_ifs with he
      · rw [hself e hs he]
      · exact hrest

theorem placeIn_of_reachedBy {entry : α} (h : ReachedBy slots l slot)
    (hslot : slots slot = .occupied entry) (hmat : isMatch entry = true)
    (honly : ∀ s ∈ l, ∀ e, slots s = .occupied e → isMatch e = true → s = slot)
    (firstTombstone : Option ℕ) : placeIn slots isMatch l firstTombstone = .update slot := by
  obtain ⟨pre, post, rfl, hpre⟩ := h
  induction pre generalizing firstTombstone with
  | nil => simp only [nil_append, placeIn, hslot, hmat, if_true]
  | cons probe pre ih =>
    obtain ⟨hprobe, hpre⟩ := forall_mem_cons.mp hpre
    obtain ⟨hself, honly⟩ := forall_mem_cons.mp honly
    rw [cons_append, placeIn]
    cases hs : slots probe with
    | empty => exact absurd hs hprobe
    | tombstone => exact ih _ hpre honly
    | occupied e =>
      simp only
      split_ifs with he
      · rw [hself e hs he]
      · exact ih _ hpre honly

theorem placeIn_of_tombstone (t : ℕ)
    (habsent : ∀ s ∈ l, ∀ e, slots s = .occupied e → isMatch e = false) :
    placeIn slots isMatch l (some t) = .insert t := by
  induction l with
  | nil => rfl
  | cons probe rest ih =>
    obtain ⟨hprobe, habsent⟩ := forall_mem_cons.mp habsent
    rw [placeIn]
    cases hs : slots probe with
    | empty => rfl
    | tombstone => exact ih habsent
    | occupied e =>
      simp only [hprobe e hs, Bool.false_eq_true, if_false]
      exact ih habsent

theorem placeIn_of_absent
    (habsent : ∀ s ∈ l, ∀ e, slots s = .occupied e → isMatch e = false) :
    (∃ slot, placeIn slots isMatch l none = .insert slot ∧ ReachedBy slots l slot ∧
      ∀ e, slots slot ≠ .occupied e) ∨ ∀ s ∈ l, ∃ e, slots s = .occupied e := by
  induction l with
  | nil => exact .inr (by simp)
  | cons probe rest ih =>
    obtain ⟨hprobe, habsent⟩ := forall_mem_cons.mp habsent
    have hfst : ReachedBy slots (probe :: rest) probe := ⟨[], rest, rfl, by simp⟩
    cases hs : slots probe with
    | empty =>
      refine .inl ⟨probe, ?_, hfst, fun e => by simp [hs]⟩
      simp only [placeIn, hs]
      rfl
    | tombstone =>
      refine .inl ⟨probe, ?_, hfst, fun e => by simp [hs]⟩
      simp only [placeIn, hs]
      exact placeIn_of_tombstone probe habsent
    | occupied e =>
      rcases ih habsent with ⟨slot, hplc, ⟨pre, post, hrest, hpre⟩, hfree⟩ | hfull
      · refine .inl ⟨slot, ?_, ⟨probe :: pre, post, by rw [hrest]; rfl, ?_⟩, hfree⟩
        · simp only [placeIn, hs, hprobe e hs, Bool.false_eq_true, if_false, hplc]
        · exact forall_mem_cons.mpr ⟨by simp [hs], hpre⟩
      · exact .inr (forall_mem_cons.mpr ⟨⟨e, hs⟩, hfull⟩)

end Search

end Grayscale
