import Mathlib.Algebra.Order.Ring.Nat
import Mathlib.Data.List.Basic

/-!
# Spans of a text

A list of spans, in order and without overlaps, cuts a text into the parts between them; and a scan
that takes `width p` places at position `p` cuts the positions below a limit into segments.
-/

namespace Grayscale

open List

variable {α : Type}

/-- The elements from `start` to `stop`. -/
def slice (text : List α) (start stop : ℕ) : List α := (text.drop start).take (stop - start)

theorem length_slice {text : List α} {start stop : ℕ} (hstop : stop ≤ text.length) :
    (slice text start stop).length = stop - start := by
  rw [slice, length_take, length_drop]
  omega

variable (text : List α)

theorem slice_length (start : ℕ) : slice text start text.length = text.drop start := by
  rw [slice, ← length_drop, take_length]

theorem slice_append_slice {start middle stop : ℕ} (hmid : start ≤ middle)
    (hstop : middle ≤ stop) :
    slice text start middle ++ slice text middle stop = slice text start stop := by
  obtain ⟨k, rfl⟩ := Nat.exists_eq_add_of_le hmid
  obtain ⟨m, rfl⟩ := Nat.exists_eq_add_of_le hstop
  rw [slice, slice, slice, Nat.add_sub_cancel_left, Nat.add_sub_cancel_left, ← drop_drop,
    show start + k + m - start = k + m by omega, List.take_add]

/-- The spans are in order, from a place on, and end in the text. -/
def SpansWithin (length : ℕ) : ℕ → List (ℕ × ℕ) → Prop
  | place, [] => place ≤ length
  | place, (start, stop) :: spans => place ≤ start ∧ start ≤ stop ∧ SpansWithin length stop spans

theorem SpansWithin.le {length place : ℕ} {spans : List (ℕ × ℕ)}
    (h : SpansWithin length place spans) : place ≤ length := by
  induction spans generalizing place with
  | nil => exact h
  | cons span spans ih => exact (h.1.trans h.2.1).trans (ih h.2.2)

theorem SpansWithin.mono {length place before : ℕ} {spans : List (ℕ × ℕ)} (hle : before ≤ place)
    (h : SpansWithin length place spans) : SpansWithin length before spans := by
  cases spans with
  | nil => exact hle.trans h
  | cons span spans => exact ⟨hle.trans h.1, h.2⟩

theorem SpansWithin.filter {length place : ℕ} {spans : List (ℕ × ℕ)}
    (h : SpansWithin length place spans) (p : ℕ × ℕ → Bool) :
    SpansWithin length place (spans.filter p) := by
  induction spans generalizing place with
  | nil => exact h
  | cons span spans ih =>
    rw [filter_cons]
    split_ifs
    · exact ⟨h.1, h.2.1, ih h.2.2⟩
    · exact (ih h.2.2).mono (h.1.trans h.2.1)

def partsBetween (text : List α) : ℕ → List (ℕ × ℕ) → List (List α)
  | place, [] => [text.drop place]
  | place, (start, stop) :: spans => slice text place start :: partsBetween text stop spans

theorem partsBetween_ne_nil (place : ℕ) (spans : List (ℕ × ℕ)) :
    partsBetween text place spans ≠ [] := by
  cases spans with
  | nil => exact cons_ne_nil _ _
  | cons span spans => exact cons_ne_nil _ _

theorem length_partsBetween (place : ℕ) (spans : List (ℕ × ℕ)) :
    (partsBetween text place spans).length = spans.length + 1 := by
  induction spans generalizing place with
  | nil => rfl
  | cons span spans ih => rw [partsBetween, length_cons, ih, length_cons]

/-- The texts of two lists in turn. -/
def interleave : List (List α) → List (List α) → List α
  | part :: parts, between :: betweens => part ++ (between ++ interleave parts betweens)
  | parts, [] => parts.flatten
  | [], betweens => betweens.flatten

theorem interleave_partsBetween {place : ℕ} {spans : List (ℕ × ℕ)}
    (h : SpansWithin text.length place spans) : interleave (partsBetween text place spans)
      (spans.map fun span => slice text span.1 span.2) = text.drop place := by
  induction spans generalizing place with
  | nil => simp [partsBetween, interleave]
  | cons span spans ih =>
    have hle := h.2.2.le
    rw [partsBetween, map_cons, interleave, ih h.2.2, ← slice_length text span.2,
      slice_append_slice text h.2.1 hle, slice_append_slice text h.1 (h.2.1.trans hle), slice_length]

/-! ### Segments -/

section Segments

variable {limit : ℕ} {width : ℕ → ℕ}

/-- The positions at which the scan stands. -/
inductive ScanReaches (limit : ℕ) (width : ℕ → ℕ) : ℕ → Prop
  | zero : ScanReaches limit width 0
  | step {p : ℕ} (hp : ScanReaches limit width p) (hlimit : p < limit) :
      ScanReaches limit width (p + width p)

/-- The segment that starts at `p` contains `index`. -/
structure IsSegment (limit : ℕ) (width : ℕ → ℕ) (index p : ℕ) : Prop where
  /-- The scan stands at its start. -/
  reached : ScanReaches limit width p
  /-- It does not start behind the position. -/
  start_le : p ≤ index
  /-- It ends behind the position. -/
  lt_end : index < p + width p

theorem exists_isSegment (hwid : ∀ p < limit, 0 < width p) {index : ℕ} (hidx : index < limit) :
    ∃ p, IsSegment limit width index p := by
  induction index with
  | zero => exact ⟨0, .zero, Nat.le_refl 0, by have hpos := hwid 0 hidx; omega⟩
  | succ index ih =>
    obtain ⟨p, hp, hst, hend⟩ := ih (by omega)
    by_cases hin : index + 1 < p + width p
    · exact ⟨p, hp, by omega, hin⟩
    · -- the segment ends here, and the next one starts
      have hnext : p + width p = index + 1 := by omega
      have hpos := hwid (index + 1) hidx
      exact ⟨index + 1, hnext ▸ hp.step (by omega), le_rfl, by omega⟩

theorem ScanReaches.le_of_lt (hwid : ∀ p < limit, 0 < width p) {p q : ℕ}
    (hp : ScanReaches limit width p) (hq : ScanReaches limit width q) (h : p < q) :
    p + width p ≤ q := by
  induction q using Nat.strong_induction_on generalizing p with
  | _ q ih =>
    cases hq with
    | zero => omega
    | @step r hr hlimit =>
      have hpos := hwid r hlimit
      rcases Nat.lt_trichotomy p r with hlt | rfl | hgt
      · exact Nat.le_trans (ih r (by omega) hp hr hlt) (Nat.le_add_right _ _)
      · exact le_rfl
      · -- then the scan would stand at `p` inside of the segment of `r`
        have hle := ih p h hr hp hgt
        omega

end Segments

end Grayscale
