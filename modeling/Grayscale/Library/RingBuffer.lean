import Mathlib.Data.List.Basic

/-!
# Ring buffers

A buffer of fixed length whose values are those of the places from a first one on, going around.
-/

namespace Grayscale

variable {α : Type*} {buffer values : List α} {head : ℕ}

/-- The buffer holds the values at the places from `head` on, in their order. -/
structure Ring (buffer : List α) (head : ℕ) (values : List α) : Prop where
  head_lt : head < buffer.length
  length_le : values.length ≤ buffer.length
  getElem?_eq : ∀ k < values.length, buffer[(head + k) % buffer.length]? = values[k]?

namespace Ring

theorem nil (h : head < buffer.length) : Ring buffer head [] :=
  ⟨h, Nat.zero_le _, fun _ hk => absurd hk (Nat.not_lt_zero _)⟩

theorem place_ne {n j k : ℕ} (hjk : j < k) (hk : k < n) : (head + k) % n ≠ (head + j) % n := by
  intro h
  have hmod := Nat.sub_mod_eq_zero_of_mod_eq h
  rw [Nat.mod_eq_of_lt (by omega)] at hmod
  omega

theorem push (h : Ring buffer head values) (hroom : values.length < buffer.length) (v : α) :
    Ring (buffer.set ((head + values.length) % buffer.length) v) head (values ++ [v]) := by
  have hplc : (head + values.length) % buffer.length < buffer.length :=
    Nat.mod_lt _ (Nat.zero_lt_of_lt hroom)
  refine ⟨by rw [List.length_set]; exact h.head_lt, by simp; omega, fun k hk => ?_⟩
  rw [List.length_set]
  rw [List.length_append, List.length_singleton] at hk
  rcases Nat.lt_succ_iff_lt_or_eq.mp hk with hlt | rfl
  · rw [List.getElem?_set_ne (place_ne hlt hroom), h.getElem?_eq k hlt,
      List.getElem?_append_left hlt]
  · rw [List.getElem?_set_self hplc, List.getElem?_append_right (Nat.le_refl _), Nat.sub_self]
    rfl

theorem pop {v : α} (h : Ring buffer head (v :: values)) :
    buffer[head]? = some v ∧ Ring buffer ((head + 1) % buffer.length) values := by
  refine ⟨?_, Nat.mod_lt _ (Nat.zero_lt_of_lt h.head_lt), Nat.le_of_succ_le h.length_le,
    fun k hk => ?_⟩
  · have hfst := h.getElem?_eq 0 (Nat.succ_pos _)
    rwa [Nat.add_zero, Nat.mod_eq_of_lt h.head_lt] at hfst
  · rw [Nat.mod_add_mod, Nat.add_assoc, Nat.add_comm 1 k, h.getElem?_eq (k + 1) (Nat.succ_lt_succ hk),
      List.getElem?_cons_succ]

end Ring

end Grayscale
