import Mathlib.Data.List.Nodup

/-!
# Tables of interned entries

A table has one entry for each key. An entry is looked up by its key before it is appended, so that
its index stands for the key in every later table.
-/

namespace Grayscale

open List

section InternTable

variable {α κ : Type} (key : α → κ)

/-- No two entries have the same key. -/
def IsInterned (entries : List α) : Prop := (entries.map key).Nodup

variable {key} in
theorem IsInterned.index_eq_iff {entries later : List α} {a b : α} (h : IsInterned key later)
    (hext : entries <+: later) {i j : ℕ} (ha : entries[i]? = some a) (hb : later[j]? = some b) :
    i = j ↔ key a = key b := by
  have ha' : later[i]? = some a := by
    obtain ⟨l, rfl⟩ := hext
    obtain ⟨hlt, -⟩ := List.getElem?_eq_some_iff.mp ha
    rwa [getElem?_append_left hlt]
  constructor
  · rintro rfl
    rw [ha'] at hb
    rw [Option.some.inj hb]
  · intro hkey
    have hi : i < (later.map key).length := by
      rw [length_map]
      exact (List.getElem?_eq_some_iff.mp ha').1
    refine (getElem?_inj hi h).mp ?_
    rw [getElem?_map, getElem?_map, ha', hb, Option.map_some, Option.map_some, hkey]

variable [DecidableEq κ]

/-- The index of the entry with the key of `a`, which is appended if there is none. -/
def intern (entries : List α) (a : α) : List α × ℕ :=
  match entries.findIdx? fun b => decide (key b = key a) with
  | some index => (entries, index)
  | none => (entries ++ [a], entries.length)

variable {key} {entries : List α} {a b : α}

theorem prefix_intern (entries : List α) (a : α) : entries <+: (intern key entries a).1 := by
  unfold intern
  split
  · exact prefix_rfl
  · exact prefix_append entries [a]

theorem getElem?_intern (entries : List α) (a : α) :
    ∃ b, (intern key entries a).1[(intern key entries a).2]? = some b ∧ key b = key a ∧
      (b ∈ entries ∨ b = a) := by
  unfold intern
  split
  next index h =>
    obtain ⟨hlt, hkey, -⟩ := findIdx?_eq_some_iff_getElem.mp h
    exact ⟨entries[index], getElem?_eq_getElem hlt, of_decide_eq_true hkey, .inl (getElem_mem hlt)⟩
  next h => exact ⟨a, getElem?_concat_length, rfl, .inr rfl⟩

theorem mem_intern (h : b ∈ (intern key entries a).1) : b ∈ entries ∨ b = a := by
  unfold intern at h
  split at h
  · exact .inl h
  · rcases mem_append.mp h with h | h
    · exact .inl h
    · exact .inr (mem_singleton.mp h)

theorem IsInterned.intern (h : IsInterned key entries) (a : α) :
    IsInterned key (Grayscale.intern key entries a).1 := by
  unfold Grayscale.intern
  split
  · exact h
  next hnone =>
    rw [IsInterned, map_append, nodup_append]
    refine ⟨h, nodup_singleton _, fun k hk k' hk' heq => ?_⟩
    obtain ⟨c, hc, rfl⟩ := mem_map.mp hk
    have hne := findIdx?_eq_none_iff.mp hnone c hc
    rw [map_singleton, mem_singleton] at hk'
    exact of_decide_eq_false hne (heq.trans hk')

end InternTable

end Grayscale
