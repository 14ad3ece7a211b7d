import Mathlib.Algebra.Order.Group.Nat
import Mathlib.Data.Finset.Card
import Mathlib.Data.Nat.Find

/-!
# First occurrences by a hash table

The numbers below a bound are visited in order, and a number is kept if no earlier one is equal to
it. A table with linear probing holds the numbers that are kept, by a hash.
-/

namespace Grayscale

open List Function

/-! ### First occurrences -/

/-- The numbers below a bound that no earlier number is equal to. -/
def firstIndices (isEqual : ℕ → ℕ → Bool) (n : ℕ) : List ℕ :=
  (List.range n).filter fun i => !(List.range i).any fun j => isEqual j i

section Firsts

variable {isEqual : ℕ → ℕ → Bool}

theorem mem_firsts {n i : ℕ} :
    i ∈ firstIndices isEqual n ↔ i < n ∧ ∀ j < i, isEqual j i = false := by
  rw [firstIndices, mem_filter, mem_range, Bool.not_eq_true', any_eq_false]
  simp only [mem_range, Bool.not_eq_true]

theorem firsts_succ (n : ℕ) : firstIndices isEqual (n + 1) = firstIndices isEqual n ++
      if (List.range n).any fun j => isEqual j n then [] else [n] := by
  rw [firstIndices, range_succ, filter_append, filter_singleton]
  cases (List.range n).any fun j => isEqual j n <;> rfl

theorem length_firsts_le (n : ℕ) : (firstIndices isEqual n).length ≤ n :=
  (length_filter_le ..).trans (length_range).le

theorem any_firstIndices_iff {i : ℕ}
    (htrans : ∀ j k, j < i → k < i → isEqual j k = true → isEqual k i = true → isEqual j i = true) :
    (∃ j ∈ firstIndices isEqual i, isEqual j i = true) ↔ ∃ j < i, isEqual j i = true := by
  refine ⟨fun ⟨j, hj, heq⟩ => ⟨j, (mem_firsts.mp hj).1, heq⟩, fun hex => ?_⟩
  classical
  obtain ⟨hlt, heq⟩ := Nat.find_spec hex
  refine ⟨Nat.find hex, mem_firsts.mpr ⟨hlt, fun k hk => ?_⟩, heq⟩
  by_contra hne
  -- a number that the least one is equal to would be less
  exact Nat.find_min hex hk ⟨hk.trans hlt, htrans _ _ (hk.trans hlt) hlt (by simpa using hne) heq⟩

end Firsts

/-! ### The table -/

/-- The slot where a probe ends, and whether it holds a match; `none` when the fuel is used up. -/
def probeFrom (table : ℕ → Option ℕ) (isMatch : ℕ → Bool) (mask : ℕ) : ℕ → ℕ → Option (ℕ × Bool)
  | 0, _ => none
  | fuel + 1, slot =>
    match table slot with
    | none => some (slot, false)
    | some j =>
      if isMatch j then some (slot, true)
      else probeFrom table isMatch mask fuel ((slot + 1) &&& mask)

/-- The table holds the numbers that are listed. Each one is in a slot that is reached from the
first slot of its hash. -/
structure HoldsFirsts (table : ℕ → Option ℕ) (k : ℕ) (hash : ℕ → ℕ) (kept : List ℕ) : Prop where
  reached : ∀ j ∈ kept, ∃ distance, table ((hash j + distance) % 2 ^ k) = some j ∧
    ∀ d < distance, table ((hash j + d) % 2 ^ k) ≠ none
  mem_kept : ∀ slot j, table slot = some j → j ∈ kept
  card_le : ((Finset.range (2 ^ k)).filter fun slot => table slot ≠ none).card ≤ kept.length

theorem HoldsFirsts.empty (k : ℕ) (hash : ℕ → ℕ) : HoldsFirsts (fun _ => none) k hash [] where
  reached j hj := by cases hj
  mem_kept slot j h := by cases h
  card_le := by simp

section Table

variable {table : ℕ → Option ℕ} {k : ℕ} {hash : ℕ → ℕ} {kept : List ℕ}
  (h : HoldsFirsts table k hash kept)

include h

theorem HoldsFirsts.exists_empty (hroom : kept.length < 2 ^ k) :
    ∃ slot < 2 ^ k, table slot = none := by
  by_contra hfull
  have hall : (Finset.range (2 ^ k)).filter (fun slot => table slot ≠ none) =
      Finset.range (2 ^ k) := Finset.filter_true_of_mem fun slot hslot hnone =>
      hfull ⟨slot, Finset.mem_range.mp hslot, hnone⟩
  have hcard := h.card_le
  rw [hall, Finset.card_range] at hcard
  omega

theorem HoldsFirsts.exists_distance (hroom : kept.length < 2 ^ k) (first : ℕ) :
    ∃ distance < 2 ^ k, table ((first + distance) % 2 ^ k) = none ∧
      ∀ d < distance, table ((first + d) % 2 ^ k) ≠ none := by
  obtain ⟨slot, hslot, hnone⟩ := h.exists_empty hroom
  have hpos := Nat.two_pow_pos k
  have hfst := Nat.mod_lt first hpos
  have hex : ∃ distance, table ((first + distance) % 2 ^ k) = none := by
    refine ⟨slot + 2 ^ k - first % 2 ^ k, ?_⟩
    have hspl := Nat.div_add_mod first (2 ^ k)
    rw [show first + (slot + 2 ^ k - first % 2 ^ k) = slot + 2 ^ k * (first / 2 ^ k + 1) by
      rw [Nat.mul_add]; omega, Nat.add_mul_mod_self_left, Nat.mod_eq_of_lt hslot]
    exact hnone
  classical
  refine ⟨Nat.find hex, ?_, Nat.find_spec hex, fun d hd => Nat.find_min hex hd⟩
  -- a distance of a whole turn leads to the slot of a shorter one
  by_contra hge
  refine Nat.find_min hex (Nat.sub_lt_self hpos (Nat.not_lt.mp hge)) ?_
  rw [← Nat.add_sub_assoc (Nat.not_lt.mp hge), ← Nat.mod_eq_sub_mod (by omega)]
  exact Nat.find_spec hex

omit h in
/-- A probe from a distance on ends at a match, or at the first empty slot after numbers that do not
match. -/
theorem exists_probeFrom {first distance : ℕ} (isMatch : ℕ → Bool)
    (hemp : table ((first + distance) % 2 ^ k) = none)
    (hfull : ∀ d < distance, table ((first + d) % 2 ^ k) ≠ none) :
    ∀ passed ≤ distance, ∀ fuel > distance - passed,
      (∃ slot j, table slot = some j ∧ isMatch j = true ∧
        probeFrom table isMatch (2 ^ k - 1) fuel ((first + passed) % 2 ^ k) = some (slot, true)) ∨
      ((∀ d, passed ≤ d → d < distance → ∀ j, table ((first + d) % 2 ^ k) = some j →
          isMatch j = false) ∧ probeFrom table isMatch (2 ^ k - 1) fuel ((first + passed) % 2 ^ k) =
          some ((first + distance) % 2 ^ k, false)) := by
  intro passed hle fuel hfuel
  induction fuel generalizing passed with
  | zero => omega
  | succ fuel ih =>
    rw [probeFrom]
    rcases Nat.lt_or_eq_of_le hle with hlt | rfl
    · obtain ⟨j, hj⟩ := Option.ne_none_iff_exists'.mp (hfull passed hlt)
      have hnext : ((first + passed) % 2 ^ k + 1) &&& (2 ^ k - 1) =
          (first + (passed + 1)) % 2 ^ k := by
        rw [Nat.and_two_pow_sub_one_eq_mod, Nat.mod_add_mod, Nat.add_assoc]
      rw [hj]
      dsimp only
      by_cases hmat : isMatch j = true
      · rw [if_pos hmat]
        exact .inl ⟨_, j, hj, hmat, rfl⟩
      · rw [if_neg hmat, hnext]
        refine (ih (passed + 1) hlt (by omega)).imp_right fun ⟨hoth, hprobe⟩ => ⟨?_, hprobe⟩
        intro d hd hlt' j' hj'
        rcases Nat.lt_or_eq_of_le hd with hd | rfl
        · exact hoth d hd hlt' j' hj'
        · obtain rfl := Option.some.inj (hj.symm.trans hj')
          exact Bool.eq_false_iff.mpr hmat
    · rw [hemp]
      exact .inr ⟨fun d hd hd' => by omega, rfl⟩

theorem HoldsFirsts.exists_probe (hroom : kept.length < 2 ^ k) {isMatch : ℕ → Bool} {i : ℕ}
    (hhash : ∀ j ∈ kept, isMatch j = true → hash j = hash i) {fuel : ℕ} (hfuel : 2 ^ k ≤ fuel) :
    (∃ slot, probeFrom table isMatch (2 ^ k - 1) fuel (hash i % 2 ^ k) = some (slot, true) ∧
      ∃ j ∈ kept, isMatch j = true) ∨
    ∃ distance, probeFrom table isMatch (2 ^ k - 1) fuel (hash i % 2 ^ k) =
        some ((hash i + distance) % 2 ^ k, false) ∧ table ((hash i + distance) % 2 ^ k) = none ∧
      (∀ d < distance, table ((hash i + d) % 2 ^ k) ≠ none) ∧ ∀ j ∈ kept, isMatch j = false := by
  obtain ⟨distance, hlt, hemp, hfull⟩ := h.exists_distance hroom (hash i)
  rcases exists_probeFrom isMatch hemp hfull 0 (Nat.zero_le _) fuel (by omega) with
    ⟨slot, j, hj, hmat, hprobe⟩ | ⟨hoth, hprobe⟩
  · exact .inl ⟨slot, hprobe, j, h.mem_kept _ _ hj, hmat⟩
  · refine .inr ⟨distance, hprobe, hemp, hfull, fun j hj => ?_⟩
    by_contra hmat
    rw [Bool.not_eq_false] at hmat
    obtain ⟨d, hd, hbef⟩ := h.reached j hj
    rw [hhash j hj hmat] at hd hbef
    -- the slot of the match is reached before the empty one
    have hle : d ≤ distance := Nat.le_of_not_lt fun hlt => hbef distance hlt hemp
    have hne : d ≠ distance := fun heq => by
      rw [heq, hemp] at hd
      cases hd
    rw [hoth d (Nat.zero_le _) (by omega) j hd] at hmat
    cases hmat

theorem HoldsFirsts.insert {i distance : ℕ} (hemp : table ((hash i + distance) % 2 ^ k) = none)
    (hfull : ∀ d < distance, table ((hash i + d) % 2 ^ k) ≠ none) :
    HoldsFirsts (update table ((hash i + distance) % 2 ^ k) (some i)) k hash
      (kept ++ [i]) := by
  have hkeep : ∀ slot, table slot ≠ none →
      update table ((hash i + distance) % 2 ^ k) (some i) slot = table slot := by
    intro slot hslot
    refine update_of_ne (fun heq => ?_) _ _
    rw [heq] at hslot
    exact hslot hemp
  constructor
  · intro j hj
    rcases mem_append.mp hj with hj | hj
    · obtain ⟨d, hd, hbef⟩ := h.reached j hj
      refine ⟨d, ?_, fun d' hd' => ?_⟩
      · rw [hkeep _ (by rw [hd]; exact Option.some_ne_none j), hd]
      · rw [hkeep _ (hbef d' hd')]
        exact hbef d' hd'
    · obtain rfl := mem_singleton.mp hj
      refine ⟨distance, update_self .., fun d hd => ?_⟩
      rw [hkeep _ (hfull d hd)]
      exact hfull d hd
  · intro slot j hslot
    rw [update_apply] at hslot
    split_ifs at hslot with heq
    · rw [← Option.some.inj hslot]
      exact mem_append_right _ mem_cons_self
    · exact mem_append_left _ (h.mem_kept slot j hslot)
  · rw [length_append, length_singleton]
    refine (Finset.card_le_card ?_).trans ((Finset.card_insert_le
      ((hash i + distance) % 2 ^ k) _).trans (Nat.succ_le_succ h.card_le))
    intro slot hslot
    rw [Finset.mem_filter] at hslot
    rw [Finset.mem_insert, Finset.mem_filter]
    by_cases heq : slot = (hash i + distance) % 2 ^ k
    · exact .inl heq
    · rw [update_of_ne heq] at hslot
      exact .inr hslot

end Table

end Grayscale
