import Mathlib.Algebra.Ring.Nat
import Mathlib.Data.List.GetD
import Mathlib.Data.Nat.Find

/-!
# Open addressing

An index over the entries of a list, by a hash of their keys: a power of two of slots, of which each
is empty or holds an entry's number, and linear probing. Nothing is ever removed, so that a lookup
finds the first entry of a key.
-/

namespace Grayscale

open List

def nextSlot (slots : List ℕ) (slot : ℕ) : ℕ := (slot + 1) &&& (slots.length - 1)

/-- Puts a value into the first empty slot, from a slot on. -/
def insertSlot (slots : List ℕ) (value : ℕ) : ℕ → ℕ → List ℕ
  | 0, _ => slots
  | fuel + 1, slot =>
    if slots.getD slot 0 = 0 then slots.set slot value
    else insertSlot slots value fuel (nextSlot slots slot)

/-- The first number that matches, from a slot on and before an empty slot. A slot holds one more
than a number. -/
def findSlot (slots : List ℕ) (isMatch : ℕ → Bool) : ℕ → ℕ → Option ℕ
  | 0, _ => none
  | fuel + 1, slot =>
    match slots.getD slot 0 with
    | 0 => none
    | i + 1 => if isMatch i then some i else findSlot slots isMatch fuel (nextSlot slots slot)

def slotAt (slots : List ℕ) (hash distance : ℕ) : ℕ := (hash + distance) % slots.length

/-- The slots of the entries whose hashes are listed. Each entry is in a slot that only earlier
entries keep from the first slot of its hash. -/
structure Indexed (slots : List ℕ) (hashes : List ℕ) : Prop where
  isPowerOfTwo : ∃ k, slots.length = 2 ^ k
  room : hashes.length < slots.length
  count_zero : slots.count 0 + hashes.length = slots.length
  slot_le : ∀ v ∈ slots, v ≤ hashes.length
  placed : ∀ i (h : i < hashes.length), ∃ distance < slots.length,
    slots.getD (slotAt slots hashes[i] distance) 0 = i + 1 ∧
      ∀ d < distance, ∃ j < i, slots.getD (slotAt slots hashes[i] d) 0 = j + 1

variable {slots : List ℕ}

theorem nextSlot_slotAt (h : ∃ k, slots.length = 2 ^ k) (hash distance : ℕ) :
    nextSlot slots (slotAt slots hash distance) = slotAt slots hash (distance + 1) := by
  obtain ⟨k, hk⟩ := h
  unfold nextSlot slotAt
  rw [hk, Nat.and_two_pow_sub_one_eq_mod, Nat.mod_add_mod, Nat.add_assoc]

theorem slotAt_lt (h : 0 < slots.length) (hash distance : ℕ) :
    slotAt slots hash distance < slots.length := Nat.mod_lt _ h

theorem getD_set_self {slot : ℕ} (h : slot < slots.length) (value : ℕ) :
    (slots.set slot value).getD slot 0 = value := by
  rw [getD_eq_getElem _ _ (by rwa [List.length_set]), getElem_set_self]

theorem getD_set_of_ne {slot other : ℕ} (h : slot ≠ other) (value : ℕ) :
    (slots.set slot value).getD other 0 = slots.getD other 0 := by
  rw [getD_eq_getElem?_getD, getD_eq_getElem?_getD, getElem?_set_ne h]

theorem slotAt_sub_length {hash distance : ℕ} (h : slots.length ≤ distance) :
    slotAt slots hash (distance - slots.length) = slotAt slots hash distance := by
  unfold slotAt
  rw [← Nat.add_sub_assoc h, ← Nat.mod_eq_sub_mod]
  omega

theorem slotAt_set (slots : List ℕ) (slot value hash distance : ℕ) :
    slotAt (slots.set slot value) hash distance = slotAt slots hash distance := by
  unfold slotAt
  rw [List.length_set]

theorem Indexed.replicate (k : ℕ) : Indexed (replicate (2 ^ k) 0) [] where
  isPowerOfTwo := ⟨k, length_replicate⟩
  room := by
    rw [length_replicate]
    exact Nat.two_pow_pos k
  count_zero := by
    rw [count_replicate_self, length_replicate]
    rfl
  slot_le := fun v hv => by
    rw [eq_of_mem_replicate hv]
    exact Nat.zero_le _
  placed := fun i h => (Nat.not_lt_zero i h).elim

section Indexed

variable {slots hashes : List ℕ} (h : Indexed slots hashes)

include h

theorem Indexed.exists_empty (hash : ℕ) :
    ∃ distance < slots.length, slots.getD (slotAt slots hash distance) 0 = 0 ∧
      ∀ d < distance, slots.getD (slotAt slots hash d) 0 ≠ 0 := by
  have hpos : 0 < slots.length := Nat.lt_of_le_of_lt (Nat.zero_le _) h.room
  have hcnt : 0 < slots.count 0 := by
    have := h.count_zero
    have := h.room
    omega
  obtain ⟨i, hi, hzero⟩ := mem_iff_getElem.mp (count_pos_iff.mp hcnt)
  have hex : ∃ distance, slots.getD (slotAt slots hash distance) 0 = 0 := by
    refine ⟨i + slots.length - hash % slots.length, ?_⟩
    have hslot : slotAt slots hash (i + slots.length - hash % slots.length) = i := by
      have hlt := Nat.mod_lt hash hpos
      have hspl := Nat.div_add_mod hash slots.length
      unfold slotAt
      rw [show hash + (i + slots.length - hash % slots.length) =
        i + slots.length * (hash / slots.length + 1) by rw [Nat.mul_add]; omega,
        Nat.add_mul_mod_self_left, Nat.mod_eq_of_lt hi]
    rw [hslot, getD_eq_getElem _ _ hi, hzero]
  classical
  refine ⟨Nat.find hex, ?_, Nat.find_spec hex, fun d hd => Nat.find_min hex hd⟩
  -- a distance of a whole turn leads to the slot of a shorter one
  by_contra hge
  have hspec := Nat.find_spec hex
  refine Nat.find_min hex (Nat.sub_lt_self hpos (Nat.not_lt.mp hge)) ?_
  rw [slotAt_sub_length (Nat.not_lt.mp hge), hspec]

theorem Indexed.insertSlot_eq (value hash : ℕ) {distance : ℕ}
    (hemp : slots.getD (slotAt slots hash distance) 0 = 0) :
    ∀ passed ≤ distance, (∀ d, passed ≤ d → d < distance → slots.getD (slotAt slots hash d) 0 ≠ 0) →
      ∀ fuel > distance - passed, insertSlot slots value fuel (slotAt slots hash passed) =
          slots.set (slotAt slots hash distance) value := by
  intro passed hle hfull fuel hfuel
  induction fuel generalizing passed with
  | zero => omega
  | succ fuel ih =>
    rw [insertSlot]
    rcases Nat.lt_or_eq_of_le hle with hlt | rfl
    · rw [if_neg (hfull passed le_rfl hlt), nextSlot_slotAt h.isPowerOfTwo]
      exact ih (passed + 1) hlt (fun d hd => hfull d (by omega)) (by omega)
    · rw [if_pos hemp]

variable {isMatch : ℕ → Bool}

theorem Indexed.slot_eq_some {hash i : ℕ} {distance : ℕ}
    (hslot : slots.getD (slotAt slots hash distance) 0 = i + 1) (hmat : isMatch i = true) :
    ∀ passed ≤ distance, (∀ d, passed ≤ d → d < distance →
        ∃ j, slots.getD (slotAt slots hash d) 0 = j + 1 ∧ isMatch j = false) →
      ∀ fuel > distance - passed,
        findSlot slots isMatch fuel (slotAt slots hash passed) = some i := by
  intro passed hle hfull fuel hfuel
  induction fuel generalizing passed with
  | zero => omega
  | succ fuel ih =>
    rw [findSlot]
    rcases Nat.lt_or_eq_of_le hle with hlt | rfl
    · obtain ⟨j, hj, hoth⟩ := hfull passed le_rfl hlt
      rw [hj]
      dsimp only
      rw [hoth, if_neg Bool.false_ne_true, nextSlot_slotAt h.isPowerOfTwo]
      exact ih (passed + 1) hlt (fun d hd => hfull d (by omega)) (by omega)
    · rw [hslot]
      dsimp only
      rw [if_pos hmat]

omit h in
theorem slot_isMatch {i : ℕ} : ∀ fuel slot, findSlot slots isMatch fuel slot = some i →
      isMatch i = true ∧ i + 1 ∈ slots := by
  intro fuel
  induction fuel with
  | zero => exact fun slot h => by cases h
  | succ fuel ih =>
    intro slot h
    rw [findSlot] at h
    cases hslot : slots.getD slot 0 with
    | zero =>
      rw [hslot] at h
      cases h
    | succ j =>
      rw [hslot] at h
      dsimp only at h
      split_ifs at h with hmat
      · cases h
        refine ⟨hmat, ?_⟩
        have hlt : slot < slots.length := by
          by_contra hge
          rw [getD_eq_default _ _ (Nat.not_lt.mp hge)] at hslot
          cases hslot
        rw [getD_eq_getElem _ _ hlt] at hslot
        rw [← hslot]
        exact getElem_mem hlt
      · exact ih _ h

theorem Indexed.slot_eq {hash : ℕ}
    (hhash : ∀ i (hi : i < hashes.length), isMatch i = true → hashes[i] = hash) :
    findSlot slots isMatch slots.length (slotAt slots hash 0) =
      (List.range hashes.length).find? isMatch := by
  cases hfst : (List.range hashes.length).find? isMatch with
  | none =>
    by_contra hne
    obtain ⟨i, hi⟩ := Option.ne_none_iff_exists'.mp hne
    obtain ⟨hmat, hmem⟩ := slot_isMatch _ _ hi
    have hlt : i < hashes.length := h.slot_le _ hmem
    have hnone := find?_eq_none.mp hfst i (mem_range.mpr hlt)
    exact hnone hmat
  | some i =>
    obtain ⟨hmat, hmem, hbef⟩ := find?_range_eq_some.mp hfst
    rw [mem_range] at hmem
    obtain ⟨distance, hdist, hslot, hearly⟩ := h.placed i hmem
    rw [hhash i hmem hmat] at hslot hearly
    refine h.slot_eq_some hslot hmat 0 (Nat.zero_le _) (fun d _ hd => ?_) _ (by omega)
    obtain ⟨j, hj, hslot⟩ := hearly d hd
    refine ⟨j, hslot, ?_⟩
    have := hbef j hj
    simpa using this

theorem Indexed.insertSlot (hash : ℕ) (hroom : hashes.length + 1 < slots.length) :
    Indexed (insertSlot slots (hashes.length + 1) slots.length (slotAt slots hash 0))
      (hashes ++ [hash]) := by
  have hpos : 0 < slots.length := Nat.lt_of_le_of_lt (Nat.zero_le _) h.room
  obtain ⟨distance, hdist, hemp, hfull⟩ := h.exists_empty hash
  rw [h.insertSlot_eq _ hash hemp 0 (Nat.zero_le _) (fun d _ hd => hfull d hd) _ (by omega)]
  have hslot := slotAt_lt hpos hash distance
  have hzero : slots[slotAt slots hash distance] = 0 := by
    rw [← hemp, getD_eq_getElem _ _ hslot]
  have hoth : ∀ {slot v : ℕ}, slots.getD slot 0 = v + 1 →
      (slots.set (slotAt slots hash distance) (hashes.length + 1)).getD slot 0 = v + 1 := by
    intro slot v hv
    have hne : slotAt slots hash distance ≠ slot := fun heq => by
      rw [← heq, hemp] at hv
      cases hv
    rw [getD_set_of_ne hne, hv]
  constructor
  · rw [List.length_set]
    exact h.isPowerOfTwo
  · rw [List.length_set, length_append]
    exact hroom
  · have hcnt := h.count_zero
    have hmem : 0 < slots.count 0 := count_pos_iff.mpr (mem_iff_getElem.mpr ⟨_, hslot, hzero⟩)
    rw [List.length_set, length_append, length_singleton, count_set hslot, hzero]
    rw [if_pos BEq.rfl, if_neg (by simp)]
    omega
  · intro v hv
    rw [length_append, length_singleton]
    rcases mem_or_eq_of_mem_set hv with hv | rfl
    · exact Nat.le_succ_of_le (h.slot_le v hv)
    · exact le_rfl
  · intro i hi
    rw [List.length_set]
    rw [length_append, length_singleton] at hi
    rcases Nat.lt_or_ge i hashes.length with hlt | hge
    · obtain ⟨d, hd, hat', hbef⟩ := h.placed i hlt
      rw [getElem_append_left hlt]
      refine ⟨d, hd, ?_, fun d' hd' => ?_⟩
      · rw [slotAt_set]
        exact hoth hat'
      · obtain ⟨j, hj, hslot'⟩ := hbef d' hd'
        refine ⟨j, hj, ?_⟩
        rw [slotAt_set]
        exact hoth hslot'
    · obtain rfl : i = hashes.length := by omega
      rw [getElem_concat_length rfl]
      refine ⟨distance, hdist, ?_, fun d hd => ?_⟩
      · rw [slotAt_set]
        exact getD_set_self hslot _
      · have hne := hfull d hd
        obtain ⟨j, hj⟩ := Nat.exists_eq_succ_of_ne_zero hne
        have hlt := slotAt_lt hpos hash d
        have hmem : slots.getD (slotAt slots hash d) 0 ∈ slots := by
          rw [getD_eq_getElem _ _ hlt]
          exact getElem_mem hlt
        have hle := h.slot_le _ hmem
        refine ⟨j, by omega, ?_⟩
        rw [slotAt_set]
        exact hoth hj

end Indexed

end Grayscale
