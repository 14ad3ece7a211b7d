import Mathlib.Data.List.Nodup
import Mathlib.Data.List.Lookmap

/-!
# Maps in insertion order

A finite map as the list of its entries, in the order in which the keys came. An update keeps the
place of its key, and a key that comes back after its removal goes to the end.
-/

namespace Grayscale.Entries

open List

variable {K V : Type*}

def keys (l : List (K × V)) : List K := l.map Prod.fst

@[simp] theorem keys_nil : keys ([] : List (K × V)) = [] := rfl

@[simp] theorem keys_append (l l' : List (K × V)) : keys (l ++ l') = keys l ++ keys l' := map_append

@[simp] theorem keys_cons (e : K × V) (l : List (K × V)) : keys (e :: l) = e.1 :: keys l := rfl

variable [DecidableEq K]

/-- Set the value of a key: in place, or at the end. -/
def set (l : List (K × V)) (key : K) (value : V) : List (K × V) :=
  if key ∈ keys l then l.map fun e => if e.1 = key then (key, value) else e
  else l ++ [(key, value)]

def erase (l : List (K × V)) (key : K) : List (K × V) := l.filter fun e => e.1 ≠ key

def find (l : List (K × V)) (key : K) : Option V := (l.find? fun e => e.1 = key).map Prod.snd

theorem find_cons (e : K × V) (l : List (K × V)) (key : K) :
    find (e :: l) key = if e.1 = key then some e.2 else find l key := by
  by_cases h : e.1 = key <;> simp [find, h]

theorem find_append (l l' : List (K × V)) (key : K) :
    find (l ++ l') key = (find l key).or (find l' key) := by
  rw [find, find?_append, Option.map_or, find, find]

variable (l : List (K × V)) (key key' : K)

theorem find_map_update (value : V) :
    find (l.map fun e => if e.1 = key then (key, value) else e) key' =
      if key' = key then (find l key').map fun _ => value else find l key' := by
  induction l with
  | nil => simp [find]
  | cons e l ih =>
    rw [map_cons, find_cons, ih, find_cons]
    by_cases he : e.1 = key
    · by_cases hk : key' = key
      · simp [he, hk]
      · simp [he, hk, Ne.symm hk]
    · by_cases hk : key' = key
      · subst hk
        simp [he]
      · simp [he, hk]

theorem find_eq_none_iff {l : List (K × V)} {key : K} : find l key = none ↔ key ∉ keys l := by
  induction l with
  | nil => simp [find]
  | cons e l ih =>
    rw [find_cons, keys_cons, mem_cons, not_or]
    by_cases he : e.1 = key
    · simp [he]
    · simp [he, Ne.symm he, ih]

theorem find_set (value : V) :
    find (set l key value) key' = if key' = key then some value else find l key' := by
  rw [set]
  split_ifs with hmem hk hk
  · subst hk
    rw [find_map_update, if_pos rfl]
    obtain ⟨v, hv⟩ := Option.ne_none_iff_exists'.mp (find_eq_none_iff.not.mpr (not_not.mpr hmem))
    rw [hv, Option.map_some]
  · rw [find_map_update, if_neg hk]
  · subst hk
    rw [find_append, find_eq_none_iff.mpr hmem, find_cons, if_pos rfl, Option.none_or]
  · rw [find_append, find_cons, if_neg (Ne.symm hk)]
    exact Option.or_none

theorem find_erase : find (erase l key) key' = if key' = key then none else find l key' := by
  induction l with
  | nil => simp [erase, find]
  | cons e l ih =>
    rw [erase, filter_cons, find_cons, ← erase]
    by_cases he : e.1 = key
    · subst he
      by_cases hk : key' = e.1
      · rw [if_pos hk] at ih ⊢
        simpa using ih
      · simp [hk, Ne.symm hk, ih]
    · by_cases hk : key' = key
      · subst hk
        simp [he, find_cons, ih]
      · simp [he, hk, find_cons, ih]

theorem keys_map_update (key : K) (value : V) :
    keys (l.map fun e => if e.1 = key then (key, value) else e) = keys l := by
  rw [keys, map_map]
  refine map_congr_left fun e _ => ?_
  by_cases h : e.1 = key <;> simp [h]

theorem length_set (key : K) (value : V) :
    (set l key value).length = if key ∈ keys l then l.length else l.length + 1 := by
  rw [set]
  split_ifs
  · exact length_map _
  · rw [length_append, length_singleton]

theorem length_erase {l : List (K × V)} (h : (keys l).Nodup) {key : K} (hkey : key ∈ keys l) :
    (erase l key).length + 1 = l.length := by
  induction l with
  | nil => simp at hkey
  | cons e l ih =>
    rw [keys_cons, nodup_cons] at h
    rw [erase, filter_cons, ← erase]
    by_cases he : e.1 = key
    · subst he
      have hrest : erase l e.1 = l := filter_eq_self.mpr fun e' he' =>
        decide_eq_true fun heq => h.1 (heq ▸ mem_map_of_mem he')
      simp [hrest]
    · have hmem : key ∈ keys l := (mem_cons.mp hkey).resolve_left (Ne.symm he)
      rw [if_pos (decide_eq_true he), length_cons, ih h.2 hmem, length_cons]

theorem foldl_set_of_nodup (l l' : List (K × V)) (h : (keys (l ++ l')).Nodup) :
    l'.foldl (fun m e => set m e.1 e.2) l = l ++ l' := by
  induction l' generalizing l with
  | nil => rw [foldl_nil, append_nil]
  | cons e l' ih =>
    have hnew : e.1 ∉ keys l := by
      rw [keys_append, keys_cons] at h
      exact fun hmem => (nodup_append.mp h).2.2 e.1 hmem e.1 mem_cons_self rfl
    have hset : set l e.1 e.2 = l ++ [e] := if_neg hnew
    rw [foldl_cons, hset, ih (l ++ [e]) (by rwa [append_assoc]), append_assoc]
    rfl

theorem find_eq_some_iff {l : List (K × V)} (h : (keys l).Nodup) {key : K} {value : V} :
    find l key = some value ↔ (key, value) ∈ l := by
  induction l with
  | nil => simp [find]
  | cons e l ih =>
    rw [keys_cons, nodup_cons] at h
    rw [find_cons, mem_cons]
    by_cases he : e.1 = key
    · subst he
      have hnot : (e.1, value) ∉ l := fun hmem =>
        h.1 (mem_map.mpr ⟨_, hmem, rfl⟩)
      simp only [if_true, Option.some.injEq, hnot, or_false]
      exact ⟨fun hv => by rw [← hv], fun hv => (Prod.mk.inj hv).2 ▸ rfl⟩
    · have hne : (key, value) ≠ e := fun heq => he (by rw [← heq])
      simp only [if_neg he, hne, false_or, ih h.2]

end Grayscale.Entries
