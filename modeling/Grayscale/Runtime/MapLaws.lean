import Grayscale.Runtime.Map
import Mathlib.Data.List.Perm.Subperm
import Mathlib.Data.Nat.Bitwise

/-!
# The hash map against its abstract model

The map as the list of its entries in insertion order: every operation does to the entries along the
order array what its name says, with every write to that array inside it.
-/

namespace Grayscale.HashMaps

open List
open Option (bind_some map_some some.inj)

variable {V : Type*} {seed : UInt64}

theorem filterMap_set {α β : Type*} {l : List α} {p : ℕ} {a : α} {f g : α → Option β}
    (hplc : ∀ i o, l[i]? = some o → (if i = p then f a else f o) = g o) :
    (l.set p a).filterMap f = l.filterMap g := by
  induction l generalizing p with
  | nil => rfl
  | cons o l ih =>
    cases p with
    | zero =>
      have hrest : l.filterMap f = l.filterMap g := by
        refine filterMap_congr fun o ho => ?_
        obtain ⟨i, hi⟩ := mem_iff_getElem?.mp ho
        simpa using hplc (i + 1) o hi
      have hfst : f a = g o := by simpa using hplc 0 o rfl
      rw [set_cons_zero, filterMap_cons, filterMap_cons, hfst, hrest]
    | succ p =>
      have hfst : f o = g o := by simpa using hplc 0 o rfl
      have hrest := ih (p := p) fun i o' ho' => by simpa using hplc (i + 1) o' ho'
      rw [set_cons_succ, filterMap_cons, filterMap_cons, hfst, hrest]

/-- What may be assumed of a table between two operations. -/
structure GrayMap.Valid (seed : UInt64) (map : GrayMap V) : Prop where
  capacity_eq : ∃ k, 3 ≤ k ∧ k ≤ 30 ∧ map.capacity = 2 ^ k
  load : map.count * 4 ≤ map.capacity * 3
  -- The largest table is made for a hint only, and the first key to be set leaves it.
  large : map.capacity = 2 ^ 30 → map.order = []
  order_le : map.order.length ≤ map.capacity
  of_order : ∀ {i s : ℕ}, map.order[i]? = some (some s) →
    s < map.capacity ∧ ∃ e, map.slots s = .occupied e ∧ e.orderPosition = i
  to_order : ∀ {s : ℕ} {e : MapEntry V}, s < map.capacity → map.slots s = .occupied e →
    map.order[e.orderPosition]? = some (some s)
  unique : ∀ {s s' : ℕ} {e e' : MapEntry V}, s < map.capacity → s' < map.capacity →
    map.slots s = .occupied e → map.slots s' = .occupied e' → e.key = e'.key → s = s'
  reached : ∀ {s : ℕ} {e : MapEntry V}, s < map.capacity → map.slots s = .occupied e →
    ReachedBy map.slots (mapProbes seed map.capacity e.key) s
  count_eq : map.count = map.entries.length

namespace GrayMap

theorem mem_mapProbes {k : ℕ} {key : Text} {s : ℕ} :
    s ∈ mapProbes seed (2 ^ k) key ↔ s < 2 ^ k := by
  have heq : mapProbes seed (2 ^ k) key =
      probes (2 ^ k) ((hashBytes seed key).toNat &&& (2 ^ k - 1)) := by
    simp only [mapProbes, probes, Nat.and_two_pow_sub_one_eq_mod]
  rw [heq, mem_probes]

@[simp] theorem entryAt_none (map : GrayMap V) : map.entryAt none = none := rfl

theorem entryAt_of_occupied {map : GrayMap V} {s : ℕ} {e : MapEntry V}
    (h : map.slots s = .occupied e) : map.entryAt (some s) = some (e.key, e.value) := by
  simp only [entryAt, bind_some, h]

theorem entryAt_congr {map map' : GrayMap V} {o : Option ℕ}
    (h : ∀ s, o = some s → map'.slots s = map.slots s) : map'.entryAt o = map.entryAt o := by
  cases o with
  | none => rfl
  | some s => simp only [entryAt, bind_some, h s rfl]

namespace Valid

variable {map : GrayMap V} (h : map.Valid seed)

include h

theorem capacity_pos : 8 ≤ map.capacity := by
  obtain ⟨k, hk, -, hcap⟩ := h.capacity_eq
  rw [hcap]
  exact Nat.pow_le_pow_right (n := 2) (by decide) hk

variable {key : Text} {s : ℕ}

theorem mem_probes : s ∈ mapProbes seed map.capacity key ↔ s < map.capacity := by
  obtain ⟨k, -, -, hcap⟩ := h.capacity_eq
  rw [hcap, mem_mapProbes]

variable {e : MapEntry V}

theorem mem_order (hs : s < map.capacity)
    (he : map.slots s = .occupied e) : some s ∈ map.order := mem_of_getElem? (h.to_order hs he)

theorem of_mem_order (hs : some s ∈ map.order) :
    s < map.capacity ∧ ∃ e, map.slots s = .occupied e := by
  obtain ⟨i, hi⟩ := mem_iff_getElem?.mp hs
  obtain ⟨hlt, e, he, -⟩ := h.of_order hi
  exact ⟨hlt, e, he⟩

theorem mem_entries {value : V} : (key, value) ∈ map.entries ↔
    ∃ s < map.capacity, ∃ e, map.slots s = .occupied e ∧ e.key = key ∧ e.value = value := by
  rw [entries, mem_filterMap]
  constructor
  · rintro ⟨o, ho, hent⟩
    cases o with
    | none => simp at hent
    | some s =>
      obtain ⟨hs, e, he⟩ := h.of_mem_order ho
      rw [entryAt_of_occupied he, Option.some.injEq, Prod.mk.injEq] at hent
      exact ⟨s, hs, e, he, hent⟩
  · rintro ⟨s, hs, e, he, rfl, rfl⟩
    exact ⟨some s, h.mem_order hs he, entryAt_of_occupied he⟩

theorem mem_keys : key ∈ Entries.keys map.entries ↔
    ∃ s < map.capacity, ∃ e, map.slots s = .occupied e ∧ e.key = key := by
  rw [Entries.keys, mem_map]
  constructor
  · rintro ⟨⟨k, v⟩, hmem, rfl⟩
    obtain ⟨s, hs, e, he, hkey, -⟩ := h.mem_entries.mp hmem
    exact ⟨s, hs, e, he, hkey⟩
  · rintro ⟨s, hs, e, he, rfl⟩
    exact ⟨(e.key, e.value), h.mem_entries.mpr ⟨s, hs, e, he, rfl, rfl⟩, rfl⟩

theorem nodup_keys : (Entries.keys map.entries).Nodup := by
  rw [Entries.keys, entries, map_filterMap, List.Nodup, pairwise_filterMap, pairwise_iff_getElem]
  intro i j hi hj hij key hkey key' hkey'
  rintro rfl
  cases ho : map.order[i] with
  | none => simp [ho] at hkey
  | some s =>
    cases ho' : map.order[j] with
    | none => simp [ho'] at hkey'
    | some s' =>
      obtain ⟨hs, e, he, hpos⟩ := h.of_order (by rw [getElem?_eq_getElem hi, ho])
      obtain ⟨hs', e', he', hpos'⟩ := h.of_order (by rw [getElem?_eq_getElem hj, ho'])
      rw [ho, entryAt_of_occupied he] at hkey
      rw [ho', entryAt_of_occupied he'] at hkey'
      have hsame : e.key = e'.key := (some.inj hkey).trans (some.inj hkey').symm
      obtain rfl := h.unique hs hs' he he' hsame
      rw [he] at he'
      obtain rfl := Slot.occupied.inj he'
      omega

theorem findSlotOf_eq_some : findSlotOf seed map key = some s ↔
    s < map.capacity ∧ ∃ e, map.slots s = .occupied e ∧ e.key = key := by
  constructor
  · intro hfind
    obtain ⟨hmem, e, he, hkey⟩ := findIn_sound hfind
    exact ⟨h.mem_probes.mp hmem, e, he, by simpa using hkey⟩
  · rintro ⟨hs, e, he, rfl⟩
    refine findIn_of_reachedBy (h.reached hs he) he (by simp) fun s' hs' e' he' hkey => ?_
    exact h.unique (h.mem_probes.mp hs') hs he' he (by simpa using hkey)

theorem get_eq (key : Text) : grayMapGet seed map key = Entries.find map.entries key := by
  cases hfind : findSlotOf seed map key with
  | none =>
    have hnot : key ∉ Entries.keys map.entries := by
      rw [h.mem_keys]
      rintro ⟨s, hs, he⟩
      have hsome := h.findSlotOf_eq_some.mpr ⟨hs, he⟩
      simp [hfind] at hsome
    rw [grayMapGet, hfind, Entries.find_eq_none_iff.mpr hnot]
  | some s =>
    obtain ⟨hs, e, he, rfl⟩ := h.findSlotOf_eq_some.mp hfind
    have hmem : (e.key, e.value) ∈ map.entries := h.mem_entries.mpr ⟨s, hs, e, he, rfl, rfl⟩
    rw [grayMapGet, hfind, (Entries.find_eq_some_iff h.nodup_keys).mpr hmem]
    simp only [he]

theorem has_eq (key : Text) : grayMapHas seed map key = true ↔ key ∈ Entries.keys map.entries := by
  rw [grayMapHas, Option.isSome_iff_exists, h.mem_keys]
  exact exists_congr fun s => h.findSlotOf_eq_some

theorem capacity_le_of_full (hfull : ∀ s < map.capacity, ∃ e, map.slots s = .occupied e) :
    map.capacity ≤ map.count := by
  have : Nonempty (MapEntry V) := by
    obtain ⟨e, -⟩ := hfull 0 (by have := h.capacity_pos; omega)
    exact ⟨e⟩
  choose! e he using hfull
  have hnd : ((List.range map.capacity).map fun s => (e s).key).Nodup := by
    refine List.Nodup.map_on (fun s hs s' hs' hkey => ?_) nodup_range
    rw [mem_range] at hs hs'
    exact h.unique hs hs' (he s hs) (he s' hs') hkey
  have hsub : ((List.range map.capacity).map fun s => (e s).key) ⊆
      Entries.keys map.entries := by
    intro key hkey
    obtain ⟨s, hs, rfl⟩ := mem_map.mp hkey
    exact h.mem_keys.mpr ⟨s, mem_range.mp hs, e s, he s (mem_range.mp hs), rfl⟩
  have hle := (subperm_of_subset hnd hsub).length_le
  rwa [length_map, length_range, Entries.keys, length_map, ← h.count_eq] at hle

/-! ### One entry -/

omit h in
/-- The table after a new entry. -/
def inserted (map : GrayMap V) (slot : ℕ) (key : Text) (value : V) : GrayMap V := { map with
    slots := Function.update map.slots slot (.occupied ⟨key, value, map.order.length⟩)
    order := map.order ++ [some slot]
    count := map.count + 1 }

omit h in
theorem inserted_slots_self (slot : ℕ) (key : Text) (value : V) :
    (inserted map slot key value).slots slot = .occupied ⟨key, value, map.order.length⟩ :=
  Function.update_self _ _ _

omit h in
theorem inserted_slots_of_ne {slot s : ℕ} (hs : s ≠ slot) (key : Text) (value : V) :
    (inserted map slot key value).slots s = map.slots s := Function.update_of_ne hs _ _

theorem ne_of_free {slot s : ℕ} (hfree : ∀ e, map.slots slot ≠ .occupied e)
    (hs : some s ∈ map.order) : s ≠ slot := by
  rintro rfl
  obtain ⟨-, e, he⟩ := h.of_mem_order hs
  exact hfree e he

variable {slot : ℕ}

theorem entries_inserted (key : Text) (value : V)
    (hfree : ∀ e, map.slots slot ≠ .occupied e) :
    (inserted map slot key value).entries = map.entries ++ [(key, value)] := by
  have hold : map.order.filterMap (inserted map slot key value).entryAt = map.entries := by
    refine filterMap_congr fun o ho => entryAt_congr fun s hs => ?_
    exact inserted_slots_of_ne (h.ne_of_free hfree (hs ▸ ho)) key value
  have hnew : (inserted map slot key value).entryAt (some slot) = some (key, value) :=
    entryAt_of_occupied (inserted_slots_self slot key value)
  rw [entries, inserted, filterMap_append, ← inserted, hold, filterMap_cons, hnew]
  rfl

omit h in
theorem occupied_inserted {slot s : ℕ} {key : Text} {value : V} {e : MapEntry V}
    (he : (inserted map slot key value).slots s = .occupied e) :
    (s = slot ∧ e = ⟨key, value, map.order.length⟩) ∨ (s ≠ slot ∧ map.slots s = .occupied e) := by
  by_cases hs : s = slot
  · subst hs
    rw [inserted_slots_self] at he
    exact Or.inl ⟨rfl, (Slot.occupied.inj he).symm⟩
  · rw [inserted_slots_of_ne hs] at he
    exact Or.inr ⟨hs, he⟩

theorem insert {key : Text} {value : V} (hkey : key ∉ Entries.keys map.entries)
    (hslot : ReachedBy map.slots (mapProbes seed map.capacity key) slot)
    (hfree : ∀ e, map.slots slot ≠ .occupied e) (hload : map.count * 4 < map.capacity * 3)
    (hord : map.order.length < map.capacity) (hbig : map.capacity ≠ 2 ^ 30) :
    (inserted map slot key value).Valid seed where
  capacity_eq := h.capacity_eq
  load := by
    obtain ⟨k, hk, -, hcap⟩ := h.capacity_eq
    obtain ⟨j, rfl⟩ := Nat.exists_eq_add_of_le hk
    rw [Nat.pow_add] at hcap
    change (map.count + 1) * 4 ≤ map.capacity * 3
    omega
  large := fun hcap => absurd hcap hbig
  order_le := by
    rw [inserted, length_append]
    exact hord
  of_order := by
    intro i s hi
    simp only [inserted, getElem?_append] at hi
    split_ifs at hi with hlt
    · obtain ⟨hs, e, he, hpos⟩ := h.of_order hi
      have hne := h.ne_of_free hfree (mem_of_getElem? hi)
      exact ⟨hs, e, (inserted_slots_of_ne hne key value).trans he, hpos⟩
    · obtain ⟨hi, rfl⟩ : i - map.order.length = 0 ∧ slot = s := by
        simpa [getElem?_singleton] using hi
      exact ⟨h.mem_probes.mp hslot.mem, _, inserted_slots_self slot key value, by
        simp only
        omega⟩
  to_order := by
    intro s e hs he
    rcases occupied_inserted he with ⟨rfl, rfl⟩ | ⟨-, he⟩
    · simp [inserted]
    · have hold := h.to_order hs he
      obtain ⟨hlt, -⟩ := List.getElem?_eq_some_iff.mp hold
      rw [inserted, getElem?_append_left hlt, hold]
  unique := by
    intro s s' e e' hs hs' he he' hsame
    rcases occupied_inserted he with ⟨rfl, rfl⟩ | ⟨-, hold⟩ <;>
      rcases occupied_inserted he' with ⟨rfl, rfl⟩ | ⟨-, hold'⟩
    · rfl
    · exact absurd (h.mem_keys.mpr ⟨s', hs', e', hold', hsame.symm⟩) hkey
    · exact absurd (h.mem_keys.mpr ⟨s, hs, e, hold, hsame⟩) hkey
    · exact h.unique hs hs' hold hold' hsame
  reached := by
    intro s e hs he
    have hmono : ∀ s, map.slots s ≠ .empty → (inserted map slot key value).slots s ≠ .empty := by
      intro s hs
      by_cases hne : s = slot
      · subst hne
        simp [inserted_slots_self]
      · rwa [inserted_slots_of_ne hne]
    rcases occupied_inserted he with ⟨rfl, rfl⟩ | ⟨-, he⟩
    · exact hslot.mono hmono
    · exact (h.reached hs he).mono hmono
  count_eq := by
    rw [h.entries_inserted key value hfree, length_append, ← h.count_eq]
    rfl

theorem update (hs : slot < map.capacity)
    (he : map.slots slot = .occupied e) (value : V) : (mapUpdateAt map slot value).Valid seed ∧
      (mapUpdateAt map slot value).entries = Entries.set map.entries e.key value := by
  have hmap : mapUpdateAt map slot value =
      { map with slots := Function.update map.slots slot (.occupied { e with value }) } := by
    simp only [mapUpdateAt, he]
  rw [hmap]
  generalize hupdated : ({ map with
    slots := Function.update map.slots slot (.occupied { e with value }) } : GrayMap V) = updated
  have hself : updated.slots slot = .occupied { e with value } := by
    rw [← hupdated]
    exact Function.update_self _ _ _
  have hoth : ∀ s, s ≠ slot → updated.slots s = map.slots s := by
    intro s hne
    rw [← hupdated]
    exact Function.update_of_ne hne _ _
  have hord : updated.order = map.order := by rw [← hupdated]
  have hcnt : updated.count = map.count := by rw [← hupdated]
  have hcap : updated.capacity = map.capacity := by rw [← hupdated]
  -- An occupied slot has the key and the place that it had.
  have hocc : ∀ s e', updated.slots s = .occupied e' → ∃ e₀, map.slots s = .occupied e₀ ∧
      e₀.key = e'.key ∧ e₀.orderPosition = e'.orderPosition := by
    intro s e' he'
    by_cases hne : s = slot
    · subst hne
      rw [hself] at he'
      obtain rfl := Slot.occupied.inj he'
      exact ⟨e, he, rfl, rfl⟩
    · rw [hoth s hne] at he'
      exact ⟨e', he', rfl, rfl⟩
  have hents : updated.entries = Entries.set map.entries e.key value := by
    rw [Entries.set, if_pos (h.mem_keys.mpr ⟨slot, hs, e, he, rfl⟩), entries, entries, hord,
      map_filterMap]
    refine filterMap_congr fun o ho => ?_
    cases o with
    | none => rfl
    | some s =>
      by_cases hne : s = slot
      · subst hne
        rw [entryAt_of_occupied hself, entryAt_of_occupied he, map_some, if_pos rfl]
      · obtain ⟨hs', e', he'⟩ := h.of_mem_order ho
        have hkey : e'.key ≠ e.key := fun hkey => hne (h.unique hs' hs he' he hkey)
        rw [entryAt_of_occupied ((hoth s hne).trans he'), entryAt_of_occupied he',
          map_some, if_neg hkey]
  refine ⟨?_, hents⟩
  exact {
    capacity_eq := hcap ▸ h.capacity_eq
    load := by
      rw [hcap, hcnt]
      exact h.load
    large := by
      rw [hcap, hord]
      exact h.large
    order_le := by
      rw [hcap, hord]
      exact h.order_le
    of_order := by
      intro i s hi
      rw [hord] at hi
      obtain ⟨hs', e', he', hpos⟩ := h.of_order hi
      rw [hcap]
      refine ⟨hs', ?_⟩
      by_cases hne : s = slot
      · subst hne
        rw [he] at he'
        obtain rfl := Slot.occupied.inj he'
        exact ⟨_, hself, hpos⟩
      · exact ⟨e', (hoth s hne).trans he', hpos⟩
    to_order := by
      intro s e' hs' he'
      obtain ⟨e₀, he₀, -, hpos⟩ := hocc s e' he'
      rw [hord, ← hpos]
      exact h.to_order (hcap ▸ hs') he₀
    unique := by
      intro s s' e₁ e₂ hs₁ hs₂ he₁ he₂ hsame
      obtain ⟨a, ha, hakey, -⟩ := hocc s e₁ he₁
      obtain ⟨b, hb, hbkey, -⟩ := hocc s' e₂ he₂
      exact h.unique (hcap ▸ hs₁) (hcap ▸ hs₂) ha hb
        (hakey.trans (hsame.trans hbkey.symm))
    reached := by
      intro s e' hs' he'
      obtain ⟨e₀, he₀, hkey, -⟩ := hocc s e' he'
      rw [hcap, ← hkey]
      refine (h.reached (hcap ▸ hs') he₀).mono fun s' hempty => ?_
      by_cases hne : s' = slot
      · rw [hne, hself]
        simp
      · rwa [hoth s' hne]
    count_eq := by
      rw [hents, hcnt, Entries.length_set, if_pos (h.mem_keys.mpr ⟨slot, hs, e, he, rfl⟩)]
      exact h.count_eq }

theorem removed (hs : slot < map.capacity)
    (he : map.slots slot = .occupied e) {map' : GrayMap V}
    (hmap' : map' = { map with
      slots := Function.update map.slots slot .tombstone
      order := map.order.set e.orderPosition none
      count := map.count - 1 }) :
    map'.Valid seed ∧ map'.entries = Entries.erase map.entries e.key := by
  have hself : map'.slots slot = .tombstone := by
    rw [hmap']
    exact Function.update_self _ _ _
  have hoth : ∀ s, s ≠ slot → map'.slots s = map.slots s := by
    intro s hne
    rw [hmap']
    exact Function.update_of_ne hne _ _
  have hord : map'.order = map.order.set e.orderPosition none := by rw [hmap']
  have hcnt : map'.count = map.count - 1 := by rw [hmap']
  have hcap : map'.capacity = map.capacity := by rw [hmap']
  have hplc := h.to_order hs he
  -- An occupied slot is another one, and is as it was.
  have hocc : ∀ s e', map'.slots s = .occupied e' → s ≠ slot ∧ map.slots s = .occupied e' := by
    intro s e' he'
    have hne : s ≠ slot := by
      rintro rfl
      simp [hself] at he'
    exact ⟨hne, (hoth s hne).symm.trans he'⟩
  -- Another place of the order array leads to another slot.
  have hslot : ∀ i s, map.order[i]? = some (some s) → (i = e.orderPosition ↔ s = slot) := by
    intro i s hi
    constructor
    · rintro rfl
      rw [hplc] at hi
      exact (some.inj (some.inj hi)).symm
    · rintro rfl
      obtain ⟨-, e', he', hpos⟩ := h.of_order hi
      rw [he] at he'
      rw [Slot.occupied.inj he', hpos]
  have hents : map'.entries = Entries.erase map.entries e.key := by
    rw [Entries.erase, entries, entries, filter_filterMap, hord]
    refine filterMap_set fun i o hi => ?_
    cases o with
    | none => simp
    | some s =>
      obtain ⟨hs', e', he', -⟩ := h.of_order hi
      rw [entryAt_of_occupied he']
      by_cases hne : s = slot
      · rw [if_pos ((hslot i s hi).mpr hne)]
        subst hne
        rw [he] at he'
        simp [Slot.occupied.inj he', Option.filter]
      · have hkey : e'.key ≠ e.key := fun hkey => hne (h.unique hs' hs he' he hkey)
        rw [if_neg ((hslot i s hi).not.mpr hne), entryAt_of_occupied ((hoth s hne).trans he')]
        simp [Option.filter, hkey]
  have hlen : map'.entries.length = map.entries.length - 1 := by
    have hkey : e.key ∈ Entries.keys map.entries := h.mem_keys.mpr ⟨slot, hs, e, he, rfl⟩
    have herase := Entries.length_erase h.nodup_keys hkey
    rw [hents]
    omega
  refine ⟨?_, hents⟩
  exact {
    capacity_eq := hcap ▸ h.capacity_eq
    load := by
      rw [hcap, hcnt]
      have := h.load
      omega
    large := by
      rw [hcap, hord]
      intro hbig
      rw [h.large hbig, set_nil]
    order_le := by
      rw [hcap, hord, List.length_set]
      exact h.order_le
    of_order := by
      intro i s hi
      rw [hord, getElem?_set] at hi
      split_ifs at hi with hpos hlt
      · simp at hi
      · obtain ⟨hs', e', he', hpos'⟩ := h.of_order hi
        have hne : s ≠ slot := fun hne => hpos ((hslot i s hi).mpr hne).symm
        rw [hcap]
        exact ⟨hs', e', (hoth s hne).trans he', hpos'⟩
    to_order := by
      intro s e' hs' he'
      obtain ⟨hne, he'⟩ := hocc s e' he'
      have hold := h.to_order (hcap ▸ hs') he'
      have hpos : e.orderPosition ≠ e'.orderPosition :=
        fun hpos => hne ((hslot _ s hold).mp hpos.symm)
      rw [hord, getElem?_set_ne hpos, hold]
    unique := by
      intro s s' e₁ e₂ hs₁ hs₂ he₁ he₂ hsame
      exact h.unique (hcap ▸ hs₁) (hcap ▸ hs₂) (hocc s e₁ he₁).2
        (hocc s' e₂ he₂).2 hsame
    reached := by
      intro s e' hs' he'
      rw [hcap]
      refine (h.reached (hcap ▸ hs') (hocc s e' he').2).mono fun s' hempty => ?_
      by_cases hne : s' = slot
      · rw [hne, hself]
        simp
      · rwa [hoth s' hne]
    count_eq := by rw [hcnt, hlen, h.count_eq] }

theorem remove_spec (key : Text) : (grayMapRemove seed map key).1.Valid seed ∧
      (grayMapRemove seed map key).1.entries = Entries.erase map.entries key ∧
      ((grayMapRemove seed map key).2 = true ↔ key ∈ Entries.keys map.entries) := by
  cases hfind : findSlotOf seed map key with
  | none =>
    have hnot : key ∉ Entries.keys map.entries := by
      rw [← h.has_eq, grayMapHas, hfind]
      exact Bool.false_ne_true
    have herase : Entries.erase map.entries key = map.entries := by
      refine filter_eq_self.mpr fun e he => decide_eq_true fun heq => hnot ?_
      exact heq ▸ mem_map_of_mem he
    have hrun : grayMapRemove seed map key = (map, false) := by simp only [grayMapRemove, hfind]
    rw [hrun, herase]
    exact ⟨h, rfl, iff_of_false Bool.false_ne_true hnot⟩
  | some slot =>
    obtain ⟨hs, e, he, rfl⟩ := h.findSlotOf_eq_some.mp hfind
    obtain ⟨hval, hents⟩ := h.removed hs he rfl
    have hrun : grayMapRemove seed map e.key = ({ map with
        slots := Function.update map.slots slot .tombstone
        order := map.order.set e.orderPosition none
        count := map.count - 1 }, true) := by
      simp only [grayMapRemove, hfind, he, if_pos (h.to_order hs he)]
    rw [hrun]
    exact ⟨hval, hents, iff_of_true rfl (h.mem_keys.mpr ⟨slot, hs, e, he, rfl⟩)⟩

omit h in
theorem fresh {map : GrayMap V} (hcap : ∃ k, 3 ≤ k ∧ k ≤ 30 ∧ map.capacity = 2 ^ k)
    (hslt : ∀ s, map.slots s = .empty) (hord : map.order = []) (hcnt : map.count = 0) :
    map.Valid seed ∧ map.entries = [] := by
  have hents : map.entries = [] := by rw [entries, hord, filterMap_nil]
  refine ⟨?_, hents⟩
  exact {
    capacity_eq := hcap
    load := by
      rw [hcnt]
      omega
    large := fun _ => hord
    order_le := by
      rw [hord]
      exact Nat.zero_le _
    of_order := by simp [hord]
    to_order := by simp [hslt]
    unique := by simp [hslt]
    reached := by simp [hslt]
    count_eq := by rw [hcnt, hents, length_nil] }

theorem clear_spec : (grayMapClear map).Valid seed ∧ (grayMapClear map).entries = [] :=
  fresh h.capacity_eq (fun _ => rfl) rfl rfl

theorem copy_spec : (grayMapCopy map).Valid seed ∧ (grayMapCopy map).entries = map.entries := by
  have hslt : ∀ s < map.capacity, (grayMapCopy map).slots s = map.slots s := fun s hs => if_pos hs
  have hents : (grayMapCopy map).entries = map.entries := by
    refine filterMap_congr fun o ho => entryAt_congr fun s hs => ?_
    exact hslt s (h.of_mem_order (hs ▸ ho)).1
  have hocc : ∀ s e, s < map.capacity → (grayMapCopy map).slots s = .occupied e →
      map.slots s = .occupied e := fun s e hs he => (hslt s hs).symm.trans he
  refine ⟨?_, hents⟩
  exact {
    capacity_eq := h.capacity_eq
    load := h.load
    large := h.large
    order_le := h.order_le
    of_order := by
      intro i s hi
      obtain ⟨hs, e, he, hpos⟩ := h.of_order hi
      exact ⟨hs, e, (hslt s hs).trans he, hpos⟩
    to_order := fun hs he => h.to_order hs (hocc _ _ hs he)
    unique := fun hs hs' he he' => h.unique hs hs' (hocc _ _ hs he) (hocc _ _ hs' he')
    reached := by
      intro s e hs he
      obtain ⟨pre, post, hprobes, hpre⟩ := h.reached hs (hocc _ _ hs he)
      refine ⟨pre, post, hprobes, fun s' hs' => ?_⟩
      have hmem : s' ∈ mapProbes seed map.capacity e.key := by
        rw [hprobes]
        exact mem_append_left _ hs'
      have hlt := h.mem_probes.mp hmem
      rw [hslt s' hlt]
      exact hpre s' hs'
    count_eq := h.count_eq.trans (congrArg List.length hents).symm }

end Valid

/-! ### Capacities -/

theorem doubleUntil_spec (capacity : ℤ) (rounds k : ℕ) :
    ∃ j, k ≤ j ∧ j ≤ k + rounds ∧ doubleUntil capacity rounds (2 ^ k) = 2 ^ j := by
  induction rounds generalizing k with
  | zero => exact ⟨k, le_rfl, le_rfl, rfl⟩
  | succ rounds ih =>
    rw [doubleUntil]
    split_ifs with hlt
    · obtain ⟨j, hj, hj', heq⟩ := ih (k + 1)
      exact ⟨j, by omega, by omega, by rw [← Nat.pow_succ, heq]⟩
    · exact ⟨k, le_rfl, Nat.le_add_right _ _, rfl⟩

theorem roundCapacity_eq (capacity : ℤ) :
    ∃ k, 3 ≤ k ∧ k ≤ 30 ∧ grayMapRoundCapacity capacity = 2 ^ k := by
  rw [grayMapRoundCapacity]
  split_ifs
  · exact ⟨3, by omega, by omega, rfl⟩
  · exact ⟨30, by omega, by omega, rfl⟩
  · exact doubleUntil_spec capacity 27 3

theorem doubleUntil_two_pow {j : ℕ} (rounds k : ℕ) (hk : k ≤ j) (hj : j ≤ k + rounds) :
    doubleUntil ((2 ^ j : ℕ) : ℤ) rounds (2 ^ k) = 2 ^ j := by
  induction rounds generalizing k with
  | zero => rw [doubleUntil, show k = j by omega]
  | succ rounds ih =>
    rw [doubleUntil]
    rcases Nat.lt_or_eq_of_le hk with hlt | rfl
    · have hpow : 2 ^ k < 2 ^ j := Nat.pow_lt_pow_right (by decide) hlt
      rw [if_pos (Int.ofNat_lt.mpr hpow), ← Nat.pow_succ, ih (k + 1) hlt (by omega)]
    · rw [if_neg (Int.lt_irrefl _)]

theorem roundCapacity_two_pow {k : ℕ} (hk : 3 ≤ k) (hk' : k ≤ 30) :
    grayMapRoundCapacity ((2 ^ k : ℕ) : ℤ) = 2 ^ k := by
  have hlow : 2 ^ 3 ≤ 2 ^ k := Nat.pow_le_pow_right (by decide) hk
  have hhigh : 2 ^ k ≤ 2 ^ 30 := Nat.pow_le_pow_right (by decide) hk'
  rw [grayMapRoundCapacity, if_neg (by omega), if_neg (by omega)]
  exact doubleUntil_two_pow 27 3 hk hk'

theorem new_spec (initialCapacity : ℤ) : (grayMapNewKind initialCapacity : GrayMap V).Valid seed ∧
      (grayMapNewKind initialCapacity : GrayMap V).entries = [] :=
  Valid.fresh (roundCapacity_eq initialCapacity) (fun _ => rfl) rfl rfl

theorem int32_eq {x : ℤ} (hlow : -2 ^ 31 ≤ x) (hhigh : x < 2 ^ 31) : int32 x = x :=
  Int.bmod_eq_of_le (by omega) (by omega)

/-! ### Setting a key -/

namespace Valid

variable {map : GrayMap V} (h : map.Valid seed)

include h

theorem place_spec (hload : map.count * 4 < map.capacity * 3)
    (hord : map.order.length < map.capacity) (hbig : map.capacity ≠ 2 ^ 30) (key : Text)
    (value : V) : ∃ map', mapPlace seed map key value = some map' ∧ map'.Valid seed ∧
      map'.entries = Entries.set map.entries key value ∧ map'.capacity = map.capacity ∧
      (key ∉ Entries.keys map.entries → map'.order.length = map.order.length + 1) := by
  by_cases hkey : key ∈ Entries.keys map.entries
  · obtain ⟨slot, hs, e, he, rfl⟩ := h.mem_keys.mp hkey
    have hplc : placeIn map.slots (fun e' => e'.key == e.key)
        (mapProbes seed map.capacity e.key) none = .update slot := by
      refine placeIn_of_reachedBy (h.reached hs he) he (by simp) (fun s' hs' e' he' hsame => ?_) none
      exact h.unique (h.mem_probes.mp hs') hs he' he (by simpa using hsame)
    obtain ⟨hval, hents⟩ := h.update hs he value
    refine ⟨mapUpdateAt map slot value, ?_, hval, hents, ?_, fun hnot => absurd hkey hnot⟩
    · simp only [mapPlace, hplc]
    · simp only [mapUpdateAt, he]
  · have habsent : ∀ s ∈ mapProbes seed map.capacity key, ∀ e, map.slots s = .occupied e →
        (e.key == key) = false := by
      intro s hs e he
      refine beq_eq_false_iff_ne.mpr fun hsame => hkey ?_
      exact h.mem_keys.mpr ⟨s, h.mem_probes.mp hs, e, he, hsame⟩
    rcases placeIn_of_absent habsent with ⟨slot, hplc, hslot, hfree⟩ | hfull
    · refine ⟨inserted map slot key value, ?_, h.insert hkey hslot hfree hload hord hbig, ?_,
        rfl, fun _ => ?_⟩
      · simp only [mapPlace, hplc, mapInsertAt, if_pos hord]
        rfl
      · rw [h.entries_inserted key value hfree, Entries.set, if_neg hkey]
      · rw [inserted, length_append, length_singleton]
    · have hle := h.capacity_le_of_full fun s hs => hfull s (h.mem_probes.mpr hs)
      omega

theorem isLoaded_iff (hcnt : map.count < 3 * 2 ^ 27) (hbig : map.capacity ≠ 2 ^ 30) :
    isLoaded map ↔ map.capacity * 3 ≤ map.count * 4 := by
  have hcap : map.capacity ≤ 2 ^ 29 := by
    obtain ⟨k, -, hk, hcap⟩ := h.capacity_eq
    have hne : k ≠ 30 := by
      rintro rfl
      exact hbig hcap
    rw [hcap]
    exact Nat.pow_le_pow_right (by decide) (by omega)
  rw [isLoaded, int32_eq (by omega) (by omega), int32_eq (by omega) (by omega)]
  omega

theorem isLoaded_large (hbig : map.capacity = 2 ^ 30) : isLoaded map := by
  have hcnt : map.count = 0 := by
    rw [h.count_eq, entries, h.large hbig]
    rfl
  rw [isLoaded, hbig, hcnt]
  decide

theorem set_room (fuel : ℕ) (hcnt : map.count < 3 * 2 ^ 27)
    (hload : map.count * 4 < map.capacity * 3) (hord : map.order.length < map.capacity)
    (hbig : map.capacity ≠ 2 ^ 30) (key : Text) (value : V) :
    grayMapSet seed (fuel + 1) map key value = mapPlace seed map key value := by
  have hnot : ¬ isLoaded map := (h.isLoaded_iff hcnt hbig).not.mpr (by omega)
  rw [grayMapSet, if_neg hnot, bind_some, if_neg (by omega), bind_some]

end Valid

theorem reinsert_spec (fuel : ℕ) (old : GrayMap V) (order : List (Option ℕ)) {map : GrayMap V}
    (h : map.Valid seed) (hbig : map.capacity ≠ 2 ^ 30)
    (hmat : map.order.length = map.count)
    (hroom : (map.entries ++ order.filterMap old.entryAt).length * 4 ≤ map.capacity * 3)
    (hcnt : (map.entries ++ order.filterMap old.entryAt).length ≤ 3 * 2 ^ 27)
    (hnd : (Entries.keys (map.entries ++ order.filterMap old.entryAt)).Nodup) :
    ∃ map', mapReinsert (grayMapSet seed (fuel + 1)) old.slots order map = some map' ∧
      map'.Valid seed ∧ map'.entries = map.entries ++ order.filterMap old.entryAt ∧
      map'.capacity = map.capacity ∧ map'.order.length = map'.count := by
  induction order generalizing map with
  | nil => exact ⟨map, rfl, h, by rw [filterMap_nil, append_nil], rfl, hmat⟩
  | cons o order ih =>
    cases ho : old.entryAt o with
    | none =>
      have hskip : mapReinsert (grayMapSet seed (fuel + 1)) old.slots (o :: order) map =
          mapReinsert (grayMapSet seed (fuel + 1)) old.slots order map := by
        cases o with
        | none => rfl
        | some s =>
          rw [mapReinsert]
          cases hs : old.slots s with
          | occupied e => simp [entryAt_of_occupied hs] at ho
          | empty => rfl
          | tombstone => rfl
      rw [filterMap_cons_none ho] at hroom hcnt hnd ⊢
      rw [hskip]
      exact ih h hbig hmat hroom hcnt hnd
    | some entry =>
      obtain ⟨key, value⟩ := entry
      rw [filterMap_cons_some ho] at hroom hcnt hnd ⊢
      have hset : mapReinsert (grayMapSet seed (fuel + 1)) old.slots (o :: order) map =
          (grayMapSet seed (fuel + 1) map key value).bind
            (mapReinsert (grayMapSet seed (fuel + 1)) old.slots order) := by
        cases o with
        | none => simp at ho
        | some s =>
          rw [mapReinsert]
          cases hs : old.slots s with
          | occupied e =>
            rw [entryAt_of_occupied hs] at ho
            obtain ⟨rfl, rfl⟩ := Prod.mk.inj (some.inj ho)
            rfl
          | empty => simp [entryAt, hs] at ho
          | tombstone => simp [entryAt, hs] at ho
      have hkey : key ∉ Entries.keys map.entries := by
        rw [Entries.keys_append, Entries.keys_cons] at hnd
        exact fun hmem => (nodup_append.mp hnd).2.2 key hmem key mem_cons_self rfl
      simp only [length_append, length_cons, ← h.count_eq] at hroom hcnt
      obtain ⟨map₁, hplc, hval, hents, hcap, hord⟩ := h.place_spec (by omega)
        (by omega) hbig key value
      rw [Entries.set, if_neg hkey] at hents
      have hcnt₁ : map₁.count = map.count + 1 := by
        rw [hval.count_eq, hents, length_append, h.count_eq]
        rfl
      rw [hset, h.set_room fuel (by omega) (by omega) (by omega) hbig, hplc, bind_some]
      have hspl : map.entries ++ (key, value) :: order.filterMap old.entryAt =
          map₁.entries ++ order.filterMap old.entryAt := by
        rw [hents, append_assoc]
        rfl
      rw [hspl] at hnd ⊢
      have hlen : (map₁.entries ++ order.filterMap old.entryAt).length =
          map.count + ((order.filterMap old.entryAt).length + 1) := by
        rw [length_append, ← hval.count_eq, hcnt₁]
        omega
      obtain ⟨map', hrun, hval', hents', hcap', hord'⟩ := ih hval
        (hcap ▸ hbig) (by rw [hord hkey, hmat, hcnt₁]) (by rw [hlen, hcap]; omega)
        (by rw [hlen]; omega) hnd
      exact ⟨map', hrun, hval', hents', hcap'.trans hcap, hord'⟩

theorem Valid.rebuild_spec {map : GrayMap V} (h : map.Valid seed) (fuel : ℕ) (newCapacity : ℤ)
    (hcnt : map.count ≤ 3 * 2 ^ 27)
    (hroom : map.count * 4 ≤ grayMapRoundCapacity newCapacity * 3)
    (hbig : grayMapRoundCapacity newCapacity ≠ 2 ^ 30 ∨ map.order = []) :
    ∃ map', mapRebuild (grayMapSet seed (fuel + 1)) map newCapacity = some map' ∧
      map'.Valid seed ∧ map'.entries = map.entries ∧
      map'.capacity = grayMapRoundCapacity newCapacity ∧ map'.order.length = map'.count := by
  obtain ⟨hval, hents⟩ : (grayMapNewKind newCapacity : GrayMap V).Valid seed ∧
      (grayMapNewKind newCapacity : GrayMap V).entries = [] := new_spec newCapacity
  have hall : (grayMapNewKind newCapacity : GrayMap V).entries ++
      map.order.filterMap map.entryAt = map.entries := by
    rw [hents]
    rfl
  rcases hbig with hbig | hempty
  swap
  · rw [mapRebuild, hempty]
    exact ⟨_, rfl, hval, by rw [hents, entries, hempty, filterMap_nil], rfl, rfl⟩
  obtain ⟨map', hrun, hval', hents', hcap', hord'⟩ := reinsert_spec fuel map
    map.order hval hbig rfl (by rw [hall, ← h.count_eq]; exact hroom)
    (by rw [hall, ← h.count_eq]; exact hcnt) (by rw [hall]; exact h.nodup_keys)
  exact ⟨map', hrun, hval', hents'.trans hall, hcap', hord'⟩

namespace Valid

variable {map : GrayMap V} (h : map.Valid seed) (fuel : ℕ)

include h

theorem count_eq_zero (hbig : map.capacity = 2 ^ 30) : map.count = 0 := by
  rw [h.count_eq, entries, h.large hbig]
  rfl

theorem grow_spec (hcnt : map.count < 3 * 2 ^ 27) (hloaded : isLoaded map) :
    ∃ map', mapRebuild (grayMapSet seed (fuel + 1)) map (int32 (map.capacity * 2)) = some map' ∧
      map'.Valid seed ∧ map'.entries = map.entries ∧ map'.capacity ≠ 2 ^ 30 ∧
      map'.count * 4 < map'.capacity * 3 := by
  by_cases hbig : map.capacity = 2 ^ 30
  · have hrnd : grayMapRoundCapacity (int32 (map.capacity * 2)) = 8 := by
      rw [hbig]
      decide
    have hzero := h.count_eq_zero hbig
    obtain ⟨map', hrun, hval, hents, hcap, -⟩ := h.rebuild_spec fuel
      (int32 (map.capacity * 2)) (by omega) (by omega) (Or.inl (by rw [hrnd]; decide))
    have hcnt' : map'.count = map.count := by rw [hval.count_eq, hents, h.count_eq]
    exact ⟨map', hrun, hval, hents, by rw [hcap, hrnd]; decide, by
      rw [hcap, hrnd]
      omega⟩
  · obtain ⟨k, hk, hk', hcap⟩ := h.capacity_eq
    have hload := (h.isLoaded_iff hcnt hbig).mp hloaded
    have hsml : k < 29 := by
      by_contra hge
      have hpow : 2 ^ 29 ≤ 2 ^ k := Nat.pow_le_pow_right (by decide) (Nat.not_lt.mp hge)
      omega
    have hpow : 2 ^ k < 2 ^ 29 := Nat.pow_lt_pow_right (by decide) hsml
    have hdbl : map.capacity * 2 = 2 ^ (k + 1) := by rw [hcap, Nat.pow_succ]
    have hint : int32 (map.capacity * 2) = ((2 ^ (k + 1) : ℕ) : ℤ) := by
      rw [int32_eq (by omega) (by omega), ← hdbl]
      rfl
    have hrnd : grayMapRoundCapacity (int32 (map.capacity * 2)) = map.capacity * 2 := by
      rw [hint, roundCapacity_two_pow (by omega) (by omega), hdbl]
    have hne : map.capacity * 2 ≠ 2 ^ 30 := by omega
    have hpos := h.capacity_pos
    have hle := h.load
    obtain ⟨map', hrun, hval, hents, hcap', -⟩ := h.rebuild_spec fuel
      (int32 (map.capacity * 2)) (by omega) (by rw [hrnd]; omega) (Or.inl (by rwa [hrnd]))
    have hcnt' : map'.count = map.count := by rw [hval.count_eq, hents, h.count_eq]
    exact ⟨map', hrun, hval, hents, by rwa [hcap', hrnd], by
      rw [hcap', hrnd]
      omega⟩

theorem squeeze_spec (hcnt : map.count < 3 * 2 ^ 27) :
    ∃ map', mapRebuild (grayMapSet seed (fuel + 1)) map map.capacity = some map' ∧
      map'.Valid seed ∧ map'.entries = map.entries ∧ map'.capacity = map.capacity ∧
      map'.order.length = map'.count := by
  obtain ⟨k, hk, hk', hcap⟩ := h.capacity_eq
  have hrnd : grayMapRoundCapacity map.capacity = map.capacity := by
    rw [hcap]
    exact roundCapacity_two_pow hk hk'
  have hbig : grayMapRoundCapacity map.capacity ≠ 2 ^ 30 ∨ map.order = [] := by
    rw [hrnd]
    by_cases hbig : map.capacity = 2 ^ 30
    · exact Or.inr (h.large hbig)
    · exact Or.inl hbig
  obtain ⟨map', hrun, hval, hents, hcap', hord⟩ := h.rebuild_spec fuel map.capacity
    (by omega) (by rw [hrnd]; exact h.load) hbig
  exact ⟨map', hrun, hval, hents, hcap'.trans hrnd, hord⟩

theorem set_spec (hcnt : map.count < 3 * 2 ^ 27) (key : Text) (value : V) :
    ∃ map', grayMapSet seed (fuel + 2) map key value = some map' ∧ map'.Valid seed ∧
      map'.entries = Entries.set map.entries key value := by
  -- First the load factor, then the room in the order array.
  obtain ⟨map₁, hgrow, hval₁, hents₁, hbig₁, hload₁⟩ : ∃ map₁,
      (if isLoaded map then mapRebuild (grayMapSet seed (fuel + 1)) map (int32 (map.capacity * 2))
        else some map) = some map₁ ∧ map₁.Valid seed ∧ map₁.entries = map.entries ∧
        map₁.capacity ≠ 2 ^ 30 ∧ map₁.count * 4 < map₁.capacity * 3 := by
    by_cases hloaded : isLoaded map
    · rw [if_pos hloaded]
      exact h.grow_spec fuel hcnt hloaded
    · rw [if_neg hloaded]
      have hbig : map.capacity ≠ 2 ^ 30 := fun hbig => hloaded (h.isLoaded_large hbig)
      exact ⟨map, rfl, h, rfl, hbig, Nat.lt_of_not_le ((h.isLoaded_iff hcnt hbig).not.mp hloaded)⟩
  have hcnt₁ : map₁.count = map.count := by rw [hval₁.count_eq, hents₁, h.count_eq]
  obtain ⟨map₂, hsqueeze, hval₂, hents₂, hcap₂, hord₂⟩ : ∃ map₂,
      (if map₁.capacity ≤ map₁.order.length then
        mapRebuild (grayMapSet seed (fuel + 1)) map₁ map₁.capacity else some map₁) = some map₂ ∧
        map₂.Valid seed ∧ map₂.entries = map₁.entries ∧ map₂.capacity = map₁.capacity ∧
        map₂.order.length < map₂.capacity := by
    by_cases hfull : map₁.capacity ≤ map₁.order.length
    · rw [if_pos hfull]
      obtain ⟨map₂, hrun, hval₂, hents₂, hcap₂, hord₂⟩ := hval₁.squeeze_spec fuel (by omega)
      have hcnt₂ : map₂.count = map₁.count := by
        rw [hval₂.count_eq, hents₂, hval₁.count_eq]
      exact ⟨map₂, hrun, hval₂, hents₂, hcap₂, by omega⟩
    · rw [if_neg hfull]
      exact ⟨map₁, rfl, hval₁, rfl, rfl, Nat.lt_of_not_le hfull⟩
  have hcnt₂ : map₂.count = map₁.count := by
    rw [hval₂.count_eq, hents₂, hval₁.count_eq]
  obtain ⟨map', hplc, hval', hents', -⟩ := hval₂.place_spec (by omega) hord₂
    (hcap₂ ▸ hbig₁) key value
  refine ⟨map', ?_, hval', by rw [hents', hents₂, hents₁]⟩
  rw [grayMapSet, hgrow, bind_some, hsqueeze, bind_some, hplc]

end Valid

end GrayMap

/-! ### Runs -/

inductive MapOp (V : Type*)
  | set (key : Text) (value : V)
  | remove (key : Text)
  | clear
  | copy

section Runs

variable (seed : UInt64) (fuel : ℕ)

/-- One operation; a copy goes on in place of its source. -/
def runOp (map : GrayMap V) : MapOp V → Option (GrayMap V)
  | .set key value => grayMapSet seed fuel map key value
  | .remove key => some (grayMapRemove seed map key).1
  | .clear => some (grayMapClear map)
  | .copy => some (grayMapCopy map)

/-- A sequence of operations. -/
def runOps (map : GrayMap V) (ops : List (MapOp V)) : Option (GrayMap V) :=
  ops.foldlM (runOp seed fuel) map

/-- One operation on a list of entries in insertion order. -/
def entriesOp (l : List (Text × V)) : MapOp V → List (Text × V)
  | .set key value => Entries.set l key value
  | .remove key => Entries.erase l key
  | .clear => []
  | .copy => l

/-- The entries after a sequence of operations. -/
def runEntries (ops : List (MapOp V)) : List (Text × V) := ops.foldl entriesOp []

/-- The value last set for a key and not removed since. -/
def valueAfter (key : Text) (ops : List (MapOp V)) : Option V :=
  ops.foldl (fun last op => match op with
    | .set key' value => if key = key' then some value else last
    | .remove key' => if key = key' then none else last
    | .clear => none
    | .copy => last) none

/-- The map agrees with what the operations did. -/
structure Agrees (ops : List (MapOp V)) (map : GrayMap V) : Prop where
  /-- The walk along the order array gives the entries in insertion order. -/
  entries_eq : map.entries = runEntries ops
  nodup : (Entries.keys map.entries).Nodup
  mem_keys : ∀ key, key ∈ Entries.keys map.entries ↔ valueAfter key ops ≠ none
  get_eq : ∀ key, grayMapGet seed map key = valueAfter key ops
  has_eq : ∀ key, grayMapHas seed map key = (valueAfter key ops).isSome
  count_eq : map.count = (runEntries ops).length
  unique : ∀ s < map.capacity, ∀ s' < map.capacity, ∀ e e', map.slots s = .occupied e →
    map.slots s' = .occupied e' → e.key = e'.key → s = s'
  order_le : map.order.length ≤ map.capacity
  /-- Growth, where it is due, changes nothing of this. -/
  grow : isLoaded map → ∃ map',
    mapRebuild (grayMapSet seed fuel) map (int32 (map.capacity * 2)) = some map' ∧
      map'.entries = map.entries ∧ ∀ key, grayMapGet seed map' key = grayMapGet seed map key
  /-- Neither does a rebuild at the same capacity. -/
  squeeze : ∃ map', mapRebuild (grayMapSet seed fuel) map map.capacity = some map' ∧
    map'.entries = map.entries ∧ ∀ key, grayMapGet seed map' key = grayMapGet seed map key

end Runs

theorem find_runEntries (key : Text) (ops : List (MapOp V)) :
    Entries.find (runEntries ops) key = valueAfter key ops := by
  induction ops using List.reverseRecOn with
  | nil => rfl
  | append_singleton ops op ih =>
    rw [runEntries, valueAfter, foldl_append, foldl_append, ← runEntries, ← valueAfter, ← ih]
    cases op with
    | set key' value => exact Entries.find_set _ _ _ _
    | remove key' => exact Entries.find_erase _ _ _
    | clear => rfl
    | copy => rfl

theorem runOps_spec (seed : UInt64) {fuel : ℕ} (hfuel : 2 ≤ fuel) (hint : ℤ)
    (ops : List (MapOp V)) (hcnts : ∀ pre, pre <+: ops → (runEntries pre).length < 3 * 2 ^ 27) :
    ∃ map, runOps seed fuel (grayMapNewKind hint) ops = some map ∧ map.Valid seed ∧
      map.entries = runEntries ops := by
  induction ops using List.reverseRecOn with
  | nil => exact ⟨_, rfl, GrayMap.new_spec hint⟩
  | append_singleton ops op ih =>
    obtain ⟨map, hrun, hval, hents⟩ := ih fun pre hpre =>
      hcnts pre (hpre.trans (prefix_append _ _))
    have hcnt : map.count < 3 * 2 ^ 27 := by
      rw [hval.count_eq, hents]
      exact hcnts ops (prefix_append _ _)
    obtain ⟨fuel, rfl⟩ := Nat.exists_eq_add_of_le' hfuel
    have hstep : ∃ map', runOp seed (fuel + 2) map op = some map' ∧ map'.Valid seed ∧
        map'.entries = entriesOp map.entries op := by
      cases op with
      | set key value => exact hval.set_spec fuel hcnt key value
      | remove key =>
        obtain ⟨hval', hents', -⟩ := hval.remove_spec key
        exact ⟨_, rfl, hval', hents'⟩
      | clear => exact ⟨_, rfl, hval.clear_spec⟩
      | copy => exact ⟨_, rfl, hval.copy_spec⟩
    obtain ⟨map', hop, hval', hents'⟩ := hstep
    refine ⟨map', ?_, hval', ?_⟩
    · rw [runOps, foldlM_append, ← runOps, hrun]
      simpa using hop
    · rw [hents', hents]
      simp only [runEntries, foldl_append]
      rfl

theorem length_runEntries_le (ops : List (MapOp V)) : (runEntries ops).length ≤ ops.length := by
  induction ops using List.reverseRecOn with
  | nil => exact le_rfl
  | append_singleton ops op ih =>
    rw [runEntries, foldl_append, ← runEntries, length_append, length_singleton]
    cases op with
    | set key value =>
      have hlen := Entries.length_set (runEntries ops) key value
      simp only [foldl_cons, foldl_nil, entriesOp]
      split_ifs at hlen <;> omega
    | remove key =>
      have hle := length_filter_le (fun e => decide (e.1 ≠ key)) (runEntries ops)
      simp only [foldl_cons, foldl_nil, entriesOp, Entries.erase]
      omega
    | clear => exact Nat.zero_le _
    | copy => exact Nat.le_succ_of_le ih

end Grayscale.HashMaps
