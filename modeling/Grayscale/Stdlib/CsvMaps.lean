import Grayscale.Library.DecimalText
import Grayscale.Runtime.MapLaws
import Grayscale.Stdlib.CsvGrammar

/-!
# Tables as maps

`gray_csv_to_maps` and `gray_csv_from_maps`: the rows of a table below its header as maps from the
cells of the header, and back. The header of maps is the union of their keys, in the order in which
they are first seen.
-/

namespace Grayscale

open HashMaps DecimalText List

/-! ### The functions -/

def csvCell (row : List Text) (j : ℕ) : Text := row.getD j []

/-- The map of a row, in `gray_csv_to_maps`. -/
def csvRowMap (seed : UInt64) (fuel : ℕ) (header row : List Text) : Option (GrayMap Text) :=
  (List.range (min row.length header.length)).foldlM
    (fun map j => grayMapSet seed fuel map (csvCell header j) (csvCell row j))
    (grayMapNewKind (if 0 < header.length then header.length else 8))

def grayCsvToMaps (seed : UInt64) (fuel : ℕ) : List (List Text) → Option (List (GrayMap Text))
  | [] => some []
  | header :: rows => rows.mapM (csvRowMap seed fuel header)

/-- A key that is not in the header is pushed to it. The header starts with room for 8 cells and
doubles, up to `2 ^ 30` cells. -/
def csvPushKey (header : List Text) (key : Text) : Except String (List Text) :=
  if header.any (· == key) then .ok header
  else if header.length < 2 ^ 30 then .ok (header ++ [key])
  else .error "P0130"

/-- The header of maps, in `gray_csv_from_maps`. -/
def csvHeader (maps : List (GrayMap Text)) : Except String (List Text) :=
  maps.foldlM (fun header map => map.order.foldlM (fun header place =>
    match map.entryAt place with
    | some (key, _) => csvPushKey header key
    | none => .ok header) header) []

def grayCsvFromMaps (seed : UInt64) (maps : List (GrayMap Text)) :
    Except String (List (List Text)) :=
  if maps.isEmpty then .ok []
  else (csvHeader maps).map fun header =>
    header :: maps.map fun map => header.map fun key => (grayMapGet seed map key).getD []

/-! ### Keys in the order in which they are first seen -/

def seeKey (header : List Text) (key : Text) : List Text :=
  if key ∈ header then header else header ++ [key]

/-- The keys without those that were seen before. -/
def firstSeen (keys : List Text) : List Text := keys.foldl seeKey []

theorem nodup_seeKey {header : List Text} (h : header.Nodup) (key : Text) :
    (seeKey header key).Nodup := by
  unfold seeKey
  split_ifs with hmem
  · exact h
  · rw [nodup_append]
    exact ⟨h, nodup_singleton key, fun a ha b hb => by
      rw [mem_singleton.mp hb]
      exact fun heq => hmem (heq ▸ ha)⟩

theorem mem_seeKey {header : List Text} {key key' : Text} :
    key' ∈ seeKey header key ↔ key' ∈ header ∨ key' = key := by
  unfold seeKey
  split_ifs with hmem
  · exact ⟨.inl, fun h => h.elim id fun heq => heq ▸ hmem⟩
  · rw [mem_append, mem_singleton]

theorem nodup_foldl_seeKey {header : List Text} (h : header.Nodup) (keys : List Text) :
    (keys.foldl seeKey header).Nodup := by
  induction keys generalizing header with
  | nil => exact h
  | cons key keys ih => exact ih (nodup_seeKey h key)

theorem mem_foldl_seeKey {header keys : List Text} {key : Text} :
    key ∈ keys.foldl seeKey header ↔ key ∈ header ∨ key ∈ keys := by
  induction keys generalizing header with
  | nil => exact ⟨.inl, fun h => h.elim id fun hn => (not_mem_nil hn).elim⟩
  | cons k keys ih =>
    rw [foldl_cons, ih, mem_seeKey, mem_cons, or_assoc]

theorem nodup_firstSeen (keys : List Text) : (firstSeen keys).Nodup :=
  nodup_foldl_seeKey nodup_nil keys

theorem mem_firstSeen {keys : List Text} {key : Text} : key ∈ firstSeen keys ↔ key ∈ keys :=
  mem_foldl_seeKey.trans (or_iff_right (not_mem_nil))

theorem length_le_foldl_seeKey (header keys : List Text) :
    header.length ≤ (keys.foldl seeKey header).length := by
  induction keys generalizing header with
  | nil => exact le_rfl
  | cons key keys ih =>
    refine Nat.le_trans ?_ (ih (seeKey header key))
    unfold seeKey
    split_ifs
    · exact le_rfl
    · rw [length_append]
      omega

theorem foldl_seeKey_of_nodup {header keys : List Text} (h : (header ++ keys).Nodup) :
    keys.foldl seeKey header = header ++ keys := by
  induction keys generalizing header with
  | nil => rw [foldl_nil, append_nil]
  | cons key keys ih =>
    have hnew : key ∉ header := fun hmem =>
      (nodup_append.mp h).2.2 key hmem key mem_cons_self rfl
    rw [foldl_cons, seeKey, if_neg hnew, ih (by rwa [append_assoc]), append_assoc]
    rfl

theorem foldl_seeKey_of_subset {header keys : List Text} (h : ∀ key ∈ keys, key ∈ header) :
    keys.foldl seeKey header = header := by
  induction keys with
  | nil => rfl
  | cons key keys ih =>
    obtain ⟨hkey, hkeys⟩ := forall_mem_cons.mp h
    rw [foldl_cons, seeKey, if_pos hkey, ih hkeys]

theorem foldlM_csvPushKey (keys : List Text) {header : List Text} (hhead : header.length ≤ 2 ^ 30) :
    keys.foldlM csvPushKey header =
      if (keys.foldl seeKey header).length ≤ 2 ^ 30 then .ok (keys.foldl seeKey header)
      else .error "P0130" := by
  induction keys generalizing header with
  | nil => exact (if_pos hhead).symm
  | cons key keys ih =>
    have hany : header.any (· == key) = true ↔ key ∈ header := by simp
    rw [foldlM_cons, foldl_cons, csvPushKey, seeKey]
    by_cases hmem : key ∈ header
    · rw [if_pos (hany.mpr hmem), if_pos hmem]
      exact ih hhead
    · rw [if_neg fun h => hmem (hany.mp h), if_neg hmem]
      by_cases hroom : header.length < 2 ^ 30
      · rw [if_pos hroom]
        exact ih (by rw [length_append]; exact hroom)
      · have hle := length_le_foldl_seeKey (header ++ [key]) keys
        rw [length_append, length_singleton] at hle
        rw [if_neg hroom, if_neg (by omega)]
        rfl

def mapsKeys (maps : List (GrayMap Text)) : List Text :=
  maps.flatMap fun map => Entries.keys map.entries

theorem csvHeader_eq (maps : List (GrayMap Text)) :
    csvHeader maps = if (firstSeen (mapsKeys maps)).length ≤ 2 ^ 30 then
      .ok (firstSeen (mapsKeys maps)) else .error "P0130" := by
  have hord : ∀ (map : GrayMap Text) (places : List (Option ℕ)) (header : List Text),
      places.foldlM (fun header place =>
        match map.entryAt place with
        | some (key, _) => csvPushKey header key
        | none => .ok header) header =
      (Entries.keys (places.filterMap map.entryAt)).foldlM csvPushKey header := by
    intro map places
    induction places with
    | nil => exact fun _ => rfl
    | cons place places ih =>
      intro header
      rw [foldlM_cons, filterMap_cons]
      cases map.entryAt place with
      | none => exact ih header
      | some m =>
        rw [Entries.keys_cons, foldlM_cons]
        exact congrArg _ (funext ih)
  have hmaps : ∀ (maps : List (GrayMap Text)) (header : List Text),
      maps.foldlM (fun header map => map.order.foldlM (fun header place =>
        match map.entryAt place with
        | some (key, _) => csvPushKey header key
        | none => .ok header) header) header = (mapsKeys maps).foldlM csvPushKey header := by
    intro maps
    induction maps with
    | nil => exact fun _ => rfl
    | cons map maps ih =>
      intro header
      rw [foldlM_cons, hord, mapsKeys, flatMap_cons, foldlM_append]
      exact congrArg _ (funext ih)
  rw [csvHeader, hmaps, foldlM_csvPushKey _ (Nat.zero_le _)]
  rfl

/-! ### The maps of rows -/

theorem zip_eq_map_range {header row : List Text} (h : row.length = header.length) :
    header.zip row = (List.range (min row.length header.length)).map fun j =>
      (csvCell header j, csvCell row j) := by
  refine ext_getElem (by simp [h]) fun i hi _ => ?_
  rw [length_zip] at hi
  rw [getElem_zip, getElem_map, getElem_range, csvCell, csvCell,
    getD_eq_getElem _ _ (by omega), getD_eq_getElem _ _ (by omega)]

theorem keys_zip {header row : List Text} (h : row.length = header.length) :
    Entries.keys (header.zip row) = header := map_fst_zip h.ge

variable (seed : UInt64) {fuel : ℕ}

theorem csvRowMap_spec (hfuel : 2 ≤ fuel) {header row : List Text}
    (hlen : row.length = header.length) (hnd : header.Nodup)
    (hcnt : header.length < 3 * 2 ^ 27) :
    ∃ map, csvRowMap seed fuel header row = some map ∧ map.Valid seed ∧
      map.entries = header.zip row := by
  obtain ⟨ops, hops⟩ : ∃ ops : List (MapOp Text),
    ops = (header.zip row).map fun m => .set m.1 m.2 := ⟨_, rfl⟩
  have hcnts : ∀ pre, pre <+: ops → (runEntries pre).length < 3 * 2 ^ 27 := by
    intro pre hpre
    refine (length_runEntries_le pre).trans_lt (hpre.length_le.trans_lt ?_)
    rw [hops, length_map, length_zip]
    omega
  obtain ⟨map, hrun, hval, hents⟩ :=
    runOps_spec seed hfuel (if 0 < header.length then header.length else 8) ops hcnts
  refine ⟨map, ?_, hval, ?_⟩
  · rw [← hrun, runOps, hops, foldlM_map, zip_eq_map_range hlen, foldlM_map]
    rfl
  · have hfold : runEntries ops = (header.zip row).foldl (fun l m => Entries.set l m.1 m.2) [] := by
      rw [runEntries, hops, foldl_map]
      rfl
    rw [hents, hfold, Entries.foldl_set_of_nodup, nil_append]
    rw [nil_append, keys_zip hlen]
    exact hnd

theorem exists_mapM {α β : Type} {f : α → Option β} {P : α → β → Prop} {l : List α}
    (h : ∀ a ∈ l, ∃ b, f a = some b ∧ P a b) : ∃ m, l.mapM f = some m ∧ List.Forall₂ P l m := by
  induction l with
  | nil => exact ⟨[], rfl, .nil⟩
  | cons a l ih =>
    obtain ⟨⟨b, hb, hP⟩, hl⟩ := forall_mem_cons.mp h
    obtain ⟨m, hm, hforall⟩ := ih hl
    refine ⟨b :: m, ?_, .cons hP hforall⟩
    rw [mapM_cons, hb, hm]
    rfl

theorem grayCsvToMaps_spec (hfuel : 2 ≤ fuel) {header : List Text}
    {rows : List (List Text)} (hlen : ∀ row ∈ rows, row.length = header.length)
    (hnd : header.Nodup) (hcnt : header.length < 3 * 2 ^ 27) :
    ∃ maps, grayCsvToMaps seed fuel (header :: rows) = some maps ∧
      List.Forall₂ (fun row map => map.Valid seed ∧ map.entries = header.zip row) rows maps :=
  exists_mapM fun row hrow => csvRowMap_spec seed hfuel (hlen row hrow) hnd hcnt

theorem map_find_zip {header row : List Text} (hlen : row.length = header.length)
    (hnd : header.Nodup) :
    header.map (fun key => (Entries.find (header.zip row) key).getD []) = row := by
  induction header generalizing row with
  | nil => exact (length_eq_zero_iff.mp hlen).symm
  | cons key header ih =>
    cases row with
    | nil => cases hlen
    | cons cell row =>
      obtain ⟨hkey, hnd⟩ := nodup_cons.mp hnd
      rw [map_cons, zip_cons_cons, Entries.find_cons, if_pos rfl, Option.getD_some]
      refine congrArg (cell :: ·) ((map_congr_left fun key' hkey' => ?_).trans
        (ih (Nat.succ.inj hlen) hnd))
      have hne : key ≠ key' := fun heq => hkey (heq ▸ hkey')
      rw [Entries.find_cons, if_neg hne]

theorem mapsKeys_of_zip {seed : UInt64} {header : List Text} {rows : List (List Text)}
    {maps : List (GrayMap Text)} (hlen : ∀ row ∈ rows, row.length = header.length)
    (h : List.Forall₂ (fun row map => map.Valid seed ∧ map.entries = header.zip row) rows maps) :
    mapsKeys maps = rows.flatMap fun _ => header := by
  induction h with
  | nil => rfl
  | cons hmap _ ih =>
    obtain ⟨hrow, hrows⟩ := forall_mem_cons.mp hlen
    rw [mapsKeys, flatMap_cons, ← mapsKeys, ih hrows, flatMap_cons, hmap.2, keys_zip hrow]

theorem firstSeen_flatMap {header : List Text} (hnd : header.Nodup) {rows : List (List Text)}
    (hrows : rows ≠ []) : firstSeen (rows.flatMap fun _ => header) = header := by
  obtain ⟨row, rows, rfl⟩ := exists_cons_of_ne_nil hrows
  have hfst : header.foldl seeKey [] = header := @foldl_seeKey_of_nodup [] header hnd
  rw [firstSeen, flatMap_cons, foldl_append, hfst]
  refine foldl_seeKey_of_subset fun key hkey => ?_
  obtain ⟨_, -, hkey⟩ := mem_flatMap.mp hkey
  exact hkey

theorem grayCsvFromMaps_toMaps (hfuel : 2 ≤ fuel) {header : List Text}
    {rows : List (List Text)} (hrows : rows ≠ [])
    (hlen : ∀ row ∈ rows, row.length = header.length) (hnd : header.Nodup)
    (hcnt : header.length < 3 * 2 ^ 27) :
    ∃ maps, grayCsvToMaps seed fuel (header :: rows) = some maps ∧
      grayCsvFromMaps seed maps = .ok (header :: rows) := by
  obtain ⟨maps, hmaps, hforall⟩ := grayCsvToMaps_spec seed hfuel hlen hnd hcnt
  refine ⟨maps, hmaps, ?_⟩
  have hne : ¬ maps.isEmpty = true := by
    intro hemp
    rw [List.isEmpty_iff.mp hemp] at hforall
    cases hforall
    exact hrows rfl
  rw [grayCsvFromMaps, if_neg hne, csvHeader_eq, mapsKeys_of_zip hlen hforall,
    firstSeen_flatMap hnd hrows, if_pos (by omega)]
  refine congrArg (fun cells => Except.ok (header :: cells)) ?_
  clear hmaps hne hrows
  induction hforall with
  | nil => rfl
  | cons hmap _ ih =>
    obtain ⟨hrow, hrest⟩ := forall_mem_cons.mp hlen
    rw [map_cons, ih hrest]
    simp only [hmap.1.get_eq, hmap.2, map_find_zip hrow hnd]

/-! ### The table of maps -/

theorem grayCsvFromMaps_spec {maps : List (GrayMap Text)} (hne : maps ≠ []) :
    grayCsvFromMaps seed maps = if (firstSeen (mapsKeys maps)).length ≤ 2 ^ 30 then
      .ok (firstSeen (mapsKeys maps) :: maps.map fun map =>
        (firstSeen (mapsKeys maps)).map fun key => (grayMapGet seed map key).getD [])
      else .error "P0130" := by
  have hemp : ¬ maps.isEmpty = true := fun h => hne (List.isEmpty_iff.mp h)
  rw [grayCsvFromMaps, if_neg hemp, csvHeader_eq]
  split_ifs <;> rfl

theorem mem_mapsKeys {seed : UInt64} {maps : List (GrayMap Text)} {map : GrayMap Text}
    (hmap : map ∈ maps) (hval : map.Valid seed) {key : Text}
    (hkey : (grayMapGet seed map key).isSome = true) : key ∈ mapsKeys maps := by
  refine mem_flatMap.mpr ⟨map, hmap, ?_⟩
  by_contra hnot
  rw [hval.get_eq, Entries.find_eq_none_iff.mpr hnot] at hkey
  cases hkey

/-- What a map becomes: it has every column, with its own values, and the empty string under the
keys of other maps. -/
structure CsvViewOf (seed : UInt64) (maps : List (GrayMap Text)) (map map' : GrayMap Text) :
    Prop where
  valid : map'.Valid seed
  columns : Entries.keys map'.entries = firstSeen (mapsKeys maps)
  own : ∀ key value, grayMapGet seed map key = some value → grayMapGet seed map' key = some value
  other : ∀ key, grayMapGet seed map key = none →
    (∃ other ∈ maps, (grayMapGet seed other key).isSome = true) → grayMapGet seed map' key = some []

theorem grayCsvToMaps_fromMaps (hfuel : 2 ≤ fuel)
    {maps : List (GrayMap Text)} (hne : maps ≠ []) (hvalid : ∀ map ∈ maps, map.Valid seed)
    (hcnt : (firstSeen (mapsKeys maps)).length < 3 * 2 ^ 27) :
    ∃ table maps', grayCsvFromMaps seed maps = .ok table ∧
      grayCsvToMaps seed fuel table = some maps' ∧
      List.Forall₂ (CsvViewOf seed maps) maps maps' := by
  have hspec := grayCsvFromMaps_spec seed hne
  rw [if_pos (by omega)] at hspec
  obtain ⟨header, hhead⟩ : ∃ header, header = firstSeen (mapsKeys maps) := ⟨_, rfl⟩
  have hnd : header.Nodup := hhead ▸ nodup_firstSeen _
  have hmem : ∀ key, key ∈ mapsKeys maps → key ∈ header := fun key hkey =>
    hhead ▸ mem_firstSeen.mpr hkey
  rw [← hhead] at hspec hcnt
  obtain ⟨maps', hmaps', hforall⟩ := @grayCsvToMaps_spec seed fuel hfuel header
    (maps.map fun map => header.map fun key => (grayMapGet seed map key).getD [])
    (fun row hrow => by
      obtain ⟨map, -, rfl⟩ := mem_map.mp hrow
      exact length_map _) hnd hcnt
  refine ⟨_, maps', hspec, hmaps', ?_⟩
  rw [forall₂_map_left_iff] at hforall
  refine (forall₂_iff_zip.mpr ⟨hforall.length_eq, fun {map map'} hzip => ?_⟩)
  obtain ⟨hvalid', hents⟩ := forall₂_zip hforall hzip
  have hmap : map ∈ maps := (of_mem_zip hzip).1
  have hkeys : Entries.keys map'.entries = header := by
    rw [hents]
    exact keys_zip (length_map _)
  have hget : ∀ key ∈ header,
      grayMapGet seed map' key = some ((grayMapGet seed map key).getD []) := by
    intro key hkey
    rw [hvalid'.get_eq, Entries.find_eq_some_iff hvalid'.nodup_keys, hents, ← map_prod_left_eq_zip]
    exact mem_map_of_mem hkey
  refine ⟨hvalid', hkeys.trans hhead, fun key value hval => ?_, fun key hnone hoth => ?_⟩
  · rw [hget key (hmem key (mem_mapsKeys hmap (hvalid map hmap) (by rw [hval]; rfl))), hval]
    rfl
  · obtain ⟨other, hoth, hsome⟩ := hoth
    rw [hget key (hmem key (mem_mapsKeys hoth (hvalid other hoth) hsome)), hnone]
    rfl

/-! ### The columns of a text -/

/-- A number for each text. -/
def textCode : Text → ℕ
  | [] => 0
  | c :: t => c.toNat + 1 + 257 * textCode t

theorem textCode_injective {s t : Text} (h : textCode s = textCode t) : s = t := by
  induction s generalizing t with
  | nil =>
    cases t with
    | nil => rfl
    | cons d t =>
      rw [textCode, textCode] at h
      omega
  | cons c s ih =>
    cases t with
    | nil =>
      rw [textCode, textCode] at h
      omega
    | cons d t =>
      have hc := c.toNat_lt
      have hd := d.toNat_lt
      rw [textCode, textCode] at h
      rw [UInt8.toNat_inj.mp (show c.toNat = d.toNat by omega),
        ih (show textCode s = textCode t by omega)]

theorem textCode_lt (t : Text) : textCode t < 257 ^ t.length := by
  induction t with
  | nil => decide
  | cons c t ih =>
    have hc := c.toNat_lt
    rw [textCode, length_cons, Nat.pow_succ]
    omega

theorem length_short_le {l : List Text} (h : l.Nodup) :
    (l.filter fun t => t.length < 4).length ≤ 257 ^ 3 := by
  have hnd : ((l.filter fun t => t.length < 4).map textCode).Nodup :=
    (h.filter _).map_on fun _ _ _ _ => textCode_injective
  have hsub : (l.filter fun t => t.length < 4).map textCode ⊆ List.range (257 ^ 3) := by
    intro code hcode
    obtain ⟨t, ht, rfl⟩ := mem_map.mp hcode
    have hlen := of_decide_eq_true (mem_filter.mp ht).2
    exact mem_range.mpr ((textCode_lt t).trans_le
      (Nat.pow_le_pow_right (by decide) (by omega)))
  have hle := (subperm_of_subset hnd hsub).length_le
  rwa [length_map, length_range] at hle

theorem four_mul_length_le (l : List Text) :
    4 * l.length ≤ (l.map List.length).sum + 4 * (l.filter fun t => t.length < 4).length := by
  induction l with
  | nil => exact le_rfl
  | cons t l ih =>
    rw [length_cons, map_cons, sum_cons, filter_cons]
    split_ifs with h
    · rw [length_cons]
      omega
    · rw [decide_eq_true_eq] at h
      omega

theorem CsvCell.length_value_le (cell : CsvCell) : cell.value.length ≤ cell.form.length := by
  cases cell with
  | plain text => exact le_rfl
  | quoted text =>
    have hesc : text.length ≤ (text.flatMap csvEscape).length := by
      induction text with
      | nil => exact le_rfl
      | cons c text ih =>
        have hone : 1 ≤ (csvEscape c).length := by
          unfold csvEscape
          split_ifs <;> simp
        rw [flatMap_cons, length_append, length_cons]
        omega
    change text.length ≤ (byte '"' :: (text.flatMap csvEscape ++ [byte '"'])).length
    rw [length_cons, length_append]
    omega

theorem length_joinCells {delim : Text} (hdel : delim ≠ []) (cells : List CsvCell) :
    ((csvValues cells).map List.length).sum + cells.length ≤ (joinCells delim cells).length + 1 := by
  induction cells with
  | nil => exact Nat.zero_le _
  | cons cell cells ih =>
    have hval := cell.length_value_le
    have hpos := length_pos_iff.mpr hdel
    by_cases hcel : cells = []
    · subst hcel
      rw [joinCells, map_singleton, intercalate_singleton, csvValues, map_singleton,
        map_singleton, sum_singleton, length_singleton]
      omega
    · have hne : cells.map CsvCell.form ≠ [] := by simpa using hcel
      rw [joinCells, map_cons, intercalate_cons_of_ne_nil hne, ← joinCells,
        length_append, length_append, csvValues, map_cons, map_cons,
        sum_cons, length_cons, ← csvValues]
      omega

theorem length_header_lt {delim : Text} (hdel : delim ≠ []) {lines : List (List CsvCell × Text)}
    (hlen : (joinLines delim lines).length < 2 ^ 31) {header row : List Text}
    {rows : List (List Text)} (htab : documentValues lines = header :: row :: rows)
    (hnd : header.Nodup) (hrow : row.length = header.length) : header.length < 3 * 2 ^ 27 := by
  match lines, htab, hlen with
  | first :: second :: lines, htab, hlen =>
    simp only [documentValues, map_cons, List.cons.injEq] at htab
    obtain ⟨hfst, hsnd, -⟩ := htab
    have hcel₁ := length_joinCells hdel first.1
    have hcel₂ := length_joinCells hdel second.1
    have hsho := length_short_le hnd
    have hfour := four_mul_length_le header
    rw [hfst] at hcel₁
    have hcnt₁ : first.1.length = header.length := by rw [← hfst, csvValues, length_map]
    have hcnt₂ : second.1.length = header.length := by
      rw [← hrow, ← hsnd, csvValues, length_map]
    rw [joinLines, flatMap_cons, flatMap_cons] at hlen
    simp only [length_append] at hlen
    omega

/-! ### The two functions -/

/-- The parsed tables come back from their maps, and the maps come back with all columns, if there
are not more columns than a map has room for keys. -/
theorem csv_maps_inverse (seed : UInt64) {fuel : ℕ} (hfuel : 2 ≤ fuel) :
    (∀ (codepoint : ℕ) (csvString : Text) (header : List Text) (rows : List (List Text)),
      codepoint ≤ 0x10FFFF → codepoint ≠ 0x22 → codepoint ≠ 0x0A → codepoint ≠ 0x0D →
      csvString.length < 2 ^ 31 →
      csvParseDelimited csvString (csvDelimiterFromCodepoint codepoint) =
        some (.ok (header :: rows)) →
      rows ≠ [] → header.Nodup → (∀ row ∈ rows, row.length = header.length) →
      ∃ maps, grayCsvToMaps seed fuel (header :: rows) = some maps ∧
        grayCsvFromMaps seed maps = .ok (header :: rows)) ∧
    ∀ maps : List (GrayMap Text), maps ≠ [] → (∀ map ∈ maps, map.Valid seed) →
      (firstSeen (mapsKeys maps)).length < 3 * 2 ^ 27 →
      ∃ table maps', grayCsvFromMaps seed maps = .ok table ∧
        grayCsvToMaps seed fuel table = some maps' ∧
        List.Forall₂ (CsvViewOf seed maps) maps maps' := by
  refine ⟨fun codepoint csvString header rows hrng hq hfeed hret hbnd hprs hrows
    hnd hlen => ?_, fun maps hne hval hcnt =>
    grayCsvToMaps_fromMaps seed hfuel hne hval hcnt⟩
  refine grayCsvFromMaps_toMaps seed hfuel hrows hlen hnd ?_
  have hdel := isCsvDelimiter_codepoint hrng hq hfeed hret
  have htext : (withoutByteOrderMark csvString).length ≤ csvString.length := by
    unfold withoutByteOrderMark
    split_ifs
    · rw [length_drop]
      exact Nat.sub_le _ _
    · exact le_rfl
  obtain ⟨row, rows, rfl⟩ := exists_cons_of_ne_nil hrows
  rcases csvRows_spec hdel (Nat.lt_succ_self (withoutByteOrderMark csvString).length) [] with
    ⟨lines, hlns, hrun⟩ | ⟨n, -, hrun⟩
  · have htab := hrun.symm.trans hprs
    rw [nil_append, Option.some.injEq, Except.ok.injEq] at htab
    refine length_header_lt hdel.ne_nil ?_ htab hnd (hlen row mem_cons_self)
    rw [hlns.join_eq]
    omega
  · have herr := hrun.symm.trans hprs
    rw [Option.some.injEq] at herr
    cases herr

/-- A table of two columns, and a map without keys. -/
theorem csv_maps_inverse_two :
    (∃ maps, grayCsvToMaps 7 2 [[bytes "a", bytes "b"], [bytes "1", bytes "2"]] = some maps ∧
      grayCsvFromMaps 7 maps = .ok [[bytes "a", bytes "b"], [bytes "1", bytes "2"]]) ∧
    ∃ table maps', grayCsvFromMaps 7 [grayMapNewKind 8] = .ok table ∧
      grayCsvToMaps 7 2 table = some maps' ∧
      List.Forall₂ (CsvViewOf 7 [grayMapNewKind 8]) [grayMapNewKind 8] maps' := by
  have hinverse := csv_maps_inverse 7 (Nat.le_refl 2)
  refine ⟨hinverse.1 0x2C (bytes "a,b\n1,2\n") _ _ (by decide) (by decide) (by decide) (by decide)
    (by decide) rfl (by decide) (by decide) (by decide), hinverse.2 _ (cons_ne_nil _ _) ?_ ?_⟩
  · intro map hmap
    rw [mem_singleton.mp hmap]
    exact (GrayMap.new_spec 8).1
  · exact (show _ = 0 from rfl).trans_lt (by decide)

theorem exists_map_keys {keys : List Text} (hnd : keys.Nodup)
    (hcnt : keys.length < 3 * 2 ^ 27) :
    ∃ map : GrayMap Text, map.Valid seed ∧ Entries.keys map.entries = keys := by
  obtain ⟨map, -, hval, hents⟩ := csvRowMap_spec seed (Nat.le_refl 2) rfl hnd hcnt
  exact ⟨map, hval, by rw [hents, keys_zip rfl]⟩

/-- Three maps have more keys than a header has room for. -/
theorem not_csv_maps_inverse : ¬ ∀ (seed : UInt64) (fuel : ℕ), 2 ≤ fuel →
      ∀ maps : List (GrayMap Text), maps ≠ [] → (∀ map ∈ maps, map.Valid seed) →
        ∃ table maps', grayCsvFromMaps seed maps = .ok table ∧
          grayCsvToMaps seed fuel table = some maps' ∧
          List.Forall₂ (CsvViewOf seed maps) maps maps' := by
  intro h
  obtain ⟨n, hn⟩ : ∃ n, n = 3 * 2 ^ 27 - 1 := ⟨_, rfl⟩
  obtain ⟨keys, hkeys⟩ : ∃ keys, keys = (List.range (3 * n)).map render := ⟨_, rfl⟩
  have hnd : keys.Nodup := by
    rw [hkeys]
    exact nodup_range.map fun _ _ => render_injective
  have hlen : keys.length = 3 * n := by rw [hkeys, length_map, length_range]
  have hpart : ∀ part : List Text, part.Sublist keys → part.length = n →
      ∃ map : GrayMap Text, map.Valid 7 ∧ Entries.keys map.entries = part := fun part hpart hn' =>
    exists_map_keys 7 (hnd.sublist hpart) (by omega)
  obtain ⟨map₁, hval₁, hkeys₁⟩ := hpart (keys.take n) (take_sublist _ _)
    (by rw [length_take]; omega)
  obtain ⟨map₂, hval₂, hkeys₂⟩ := hpart ((keys.drop n).take n)
    ((take_sublist _ _).trans (drop_sublist _ _))
    (by rw [length_take, length_drop]; omega)
  obtain ⟨map₃, hval₃, hkeys₃⟩ := hpart ((keys.drop n).drop n)
    ((drop_sublist _ _).trans (drop_sublist _ _))
    (by rw [length_drop, length_drop]; omega)
  obtain ⟨table, maps', htab, -⟩ := h 7 2 (Nat.le_refl 2) [map₁, map₂, map₃]
    (cons_ne_nil _ _) (by
      simp only [forall_mem_cons]
      exact ⟨hval₁, hval₂, hval₃, fun _ hnone => (not_mem_nil hnone).elim⟩)
  have hall : mapsKeys [map₁, map₂, map₃] = keys := by
    simp only [mapsKeys, flatMap_cons, flatMap_nil, append_nil, hkeys₁, hkeys₂,
      hkeys₃, take_append_drop]
  have hseen : firstSeen keys = keys := @foldl_seeKey_of_nodup [] keys hnd
  rw [grayCsvFromMaps_spec 7 (cons_ne_nil _ _), hall, hseen, if_neg (by omega)] at htab
  cases htab

end Grayscale
