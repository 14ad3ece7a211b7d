import Grayscale.Stdlib.JsonEncode

/-!
# The indented JSON text of a map

`gray_json_pretty_map` of `stdlib/json.c`, which walks the slots of the table, against
`gray_json_encode_map`, which walks the order array.
-/

namespace Grayscale

open HashMaps List

/-! ### The function -/

/-- The second pass of `gray_json_pretty_map`, over the slots. -/
def jsonPrettyLoop (map : GrayMap Text) (indent : ℕ) : List ℕ → Bool → Text → Text
  | [], _, output => output
  | slot :: slots, isFirst, output =>
    match map.slots slot with
    | .occupied e =>
      let output := if isFirst then output else output ++ [byte ',', byte '\n']
      let output := output ++ replicate indent (byte ' ')
      let output := jsonAppendEscaped output e.key ++ [byte ':', byte ' ']
      jsonPrettyLoop map indent slots false (jsonAppendEscaped output e.value)
    | _ => jsonPrettyLoop map indent slots isFirst output

/-- `gray_json_pretty_map`: a size that is not positive is no indent. -/
def grayJsonPrettyMap (map : GrayMap Text) (indentSize : ℤ) : Text :=
  jsonPrettyLoop map indentSize.toNat (List.range map.capacity) true [byte '\x7b', byte '\n'] ++
    [byte '\n', byte '\x7d']

/-! ### The text -/

def slotEntry (map : GrayMap Text) (slot : ℕ) : Option (Text × Text) := map.entryAt (some slot)

def slotEntries (map : GrayMap Text) : List (Text × Text) :=
  (List.range map.capacity).filterMap (slotEntry map)

/-- A member as `gray_json_pretty_map` writes it: the first one is on a line already. -/
def prettyMemberText (indent : ℕ) (isFirst : Bool) (m : Text × Text) : Text :=
  (if isFirst then [] else [byte '\n']) ++ (replicate indent (byte ' ') ++
    (jsonStringText m.1 ++ byte ':' :: byte ' ' :: jsonStringText m.2))

theorem writesMembers_pretty (map : GrayMap Text) (indent : ℕ) :
    WritesMembers (jsonPrettyLoop map indent) (slotEntry map) (prettyMemberText indent) where
  nil _ _ := rfl
  skip := by
    intro slot slots hslot isFirst output
    rw [jsonPrettyLoop]
    cases hsta : map.slots slot with
    | occupied e => simp [slotEntry, GrayMap.entryAt, hsta] at hslot
    | empty | tombstone => rfl
  write := by
    intro slot slots m hslot isFirst output
    obtain ⟨_, heq, e, hsta, rfl⟩ := entryAt_eq_some hslot
    cases heq
    simp only [jsonPrettyLoop, hsta, (stringText_spec _).2.2, prettyMemberText]
    cases isFirst <;> simp

variable (indent : ℕ) (isFirst : Bool)

theorem isBlank_indent :
    IsBlank isspace ((if isFirst then [] else [byte '\n']) ++ replicate indent (byte ' ')) := by
  intro c hc
  rcases mem_append.mp hc with hc | hc
  · cases isFirst
    · rw [mem_singleton.mp hc]
      decide
    · cases hc
  · rw [eq_of_mem_replicate hc]
    decide

theorem jsonMember_pretty (m : Text × Text) (n : ℕ) :
    JsonMember isspace n (repairedEntry m) (prettyMemberText indent isFirst m) := by
  have hval := (stringText_spec m.2).1
  have hsp : IsBlank isspace [byte ' '] := by simp [IsBlank, isspace]
  have hmem := JsonMember.mk (n := n) (isBlank_indent indent isFirst) (stringText_spec m.1).1
    isBlank_nil hsp (.string hval.isJsonString) (.inl hval) isBlank_nil
  rw [repairedEntry]
  simpa only [prettyMemberText, nil_append, append_nil, append_assoc, singleton_append] using hmem

theorem wellFormed_prettyMemberText (m : Text × Text) :
    WellFormedUtf8 (prettyMemberText indent isFirst m) := by
  have hindent : ∀ c ∈ (if isFirst then [] else [byte '\n']) ++ replicate indent (byte ' '),
      c < 0x80 := fun c hc =>
    UInt8.lt_of_le_of_lt (le_of_isspace (isBlank_indent indent isFirst c hc)) (by decide)
  rw [prettyMemberText, ← append_assoc, wellFormed_ascii_append hindent]
  refine (stringText_spec m.1).2.1.concat ?_
  rw [wellFormed_cons_iff (by decide), wellFormed_cons_iff (by decide)]
  exact (stringText_spec m.2).2.1

theorem grayJsonPrettyMap_spec (map : GrayMap Text) (indentSize : ℤ) (n : ℕ) :
    ObjectText isspace n ((slotEntries map).map repairedEntry) (grayJsonPrettyMap map indentSize)
      [] := by
  have hfeed : IsBlank isspace [byte '\n'] := by simp [IsBlank, isspace]
  have hfeeds : IsBlank isspace [byte '\n', byte '\n'] := by simp [IsBlank, isspace]
  obtain ⟨hnil, hloop⟩ | ⟨s, hs⟩ := (writesMembers_pretty map indentSize.toNat).spec
    (jsonMember_pretty indentSize.toNat) (wellFormed_prettyMemberText indentSize.toNat)
    (List.range map.capacity)
  · refine ⟨[], [byte '\n', byte '\n'], isBlank_nil, isBlank_nil, .inl ⟨?_, hfeeds⟩, ?_⟩
    · rw [slotEntries, hnil]
      rfl
    · rw [grayJsonPrettyMap, hloop]
      rfl
  · obtain ⟨hmems, -, hloop⟩ := hs true
    refine ⟨[], byte '\n' :: (s true ++ [byte '\n']), isBlank_nil, isBlank_nil,
      .inr (((hmems n).append_blank hfeed).blank_append hfeed), ?_⟩
    rw [grayJsonPrettyMap, hloop]
    simp

/-! ### The texts read back -/

/-- The entries that a decoder makes of members: those of one name are one entry, with the last
value. -/
def readEntries (l : List (Text × Text)) : List (Text × Text) :=
  (l.map repairedEntry).foldl (fun l m => Entries.set l m.1 m.2) []

/-- The text is decoded to a map with the given entries. -/
def DecodesTo (seed : UInt64) (t : Text) (entries : List (Text × Text)) : Prop :=
  ∃ map, (∀ fuel, t.length ≤ fuel → grayJsonDecode seed fuel t = some (map, [byte '\x7d'])) ∧
    map.entries = entries

variable {seed : UInt64}

theorem DecodesTo.unique {t : Text} {l l' : List (Text × Text)} (h : DecodesTo seed t l)
    (h' : DecodesTo seed t l') : l = l' := by
  obtain ⟨map, hmap, rfl⟩ := h
  obtain ⟨map', hmap', rfl⟩ := h'
  have heq := hmap t.length le_rfl
  rw [hmap' t.length le_rfl, Option.some.injEq, Prod.mk.injEq] at heq
  rw [heq.1]

theorem decodesTo_of_objectText (seed : UInt64) {l : List (Text × Text)} {t : Text}
    (h : ∀ n, ObjectText isspace n (l.map repairedEntry) t []) (ht : t.length < 2 ^ 31) :
    DecodesTo seed t (readEntries l) := by
  obtain ⟨map, hset, -, hents, -⟩ := setMembers_spec seed (named_lt_of_objectText (h 0) ht)
  refine ⟨map, fun fuel hfuel => ?_, hents⟩
  rw [grayJsonDecode_object (h 0) seed hfuel, hset]
  rfl

variable {map : GrayMap Text}

theorem decodesTo_encodeMap (seed : UInt64) (hsize : (grayJsonEncodeMap map).length < 2 ^ 31) :
    DecodesTo seed (grayJsonEncodeMap map) (readEntries map.entries) :=
  decodesTo_of_objectText seed (grayJsonEncodeMap_spec map).1 hsize

theorem decodesTo_prettyMap (seed : UInt64) {indentSize : ℤ}
    (hsize : (grayJsonPrettyMap map indentSize).length < 2 ^ 31) :
    DecodesTo seed (grayJsonPrettyMap map indentSize) (readEntries (slotEntries map)) :=
  decodesTo_of_objectText seed (grayJsonPrettyMap_spec map indentSize) hsize

theorem readEntries_of_nodup {l : List (Text × Text)}
    (h : (Entries.keys (l.map repairedEntry)).Nodup) : readEntries l = l.map repairedEntry := by
  rw [readEntries, Entries.foldl_set_of_nodup [] _ h, nil_append]

theorem mem_slotEntries (hmap : map.Valid seed) {m : Text × Text} :
    m ∈ slotEntries map ↔ m ∈ map.entries := by
  obtain ⟨key, value⟩ := m
  rw [hmap.mem_entries, slotEntries, mem_filterMap]
  constructor
  · rintro ⟨slot, hslot, hent⟩
    obtain ⟨_, heq, e, he, hm⟩ := entryAt_eq_some hent
    cases heq
    obtain ⟨rfl, rfl⟩ := Prod.mk.inj hm
    exact ⟨slot, mem_range.mp hslot, e, he, rfl, rfl⟩
  · rintro ⟨slot, hslot, e, he, rfl, rfl⟩
    exact ⟨slot, mem_range.mpr hslot, GrayMap.entryAt_of_occupied he⟩

theorem nodup_slotEntries (hmap : map.Valid seed) : (slotEntries map).Nodup := by
  rw [slotEntries, List.Nodup, pairwise_filterMap]
  refine List.Pairwise.imp_of_mem ?_ (nodup_range (n := map.capacity))
  intro slot slot' hslot hslot' hne m hm m' hm' heq
  obtain ⟨_, hplc, e, he, rfl⟩ := entryAt_eq_some hm
  cases hplc
  obtain ⟨_, hplc', e', he', rfl⟩ := entryAt_eq_some hm'
  cases hplc'
  exact hne (hmap.unique (mem_range.mp hslot) (mem_range.mp hslot') he he'
    (Prod.mk.inj heq).1)

theorem eq_of_map_repairedEntry {l l' entries : List (Text × Text)}
    (hinj : ∀ m ∈ entries, ∀ m' ∈ entries, repairedEntry m = repairedEntry m' → m = m')
    (hl : ∀ m ∈ l, m ∈ entries) (hl' : ∀ m ∈ l', m ∈ entries)
    (h : l.map repairedEntry = l'.map repairedEntry) : l = l' := by
  induction l generalizing l' with
  | nil => exact (map_eq_nil_iff.mp h.symm).symm
  | cons m l ih =>
    cases l' with
    | nil => cases h
    | cons m' l' =>
      obtain ⟨hm, hl⟩ := forall_mem_cons.mp hl
      obtain ⟨hm', hl'⟩ := forall_mem_cons.mp hl'
      obtain ⟨hhead, htail⟩ := List.cons.inj h
      rw [hinj m hm m' hm' hhead, ih hl hl' htail]

theorem readEntries_slotEntries_iff (hmap : map.Valid seed)
    (hkeys : (Entries.keys (map.entries.map repairedEntry)).Nodup) :
    readEntries (slotEntries map) = readEntries map.entries ↔ slotEntries map = map.entries := by
  refine ⟨fun h => ?_, fun h => by rw [h]⟩
  have hnd : map.entries.Nodup := .of_map _ hmap.nodup_keys
  have hperm : (slotEntries map).Perm map.entries :=
    (perm_ext_iff_of_nodup (nodup_slotEntries hmap) hnd).mpr fun m => mem_slotEntries hmap
  have hslt : (Entries.keys ((slotEntries map).map repairedEntry)).Nodup :=
    ((hperm.map repairedEntry).map Prod.fst).nodup_iff.mpr hkeys
  rw [readEntries_of_nodup hslt, readEntries_of_nodup hkeys] at h
  have hinj := inj_on_of_nodup_map (List.Nodup.of_map _ hkeys)
  exact eq_of_map_repairedEntry (fun m hm m' hm' => hinj hm hm')
    (fun m hm => (mem_slotEntries hmap).mp hm) (fun m hm => hm) h

/-- The two texts are decoded to the same entries in the same order. -/
def DecodedAlike (seed : UInt64) (map : GrayMap Text) (indentSize : ℤ) : Prop :=
  ∃ entries, DecodesTo seed (grayJsonEncodeMap map) entries ∧
    DecodesTo seed (grayJsonPrettyMap map indentSize) entries

theorem decodedAlike_iff {indentSize : ℤ} (hcomp : (grayJsonEncodeMap map).length < 2 ^ 31)
    (hpretty : (grayJsonPrettyMap map indentSize).length < 2 ^ 31) :
    DecodedAlike seed map indentSize ↔ readEntries (slotEntries map) = readEntries map.entries := by
  have hents := decodesTo_encodeMap seed hcomp
  have hslt := decodesTo_prettyMap seed hpretty
  constructor
  · rintro ⟨entries, hcomp, hpretty⟩
    rw [hslt.unique hpretty, hents.unique hcomp]
  · intro h
    exact ⟨_, hents, h ▸ hslt⟩

/-- Both texts are decoded alike exactly when the slots hold the entries in insertion order, up to
keys that are read back as the same name. -/
theorem jsonPretty_iff (hmap : map.Valid seed) {indentSize : ℤ}
    (hcompact : (grayJsonEncodeMap map).length < 2 ^ 31)
    (hpretty : (grayJsonPrettyMap map indentSize).length < 2 ^ 31) :
    (DecodedAlike seed map indentSize ↔ readEntries (slotEntries map) = readEntries map.entries) ∧
    ((Entries.keys (map.entries.map repairedEntry)).Nodup →
      (DecodedAlike seed map indentSize ↔ slotEntries map = map.entries)) :=
  ⟨decodedAlike_iff hcompact hpretty, fun hkeys =>
    (decodedAlike_iff hcompact hpretty).trans (readEntries_slotEntries_iff hmap hkeys)⟩

/-- The map of two keys, made in a table of eight slots with the seed 7. -/
def prettyOps : List (MapOp Text) := [.set (bytes "a") (bytes "1"), .set (bytes "b") (bytes "2")]

theorem exists_prettyMap : ∃ map, runOps 7 2 (grayMapNewKind 8) prettyOps = some map ∧ map.Valid 7 ∧
      (grayJsonEncodeMap map).length < 2 ^ 31 ∧ (grayJsonPrettyMap map 2).length < 2 ^ 31 ∧
      slotEntries map = [(bytes "b", bytes "2"), (bytes "a", bytes "1")] ∧
      map.entries = [(bytes "a", bytes "1"), (bytes "b", bytes "2")] := by
  obtain ⟨map, hrun, hval, -⟩ := runOps_spec 7 (Nat.le_refl 2) 8 prettyOps fun pre hpre =>
    Nat.lt_of_le_of_lt ((length_runEntries_le pre).trans hpre.length_le) (by decide)
  have hfacts : (runOps 7 2 (grayMapNewKind 8) prettyOps).all (fun map =>
      decide ((grayJsonEncodeMap map).length < 2 ^ 31) &&
      decide ((grayJsonPrettyMap map 2).length < 2 ^ 31) &&
      decide (slotEntries map = [(bytes "b", bytes "2"), (bytes "a", bytes "1")]) &&
      decide (map.entries = [(bytes "a", bytes "1"), (bytes "b", bytes "2")])) = true := by
    decide +kernel
  rw [hrun, Option.all_some] at hfacts
  simp only [Bool.and_eq_true, decide_eq_true_eq] at hfacts
  exact ⟨map, hrun, hval, hfacts.1.1.1, hfacts.1.1.2, hfacts.1.2, hfacts.2⟩

theorem jsonPretty_iff_swapped :
    ∃ map, runOps 7 2 (grayMapNewKind 8) prettyOps = some map ∧ ¬ DecodedAlike 7 map 2 := by
  obtain ⟨map, hrun, hval, hcomp, hpretty, hslt, hents⟩ := exists_prettyMap
  have hkeys : (Entries.keys (map.entries.map repairedEntry)).Nodup := by
    rw [hents]
    decide +kernel
  refine ⟨map, hrun, ?_⟩
  rw [(jsonPretty_iff hval hcomp hpretty).2 hkeys, hslt, hents]
  decide

/-- The text of `gray_json_pretty_map` lists the second key first. -/
theorem not_jsonPretty_swapped :
    ¬ ∀ (seed : UInt64) (hint : ℤ) (ops : List (MapOp Text)) (map : GrayMap Text) (indentSize : ℤ),
      runOps seed 2 (grayMapNewKind hint) ops = some map → (grayJsonEncodeMap map).length < 2 ^ 31 →
      (grayJsonPrettyMap map indentSize).length < 2 ^ 31 → DecodedAlike seed map indentSize := by
  intro h
  obtain ⟨map, hrun, hval, hcomp, hpretty, hslt, hents⟩ := exists_prettyMap
  have hread := (decodedAlike_iff hcomp hpretty).mp (h 7 8 prettyOps map 2 hrun hcomp hpretty)
  have hkeys : (Entries.keys (map.entries.map repairedEntry)).Nodup := by
    rw [hents]
    decide +kernel
  rw [readEntries_slotEntries_iff hval hkeys, hslt, hents] at hread
  exact absurd hread (by decide)

end Grayscale
