import Grayscale.Stdlib.JsonDecodeLaws
import Grayscale.Stdlib.StringChars

/-!
# The JSON encoder of maps

`gray_json_encode_map` of string maps, and what the validator and the decoder make of its texts.
-/

namespace Grayscale

open HashMaps List

/-! ### Strings -/

def jsonEscapeOf (character : UInt8) : Text :=
  byte '\\' ::
    if character = byte '"' then [byte '"']
    else if character = byte '\\' then [byte '\\']
    else if character = 0x08 then [byte 'b']
    else if character = 0x0C then [byte 'f']
    else if character = 0x0A then [byte 'n']
    else if character = 0x0D then [byte 'r']
    else if character = 0x09 then [byte 't']
    else [byte 'u', byte '0', byte '0', hexDigit (character >>> 4).toNat,
      hexDigit (character &&& 0xF).toNat]

/-- The loop of `json_append_escaped`: `run` holds the bytes from `run_start` on, that are copied
before the next byte that needs an escape. -/
def jsonEscapeLoop (text run output : Text) : Text :=
  match text with
  | [] => output ++ run
  | character :: rest =>
    if 0x80 ≤ character then
      let decoded := grayUtf8Decode (character :: rest)
      if decoded.1 ≠ replacementCodepoint ∨ decoded.2 ≠ 1 then
        jsonEscapeLoop ((character :: rest).drop decoded.2)
          (run ++ (character :: rest).take decoded.2) output
      else jsonEscapeLoop rest [] (output ++ run ++ [0xEF, 0xBF, 0xBD])
    else if 0x20 ≤ character ∧ character ≠ byte '"' ∧ character ≠ byte '\\' then
      jsonEscapeLoop rest (run ++ [character]) output
    else jsonEscapeLoop rest [] (output ++ run ++ jsonEscapeOf character)
termination_by text.length
decreasing_by
  · have := utf8Decode_pos (character :: rest)
    simp only [length_drop, length_cons]
    omega
  all_goals simp

def jsonAppendEscaped (output string : Text) : Text :=
  jsonEscapeLoop string [] (output ++ [byte '"']) ++ [byte '"']

/-! ### Maps -/

/-- The second pass of `json_encode_map_typed` for strings, along the order array. A slot in that
array is occupied. -/
def jsonEncodeLoop (map : GrayMap Text) : List (Option ℕ) → Bool → Text → Text
  | [], _, output => output
  | none :: order, isFirst, output => jsonEncodeLoop map order isFirst output
  | some slot :: order, isFirst, output =>
    match map.slots slot with
    | .occupied e =>
      let output := if isFirst then output else output ++ [byte ',']
      jsonEncodeLoop map order false
        (jsonAppendEscaped (jsonAppendEscaped output e.key ++ [byte ':']) e.value)
    | _ => jsonEncodeLoop map order isFirst output

def grayJsonEncodeMap (map : GrayMap Text) : Text :=
  jsonEncodeLoop map map.order true [byte '\x7b'] ++ [byte '\x7d']

/-! ### The escaped text -/

theorem JsonCharsValue.escapeOf {c : UInt8} (hc : c < 0x20 ∨ c = byte '"' ∨ c = byte '\\')
    {t d : Text} (ht : JsonCharsValue t d) : JsonCharsValue (jsonEscapeOf c ++ t) (c :: d) := by
  have hesc : ∀ {b : UInt8}, b ∈ jsonEscapes → jsonEscapeByte b = c →
      JsonCharsValue ([byte '\\', b] ++ t) (c :: d) := fun hb hbyte =>
    hbyte ▸ JsonCharsValue.escape hb ht
  unfold jsonEscapeOf
  split_ifs with hq hsla hb hf hn hr ht'
  · exact hesc (by decide) (by rw [hq]; decide)
  · exact hesc (by decide) (by rw [hsla]; decide)
  · exact hesc (by decide) (by rw [hb]; decide)
  · exact hesc (by decide) (by rw [hf]; decide)
  · exact hesc (by decide) (by rw [hn]; decide)
  · exact hesc (by decide) (by rw [hr]; decide)
  · exact hesc (by decide) (by rw [ht']; decide)
  · have hlow : c < 0x20 := by
      rcases hc with hc | hc | hc
      · exact hc
      · exact absurd hc hq
      · exact absurd hc hsla
    have hall : ∀ n < 32, [byte '0', byte '0', hexDigit (UInt8.ofNat n >>> 4).toNat,
        hexDigit (UInt8.ofNat n &&& 0xF).toNat].all isxdigit = true ∧
        codeUnit (byte '0') (byte '0') (hexDigit (UInt8.ofNat n >>> 4).toNat)
          (hexDigit (UInt8.ofNat n &&& 0xF).toNat) = n ∧
        utf8OfCodepoint n = [UInt8.ofNat n] := by decide +kernel
    obtain ⟨hex, hunit, hutf8⟩ := hall c.toNat (UInt8.lt_iff_toNat_lt.mp hlow)
    have hlt : c.toNat < 32 := UInt8.lt_iff_toNat_lt.mp hlow
    rw [UInt8.ofNat_toNat] at hex hunit hutf8
    rw [all_eq_true] at hex
    have hscal := JsonCharsValue.scalar hex (by unfold IsHighSurrogate; omega)
      (by unfold IsLowSurrogate; omega) ht
    rw [hunit, hutf8] at hscal
    exact hscal

theorem JsonCharsValue.plain_append {s : Text}
    (hs : ∀ c ∈ s, 0x20 ≤ c ∧ c ≠ byte '"' ∧ c ≠ byte '\\') {t d : Text}
    (ht : JsonCharsValue t d) : JsonCharsValue (s ++ t) (s ++ d) := by
  induction s with
  | nil => exact ht
  | cons c s ih =>
    obtain ⟨⟨hlow, hq, hsla⟩, hs⟩ := forall_mem_cons.mp hs
    exact .plain hlow hq hsla (ih hs)

theorem jsonEscapeOf_ascii (c : UInt8) : ∀ b ∈ jsonEscapeOf c, b < 0x80 := by
  have hall : ∀ c : UInt8, (jsonEscapeOf c).all (fun b => decide (b < 0x80)) = true :=
    forall_byte (by decide +kernel)
  simpa only [all_eq_true, decide_eq_true_eq] using hall c

theorem escapeLoop_char {c : Text} (hc : Utf8Char c) :
    ∃ e, (∀ t d, JsonCharsValue t d → JsonCharsValue (e ++ t) (c ++ d)) ∧ WellFormedUtf8 e ∧
      ∀ rest b, (∀ run output, jsonEscapeLoop rest run output = output ++ (run ++ b)) →
        ∀ run output, jsonEscapeLoop (c ++ rest) run output = output ++ (run ++ (e ++ b)) := by
  obtain ⟨a, ha, rfl⟩ | hhigh := hc.cases_byte
  · by_cases hpl : 0x20 ≤ a ∧ a ≠ byte '"' ∧ a ≠ byte '\\'
    · refine ⟨[a], fun t d ht => .plain hpl.1 hpl.2.1 hpl.2.2 ht,
        (wellFormed_cons_iff ha).mpr .nil, fun rest b hloop run output => ?_⟩
      rw [singleton_append, jsonEscapeLoop.eq_def]
      simp only [if_neg (UInt8.not_le.mpr ha), if_pos hpl, hloop, append_assoc]
    · have hesc : a < 0x20 ∨ a = byte '"' ∨ a = byte '\\' := by
        by_contra hnot
        simp only [not_or, UInt8.not_lt] at hnot
        exact hpl hnot
      have hutf8 := wellFormed_ascii_append (t := []) (jsonEscapeOf_ascii a)
      rw [append_nil] at hutf8
      refine ⟨jsonEscapeOf a, fun t d ht => ht.escapeOf hesc, hutf8.mpr .nil,
        fun rest b hloop run output => ?_⟩
      rw [singleton_append, jsonEscapeLoop.eq_def]
      simp only [if_neg (UInt8.not_le.mpr ha), if_neg hpl, hloop, append_assoc, nil_append]
  · have hpl : ∀ d ∈ c, 0x20 ≤ d ∧ d ≠ byte '"' ∧ d ≠ byte '\\' := by
      intro d hd
      have hle := hhigh d hd
      refine ⟨UInt8.le_trans (by decide) hle, ?_, ?_⟩ <;>
        · rintro rfl
          exact absurd hle (by decide)
    refine ⟨c, fun t d ht => ht.plain_append hpl, append_nil c ▸ .append hc .nil,
      fun rest b hloop run output => ?_⟩
    have hlen := utf8Decode_of_char hc hhigh rest
    have htwo : c.length ≠ 1 := by
      cases hc with
      | one ha => exact absurd ha (UInt8.not_lt.mpr (hhigh _ mem_cons_self))
      | two | three | four => simp
    obtain ⟨a, u, rfl⟩ := exists_cons_of_ne_nil hc.ne_nil
    rw [cons_append] at hlen ⊢
    rw [jsonEscapeLoop.eq_def]
    simp only [if_pos (hhigh a mem_cons_self), hlen, htwo, ne_eq, not_false_eq_true,
      or_true, if_true]
    rw [← cons_append, drop_left, take_left, hloop]
    simp only [append_assoc]

theorem utf8Char_replacement : Utf8Char [0xEF, 0xBF, 0xBD] :=
  (utf8Char_toUtf8 (n := replacementCodepoint) (by decide)).1

theorem escapeLoop_invalid {a : UInt8} {rest : Text} (ha : 0x80 ≤ a)
    (hdec : grayUtf8Decode (a :: rest) = (replacementCodepoint, 1)) (run output : Text) :
    jsonEscapeLoop (a :: rest) run output =
      jsonEscapeLoop rest [] (output ++ run ++ [0xEF, 0xBF, 0xBD]) := by
  rw [jsonEscapeLoop.eq_def]
  simp [ha, hdec]

/-- A text with every byte that starts no character replaced by `U+FFFD`. -/
def utf8Repaired (s : Text) : Text := (utf8Pieces s).flatMap fun piece =>
    if piece.2 = replacementCodepoint ∧ piece.1.length = 1 then [0xEF, 0xBF, 0xBD] else piece.1

theorem repaired_nil : utf8Repaired [] = [] := by rw [utf8Repaired, utf8Pieces_nil]; rfl

theorem repaired_char {c : Text} (hc : Utf8Char c) (rest : Text) :
    utf8Repaired (c ++ rest) = c ++ utf8Repaired rest := by
  have hone : ¬ (utf8Value c = replacementCodepoint ∧ c.length = 1) := by
    rintro ⟨hval, hlen⟩
    cases hc with
    | one ha =>
      rw [utf8Value] at hval
      rw [UInt8.lt_iff_toNat_lt, hval] at ha
      exact absurd ha (by decide)
    | two | three | four => simp at hlen
  rw [utf8Repaired, utf8Pieces_char hc, flatMap_cons, if_neg hone, ← utf8Repaired]

theorem repaired_invalid {a : UInt8} {rest : Text}
    (hdec : grayUtf8Decode (a :: rest) = (replacementCodepoint, 1)) :
    utf8Repaired (a :: rest) = [0xEF, 0xBF, 0xBD] ++ utf8Repaired rest := by
  rw [utf8Repaired, utf8Pieces_of_ne_nil (cons_ne_nil a rest), hdec, flatMap_cons]
  rfl

theorem repaired_of_wellFormed {s : Text} (hs : WellFormedUtf8 s) : utf8Repaired s = s := by
  induction hs with
  | nil => exact repaired_nil
  | append hc _ ih => rw [repaired_char hc, ih]

theorem escapeLoop_eq (s : Text) : ∃ b, JsonCharsValue b (utf8Repaired s) ∧ WellFormedUtf8 b ∧
      ∀ run output, jsonEscapeLoop s run output = output ++ (run ++ b) := by
  induction hn : s.length using Nat.strong_induction_on generalizing s with
  | _ n ih =>
    subst hn
    by_cases hs : s = []
    · subst hs
      refine ⟨[], by rw [repaired_nil]; exact .nil, .nil, fun run output => ?_⟩
      rw [jsonEscapeLoop.eq_def, append_nil]
    rcases utf8Decode_cases hs with ⟨c, r, hc, rfl, -⟩ | ⟨hnone, hdec⟩
    · have hpos := length_pos_iff.mpr hc.ne_nil
      obtain ⟨b, hval, hutf8, hloop⟩ := ih r.length (by rw [length_append]; omega) r rfl
      obtain ⟨e, he, heUtf8, hchar⟩ := escapeLoop_char hc
      exact ⟨e ++ b, repaired_char hc r ▸ he _ _ hval, heUtf8.concat hutf8, hchar r b hloop⟩
    · obtain ⟨a, r, rfl⟩ := exists_cons_of_ne_nil hs
      have ha : 0x80 ≤ a := UInt8.not_lt.mp fun ha => hnone [a] r rfl (.one ha)
      obtain ⟨b, hval, hutf8, hloop⟩ := ih r.length (Nat.lt_succ_self _) r rfl
      refine ⟨[0xEF, 0xBF, 0xBD] ++ b,
        repaired_invalid hdec ▸ hval.plain_append (by decide +kernel),
        .append utf8Char_replacement hutf8, fun run output => ?_⟩
      rw [escapeLoop_invalid ha hdec, hloop]
      simp only [append_assoc, nil_append]

def jsonStringText (s : Text) : Text := jsonAppendEscaped [] s

theorem stringText_spec (s : Text) :
    JsonStringValue (jsonStringText s) (utf8Repaired s) ∧ WellFormedUtf8 (jsonStringText s) ∧
      ∀ output, jsonAppendEscaped output s = output ++ jsonStringText s := by
  obtain ⟨b, hval, hutf8, hloop⟩ := escapeLoop_eq s
  have htext : ∀ output, jsonAppendEscaped output s = output ++ byte '"' :: (b ++ [byte '"']) := by
    intro output
    rw [jsonAppendEscaped, hloop]
    simp only [append_assoc, nil_append, cons_append]
  have hq : ∀ c ∈ [byte '"'], c < 0x80 := forall_mem_singleton.mpr (by decide)
  rw [jsonStringText, htext, nil_append]
  refine ⟨⟨b, hval, rfl⟩, ?_, htext⟩
  exact (wellFormed_ascii_append hq).mpr
    (hutf8.concat ((wellFormed_ascii_append hq).mpr .nil))

/-! ### Loops that write members -/

/-- The entry that is read back from the text of another one. -/
def repairedEntry (m : Text × Text) : Text × Text := (utf8Repaired m.1, utf8Repaired m.2)

/-- A loop over places that writes the members of those that lead to an entry, with commas between
them. The text of the first member may differ from that of the others in its white space. -/
structure WritesMembers {ι : Type*} (loop : List ι → Bool → Text → Text)
    (entry : ι → Option (Text × Text)) (text : Bool → Text × Text → Text) : Prop where
  nil : ∀ isFirst output, loop [] isFirst output = output
  skip : ∀ {place places}, entry place = none →
    ∀ isFirst output, loop (place :: places) isFirst output = loop places isFirst output
  write : ∀ {place places m}, entry place = some m → ∀ isFirst output,
    loop (place :: places) isFirst output =
      loop places false (output ++ ((if isFirst then [] else [byte ',']) ++ text isFirst m))

theorem WritesMembers.spec {ι : Type*} {loop : List ι → Bool → Text → Text}
    {entry : ι → Option (Text × Text)} {text : Bool → Text × Text → Text}
    (h : WritesMembers loop entry text)
    (hmem : ∀ isFirst m n, JsonMember isspace n (repairedEntry m) (text isFirst m))
    (hutf8 : ∀ isFirst m, WellFormedUtf8 (text isFirst m)) (places : List ι) :
    (places.filterMap entry = [] ∧ ∀ isFirst output, loop places isFirst output = output) ∨
      ∃ s : Bool → Text, ∀ isFirst,
        (∀ n, JsonMembers isspace n ((places.filterMap entry).map repairedEntry) (s isFirst)) ∧
        WellFormedUtf8 (s isFirst) ∧ ∀ output, loop places isFirst output =
          output ++ ((if isFirst then [] else [byte ',']) ++ s isFirst) := by
  induction places with
  | nil => exact .inl ⟨rfl, h.nil⟩
  | cons place places ih =>
    cases hplc : entry place with
    | none =>
      rw [filterMap_cons_none hplc]
      simpa only [h.skip hplc] using ih
    | some m =>
      rw [filterMap_cons_some hplc, map_cons]
      obtain ⟨hnil, hrest⟩ | ⟨s, hs⟩ := ih
      · refine .inr ⟨fun isFirst => text isFirst m, fun isFirst =>
          ⟨fun n => ?_, hutf8 isFirst m, fun output => ?_⟩⟩
        · rw [hnil]
          exact .last (hmem isFirst m n)
        · rw [h.write hplc, hrest]
      · obtain ⟨hmems, hsUtf8, hrest⟩ := hs false
        refine .inr ⟨fun isFirst => text isFirst m ++ byte ',' :: s false, fun isFirst =>
          ⟨fun n => .cons (hmem isFirst m n) (hmems n),
            (hutf8 isFirst m).concat ((wellFormed_cons_iff (by decide)).mpr hsUtf8),
            fun output => ?_⟩⟩
        rw [h.write hplc, hrest]
        simp only [Bool.false_eq_true, if_false, append_assoc, singleton_append]

theorem isBlank_nil : IsBlank isspace [] := by simp [IsBlank]

theorem jsonMember_of_strings {k v name b : Text} (hk : JsonStringValue k name)
    (hv : JsonStringValue v b) (n : ℕ) : JsonMember isspace n (name, b) (k ++ byte ':' :: v) := by
  have hstr : JsonSyntax isspace .value n v := .string hv.isJsonString
  have hmem := JsonMember.mk isBlank_nil hk isBlank_nil isBlank_nil hstr (.inl hv)
    isBlank_nil
  simpa only [nil_append, append_nil] using hmem

/-- A member as `gray_json_encode_map` writes it. -/
def jsonMemberText (_ : Bool) (m : Text × Text) : Text :=
  jsonStringText m.1 ++ byte ':' :: jsonStringText m.2

theorem entryAt_eq_some {map : GrayMap Text} {place : Option ℕ} {m : Text × Text}
    (h : map.entryAt place = some m) :
    ∃ slot, place = some slot ∧ ∃ e, map.slots slot = .occupied e ∧ m = (e.key, e.value) := by
  cases place with
  | none => cases h
  | some slot =>
    cases hslot : map.slots slot with
    | occupied e =>
      simp only [GrayMap.entryAt, Option.bind_some, hslot, Option.some.injEq] at h
      exact ⟨slot, rfl, e, hslot, h.symm⟩
    | empty | tombstone => simp [GrayMap.entryAt, hslot] at h

theorem writesMembers_encode (map : GrayMap Text) :
    WritesMembers (jsonEncodeLoop map) map.entryAt jsonMemberText where
  nil _ _ := rfl
  skip := by
    intro place places hplc isFirst output
    cases place with
    | none => rfl
    | some slot =>
      rw [jsonEncodeLoop]
      cases hslot : map.slots slot with
      | occupied e => simp [GrayMap.entryAt, hslot] at hplc
      | empty | tombstone => rfl
  write := by
    intro place places m hplc isFirst output
    obtain ⟨slot, rfl, e, hslot, rfl⟩ := entryAt_eq_some hplc
    simp only [jsonEncodeLoop, hslot, (stringText_spec _).2.2, jsonMemberText]
    cases isFirst <;> simp

/-! ### The text of a map -/

theorem grayJsonEncodeMap_spec (map : GrayMap Text) :
    (∀ n, ObjectText isspace n (map.entries.map repairedEntry) (grayJsonEncodeMap map) []) ∧
      WellFormedUtf8 (grayJsonEncodeMap map) := by
  have hcl : WellFormedUtf8 [byte '\x7d'] := (wellFormed_cons_iff (by decide)).mpr .nil
  have hmem : ∀ isFirst m n, JsonMember isspace n (repairedEntry m) (jsonMemberText isFirst m) :=
    fun _ m n => jsonMember_of_strings (stringText_spec m.1).1 (stringText_spec m.2).1 n
  have hutf8 : ∀ isFirst m, WellFormedUtf8 (jsonMemberText isFirst m) := fun _ m =>
    (stringText_spec m.1).2.1.concat
      ((wellFormed_cons_iff (by decide)).mpr (stringText_spec m.2).2.1)
  obtain ⟨hnil, hloop⟩ | ⟨s, hs⟩ := (writesMembers_encode map).spec hmem hutf8 map.order
  · have htext : grayJsonEncodeMap map = [] ++ byte '\x7b' :: ([] ++ byte '\x7d' :: []) := by
      rw [grayJsonEncodeMap, hloop]
      rfl
    have hents : map.entries.map repairedEntry = [] := by rw [GrayMap.entries, hnil]; rfl
    refine ⟨fun n => ⟨[], [], isBlank_nil, isBlank_nil, .inl ⟨hents, isBlank_nil⟩, htext⟩, ?_⟩
    rw [htext]
    exact (wellFormed_cons_iff (by decide)).mpr hcl
  · obtain ⟨hmems, hsUtf8, hloop⟩ := hs true
    have htext : grayJsonEncodeMap map = [] ++ byte '\x7b' :: (s true ++ byte '\x7d' :: []) := by
      rw [grayJsonEncodeMap, hloop]
      rfl
    refine ⟨fun n => ⟨[], s true, isBlank_nil, isBlank_nil, .inr (hmems n), htext⟩, ?_⟩
    rw [htext]
    exact (wellFormed_cons_iff (by decide)).mpr (hsUtf8.concat hcl)

theorem map_repairedEntry {l : List (Text × Text)}
    (hutf8 : ∀ e ∈ l, WellFormedUtf8 e.1 ∧ WellFormedUtf8 e.2) : l.map repairedEntry = l := by
  conv_rhs => rw [← map_id l]
  refine map_congr_left fun e he => ?_
  rw [repairedEntry, repaired_of_wellFormed (hutf8 e he).1, repaired_of_wellFormed (hutf8 e he).2]
  rfl

end Grayscale
