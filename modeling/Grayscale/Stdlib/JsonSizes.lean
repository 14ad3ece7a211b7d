import Grayscale.Stdlib.JsonPretty

/-!
# The sizes of JSON texts

The first passes of the encoders of `stdlib/json.c`, which add up the bytes of a text, against the
second passes, which write it.
-/

namespace Grayscale

open HashMaps List

/-! ### The first passes -/

/-- The loop of `json_escaped_len`. -/
def jsonEscapedBody : Text → ℕ
  | [] => 0
  | character :: rest =>
    if 0x80 ≤ character then
      let decoded := grayUtf8Decode (character :: rest)
      (if decoded.1 = replacementCodepoint ∧ decoded.2 = 1 then 3 else decoded.2) +
        jsonEscapedBody ((character :: rest).drop decoded.2)
    else if character = byte '"' ∨ character = byte '\\' then 2 + jsonEscapedBody rest
    else if character = 0x08 ∨ character = 0x0C ∨ character = 0x0A ∨ character = 0x0D ∨
        character = 0x09 then 2 + jsonEscapedBody rest
    else if character < 0x20 then 6 + jsonEscapedBody rest
    else 1 + jsonEscapedBody rest
termination_by text => text.length
decreasing_by
  · have := utf8Decode_pos (character :: rest)
    simp only [length_drop, length_cons]
    omega
  all_goals simp

/-- `json_escaped_len`: with the quotes. -/
def jsonEscapedLen (string : Text) : ℕ := 2 + jsonEscapedBody string

/-- The bytes that are counted for a place of the order array: a comma, the key, a colon and the
value. -/
def jsonMemberNeed (map : GrayMap Text) (place : Option ℕ) : ℕ :=
  match map.entryAt place with
  | none => 0
  | some m => 1 + (jsonEscapedLen m.1 + 1) + jsonEscapedLen m.2

/-- The first pass of `gray_json_encode_map`, in `size_t`. -/
def jsonMapNeed (map : GrayMap Text) : ℕ := (2 + (map.order.map (jsonMemberNeed map)).sum) % 2 ^ 64

/-- The loop of the first pass of `gray_json_encode_array_string`. -/
def jsonArrayNeedLoop : List Text → Bool → ℕ → ℕ
  | [], _, need => need
  | value :: array, isFirst, need =>
    jsonArrayNeedLoop array false ((if isFirst then need else need + 1) + jsonEscapedLen value)

/-- The first pass of `gray_json_encode_array_string`, in `size_t`. -/
def jsonArrayNeed (array : List Text) : ℕ := jsonArrayNeedLoop array true 2 % 2 ^ 64

/-- The loop of the second pass of `gray_json_encode_array_string`. -/
def jsonArrayLoop : List Text → Bool → Text → Text
  | [], _, output => output
  | value :: array, isFirst, output =>
    jsonArrayLoop array false
      (jsonAppendEscaped (if isFirst then output else output ++ [byte ',']) value)

def grayJsonEncodeArrayString (array : List Text) : Text :=
  jsonArrayLoop array true [byte '['] ++ [byte ']']

/-- The loop of the first pass of `gray_json_pretty_map`, over the slots. -/
def jsonPrettyNeedLoop (map : GrayMap Text) (indent : ℕ) : List ℕ → ℕ → ℕ → ℕ
  | [], counted, need => if 0 < counted then need + 1 else need
  | slot :: slots, counted, need =>
    match map.slots slot with
    | .occupied e =>
      jsonPrettyNeedLoop map indent slots (counted + 1)
        ((if 0 < counted then need + 2 else need) +
          (indent + jsonEscapedLen e.key + 2 + jsonEscapedLen e.value))
    | _ => jsonPrettyNeedLoop map indent slots counted need

/-- The first pass of `gray_json_pretty_map`, in `size_t`. -/
def jsonPrettyNeed (map : GrayMap Text) (indentSize : ℤ) : ℕ :=
  jsonPrettyNeedLoop map indentSize.toNat (List.range map.capacity) 0 3 % 2 ^ 64

/-- A text and its NUL are written into a buffer of `need + 1` bytes, at positions of type `int`. -/
def FitsBuffer (need : ℕ) (text : Text) : Prop := text.length + 1 ≤ need + 1 ∧ text.length < 2 ^ 31

instance (need : ℕ) (text : Text) : Decidable (FitsBuffer need text) :=
  inferInstanceAs (Decidable (_ ∧ _))

/-! ### Strings -/

theorem length_jsonEscapeOf {c : UInt8} (h : ¬ (0x20 ≤ c ∧ c ≠ byte '"' ∧ c ≠ byte '\\')) :
    (jsonEscapeOf c).length =
      if c = byte '"' ∨ c = byte '\\' then 2
      else if c = 0x08 ∨ c = 0x0C ∨ c = 0x0A ∨ c = 0x0D ∨ c = 0x09 then 2 else 6 := by
  unfold jsonEscapeOf
  split_ifs <;> simp_all

theorem length_escapeLoop (s run output : Text) :
    (jsonEscapeLoop s run output).length = output.length + run.length + jsonEscapedBody s := by
  fun_induction jsonEscapeLoop s run output with
  | case1 run output => rw [jsonEscapedBody, length_append, Nat.add_zero]
  | case2 run output c rest hc decoded hval ih =>
    have hle := utf8Decode_le (cons_ne_nil c rest)
    have hno : ¬ (decoded.1 = replacementCodepoint ∧ decoded.2 = 1) := by tauto
    rw [ih, jsonEscapedBody, if_pos hc, length_append, length_take, Nat.min_eq_left hle]
    simp only [decoded] at hno ⊢
    rw [if_neg hno]
    omega
  | case3 run output c rest hc decoded hinvalid ih =>
    have hyes : decoded.1 = replacementCodepoint ∧ decoded.2 = 1 := by tauto
    rw [ih, jsonEscapedBody, if_pos hc]
    simp only [decoded] at hyes ⊢
    rw [if_pos hyes, hyes.2, drop_one, tail_cons]
    simp only [length_append, length_cons, length_nil]
    omega
  | case4 run output c rest hc hpl ih =>
    have hq : ¬ (c = byte '"' ∨ c = byte '\\') := by tauto
    have hcontrol : ¬ (c = 0x08 ∨ c = 0x0C ∨ c = 0x0A ∨ c = 0x0D ∨ c = 0x09) := by
      rintro (rfl | rfl | rfl | rfl | rfl) <;> exact absurd hpl.1 (by decide)
    rw [ih, jsonEscapedBody, if_neg hc, if_neg hq, if_neg hcontrol,
      if_neg (UInt8.not_lt.mpr hpl.1), length_append, length_singleton]
    omega
  | case5 run output c rest hc hesc ih =>
    have hlen := length_jsonEscapeOf hesc
    rw [ih, jsonEscapedBody, if_neg hc]
    simp only [length_append, length_nil, hlen]
    split_ifs with hq hcontrol hlow
    · omega
    · omega
    · omega
    · -- a byte that needs an escape, and is no quote and no backslash, is below `0x20`
      refine absurd (UInt8.not_lt.mp hlow) fun hle => hesc ⟨hle, ?_, ?_⟩ <;> tauto

theorem length_jsonAppendEscaped (output s : Text) :
    (jsonAppendEscaped output s).length = output.length + jsonEscapedLen s := by
  rw [jsonAppendEscaped, length_append, length_escapeLoop, length_append, jsonEscapedLen]
  simp only [length_singleton, length_nil]
  omega

theorem length_stringText (s : Text) : (jsonStringText s).length = jsonEscapedLen s := by
  rw [jsonStringText, length_jsonAppendEscaped, length_nil, Nat.zero_add]

/-! ### Members -/

theorem WritesMembers.length {ι : Type*} {loop : List ι → Bool → Text → Text}
    {entry : ι → Option (Text × Text)} {text : Bool → Text × Text → Text}
    (h : WritesMembers loop entry text) {size : Text × Text → ℕ} {gap : ℕ}
    (hsize : ∀ isFirst m, (text isFirst m).length = size m + if isFirst then 0 else gap)
    (places : List ι) (isFirst : Bool) (output : Text) : (loop places isFirst output).length +
        (if isFirst ∧ places.filterMap entry ≠ [] then gap + 1 else 0) =
      output.length + ((places.filterMap entry).map fun m => size m + gap + 1).sum := by
  induction places generalizing isFirst output with
  | nil => simp [h.nil]
  | cons place places ih =>
    cases hplc : entry place with
    | none => rw [h.skip hplc, filterMap_cons_none hplc, ih]
    | some m =>
      have hrest := ih false (output ++ ((if isFirst then [] else [byte ',']) ++ text isFirst m))
      rw [h.write hplc, filterMap_cons_some hplc, map_cons, sum_cons]
      simp only [Bool.false_eq_true, false_and, if_false, Nat.add_zero, length_append,
        hsize] at hrest
      rw [hrest]
      cases isFirst <;> simp <;> omega

/-- The bytes of the members of some entries with commas between them, by those of one member. -/
def membersSize (size : Text × Text → ℕ) (gap : ℕ) (l : List (Text × Text)) : ℕ :=
  (l.map size).sum + (gap + 1) * (l.length - 1)

theorem sum_map_size (size : Text × Text → ℕ) (gap : ℕ) (l : List (Text × Text)) :
    (l.map fun m => size m + gap + 1).sum =
      membersSize size gap l + if l ≠ [] then gap + 1 else 0 := by
  have hsum : ∀ l : List (Text × Text), (l.map fun m => size m + gap + 1).sum =
      (l.map size).sum + (gap + 1) * l.length := by
    intro l
    induction l with
    | nil => rfl
    | cons m l ih =>
      rw [map_cons, sum_cons, ih, map_cons, sum_cons, length_cons, Nat.mul_succ]
      omega
  rw [hsum, membersSize]
  cases l with
  | nil => rfl
  | cons m l =>
    rw [if_pos (cons_ne_nil m l), length_cons, Nat.mul_succ, Nat.add_sub_cancel]
    omega

theorem WritesMembers.length_first {ι : Type*} {loop : List ι → Bool → Text → Text}
    {entry : ι → Option (Text × Text)} {text : Bool → Text × Text → Text}
    (h : WritesMembers loop entry text) {size : Text × Text → ℕ} {gap : ℕ}
    (hsize : ∀ isFirst m, (text isFirst m).length = size m + if isFirst then 0 else gap)
    (places : List ι) (output : Text) : (loop places true output).length =
      output.length + membersSize size gap (places.filterMap entry) := by
  have hlen := h.length hsize places true output
  rw [sum_map_size] at hlen
  simp only [true_and] at hlen
  omega

/-! ### The sizes of the texts -/

/-- The bytes of a member of `gray_json_encode_map`. -/
def jsonMemberSize (m : Text × Text) : ℕ := jsonEscapedLen m.1 + 1 + jsonEscapedLen m.2

/-- The bytes of a member of `gray_json_pretty_map`, without the line feed in front of it. -/
def prettyMemberSize (indent : ℕ) (m : Text × Text) : ℕ :=
  indent + jsonEscapedLen m.1 + 2 + jsonEscapedLen m.2

variable (map : GrayMap Text)

theorem length_grayJsonEncodeMap :
    (grayJsonEncodeMap map).length = 2 + membersSize jsonMemberSize 0 map.entries := by
  have hsize : ∀ isFirst m, (jsonMemberText isFirst m).length =
      jsonMemberSize m + if isFirst then 0 else 0 := by
    intro isFirst m
    simp only [jsonMemberText, length_append, length_cons, length_stringText,
      jsonMemberSize, ite_self]
    omega
  rw [grayJsonEncodeMap, length_append, (writesMembers_encode map).length_first hsize,
    ← GrayMap.entries]
  simp only [length_singleton]
  omega

theorem length_grayJsonPrettyMap (indentSize : ℤ) : (grayJsonPrettyMap map indentSize).length =
      4 + membersSize (prettyMemberSize indentSize.toNat) 1 (slotEntries map) := by
  have hsize : ∀ isFirst m, (prettyMemberText indentSize.toNat isFirst m).length =
      prettyMemberSize indentSize.toNat m + if isFirst then 0 else 1 := by
    intro isFirst m
    rw [prettyMemberText, prettyMemberSize]
    simp only [length_append, length_cons, length_replicate, length_stringText]
    cases isFirst <;> simp <;> omega
  rw [grayJsonPrettyMap, length_append, (writesMembers_pretty map _).length_first hsize,
    ← slotEntries]
  simp only [length_cons, length_nil]
  omega

theorem sum_jsonMemberNeed (order : List (Option ℕ)) : (order.map (jsonMemberNeed map)).sum =
      ((order.filterMap map.entryAt).map fun m => jsonMemberSize m + 0 + 1).sum := by
  induction order with
  | nil => rfl
  | cons place order ih =>
    rw [map_cons, sum_cons, ih, jsonMemberNeed]
    cases hplc : map.entryAt place with
    | none =>
      rw [filterMap_cons_none hplc]
      exact Nat.zero_add _
    | some m =>
      rw [filterMap_cons_some hplc, map_cons, sum_cons, jsonMemberSize]
      simp only
      omega

theorem jsonMapNeed_eq : jsonMapNeed map = (2 + membersSize jsonMemberSize 0 map.entries +
      if map.entries ≠ [] then 1 else 0) % 2 ^ 64 := by
  rw [jsonMapNeed, sum_jsonMemberNeed, sum_map_size jsonMemberSize 0, ← GrayMap.entries,
    Nat.add_assoc]

theorem jsonPrettyNeedLoop_eq (indent : ℕ) (slots : List ℕ)
    (counted need : ℕ) : jsonPrettyNeedLoop map indent slots counted need +
        (if counted = 0 ∧ slots.filterMap (slotEntry map) ≠ [] then 2 else 0) =
      need + ((slots.filterMap (slotEntry map)).map fun m => prettyMemberSize indent m + 1 + 1).sum +
        if counted = 0 ∧ slots.filterMap (slotEntry map) = [] then 0 else 1 := by
  induction slots generalizing counted need with
  | nil =>
    rw [jsonPrettyNeedLoop]
    rcases Nat.eq_zero_or_pos counted with rfl | hpos
    · simp
    · simp [hpos, hpos.ne']
  | cons slot slots ih =>
    rw [jsonPrettyNeedLoop]
    cases hslot : map.slots slot with
    | occupied e =>
      have hent : slotEntry map slot = some (e.key, e.value) := GrayMap.entryAt_of_occupied hslot
      have hrest := ih (counted + 1) ((if 0 < counted then need + 2 else need) +
        (indent + jsonEscapedLen e.key + 2 + jsonEscapedLen e.value))
      simp only [Nat.add_eq_zero_iff, one_ne_zero, and_false, false_and, if_false,
        Nat.add_zero] at hrest
      rw [filterMap_cons_some hent, map_cons, sum_cons, prettyMemberSize]
      simp only
      rw [hrest]
      rcases Nat.eq_zero_or_pos counted with rfl | hpos
      · simp
        omega
      · simp [hpos, hpos.ne']
        omega
    | empty | tombstone =>
      have hent : slotEntry map slot = none := by simp [slotEntry, GrayMap.entryAt, hslot]
      rw [filterMap_cons_none hent]
      exact ih counted need

theorem jsonPrettyNeed_eq (indentSize : ℤ) : jsonPrettyNeed map indentSize = (3 +
      membersSize (prettyMemberSize indentSize.toNat) 1 (slotEntries map) +
      if slotEntries map ≠ [] then 1 else 0) % 2 ^ 64 := by
  have hloop := jsonPrettyNeedLoop_eq map indentSize.toNat (List.range map.capacity) 0 3
  rw [sum_map_size, ← slotEntries] at hloop
  rw [jsonPrettyNeed]
  congr 1
  by_cases h : slotEntries map = []
  · simp only [h, ne_eq, not_true_eq_false, and_false, if_false, and_self, if_true] at hloop ⊢
    omega
  · simp only [h, ne_eq, not_false_eq_true, and_true, if_true, and_false, if_false] at hloop ⊢
    omega

variable (array : List Text)

theorem length_jsonArrayLoop (isFirst : Bool) (output : Text) :
    (jsonArrayLoop array isFirst output).length =
      jsonArrayNeedLoop array isFirst output.length := by
  induction array generalizing isFirst output with
  | nil => rfl
  | cons value array ih =>
    rw [jsonArrayLoop, ih, length_jsonAppendEscaped, jsonArrayNeedLoop]
    cases isFirst <;> simp

theorem jsonArrayNeedLoop_eq (isFirst : Bool) (need : ℕ) :
    jsonArrayNeedLoop array isFirst need + (if isFirst ∧ array ≠ [] then 1 else 0) =
      need + ((array.map jsonEscapedLen).sum + array.length) := by
  induction array generalizing isFirst need with
  | nil => simp [jsonArrayNeedLoop]
  | cons value array ih =>
    have hrest := ih false ((if isFirst then need else need + 1) + jsonEscapedLen value)
    simp only [Bool.false_eq_true, false_and, if_false, Nat.add_zero] at hrest
    rw [jsonArrayNeedLoop, hrest, map_cons, sum_cons, length_cons]
    cases isFirst <;> simp <;> omega

def jsonArraySize (array : List Text) : ℕ := 2 + (array.map jsonEscapedLen).sum + (array.length - 1)

theorem jsonArrayNeedLoop_first (need : ℕ) :
    jsonArrayNeedLoop array true need + 2 = need + jsonArraySize array := by
  have hloop := jsonArrayNeedLoop_eq array true need
  rw [jsonArraySize]
  cases array with
  | nil => simpa using hloop
  | cons value array =>
    simp only [true_and, ne_eq, reduceCtorEq, not_false_eq_true, if_true, length_cons,
      Nat.add_sub_cancel] at hloop ⊢
    omega

/-- A string is written in as many bytes as are counted. The writes of a map, of an array and of an
indented map stay in the buffer exactly when the text is not too long for a position of type `int`
and, for an indented map, there is an entry. -/
theorem jsonSizes_iff (output s : Text) (map : GrayMap Text) (array : List Text)
    (indentSize : ℤ) : (jsonAppendEscaped output s).length = output.length + jsonEscapedLen s ∧
    (FitsBuffer (jsonMapNeed map) (grayJsonEncodeMap map) ↔
      2 + membersSize jsonMemberSize 0 map.entries < 2 ^ 31) ∧
    (FitsBuffer (jsonArrayNeed array) (grayJsonEncodeArrayString array) ↔
      jsonArraySize array < 2 ^ 31) ∧
    (FitsBuffer (jsonPrettyNeed map indentSize) (grayJsonPrettyMap map indentSize) ↔
      slotEntries map ≠ [] ∧
        4 + membersSize (prettyMemberSize indentSize.toNat) 1 (slotEntries map) < 2 ^ 31) := by
  refine ⟨length_jsonAppendEscaped output s, ?_, ?_, ?_⟩
  · rw [FitsBuffer, length_grayJsonEncodeMap, jsonMapNeed_eq]
    refine ⟨fun h => h.2, fun h => ⟨?_, h⟩⟩
    rw [Nat.mod_eq_of_lt (by split_ifs <;> omega)]
    omega
  · have hneed := jsonArrayNeedLoop_first array 2
    have hlen : (grayJsonEncodeArrayString array).length = jsonArraySize array := by
      have hloop := jsonArrayNeedLoop_first array 1
      rw [grayJsonEncodeArrayString, length_append, length_jsonArrayLoop]
      simp only [length_singleton]
      omega
    rw [FitsBuffer, hlen, jsonArrayNeed]
    refine ⟨fun h => h.2, fun h => ⟨?_, h⟩⟩
    rw [Nat.mod_eq_of_lt (by omega)]
    omega
  · rw [FitsBuffer, length_grayJsonPrettyMap, jsonPrettyNeed_eq]
    by_cases hslt : slotEntries map = []
    · -- four bytes are written and three are counted
      refine iff_of_false (fun h => ?_) fun h => h.1 hslt
      have hzero : membersSize (prettyMemberSize indentSize.toNat) 1 [] = 0 := rfl
      rw [hslt, hzero] at h
      exact absurd h.1 (by decide)
    · rw [if_pos hslt]
      refine ⟨fun h => ⟨hslt, h.2⟩, fun h => ⟨?_, h.2⟩⟩
      rw [Nat.mod_eq_of_lt (by omega)]
      omega

/-- The text of the empty map has a byte more than was asked for. -/
theorem not_jsonSizes_empty :
    ¬ ∀ (seed : UInt64) (hint : ℤ) (ops : List (MapOp Text)) (map : GrayMap Text) (indentSize : ℤ),
      runOps seed 2 (grayMapNewKind hint) ops = some map →
      FitsBuffer (jsonPrettyNeed map indentSize) (grayJsonPrettyMap map indentSize) := by
  intro h
  exact absurd (h 7 8 [] (grayMapNewKind 8) 2 rfl) (by decide +kernel)

end Grayscale
