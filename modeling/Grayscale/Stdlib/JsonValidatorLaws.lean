import Grayscale.Stdlib.JsonValidator
import Grayscale.Stdlib.Utf8

/-!
# What the JSON validator accepts

The recursive descent against the grammar of JSON, and the texts on which `gray_json_is_valid` and
RFC 8259 agree.
-/

namespace Grayscale

open Validation List

/-! ### White space -/

theorem exists_blank (l : Text) : ∃ w, IsBlank isspace w ∧ l = w ++ skipWhitespace l :=
  ⟨l.takeWhile isspace, fun _ hc => mem_takeWhile_imp hc, takeWhile_append_dropWhile.symm⟩

variable {w : Text}

theorem skipBlanks_blank (hw : IsBlank isspace w) (l : Text) :
    skipWhitespace (w ++ l) = skipWhitespace l := dropWhile_append_of_pos hw

variable {c : UInt8}

theorem skipBlanks_cons (hc : 0x20 < c) (l : Text) : skipWhitespace (c :: l) = c :: l :=
  dropWhile_cons_of_neg (by rw [isspace_eq_false hc]; exact Bool.false_ne_true)

theorem skipBlanks_blank_cons (hw : IsBlank isspace w) (hc : 0x20 < c) (l : Text) :
    skipWhitespace (w ++ c :: l) = c :: l := by
  rw [skipBlanks_blank hw, skipBlanks_cons hc]

theorem skipBlanks_skipBlanks (l : Text) :
    skipWhitespace (skipWhitespace l) = skipWhitespace l := by
  obtain ⟨w, hw, hl⟩ := exists_blank l
  conv_rhs => rw [hl, skipBlanks_blank hw]

theorem length_skipBlanks_le (l : Text) : (skipWhitespace l).length ≤ l.length := by
  obtain ⟨w, -, hl⟩ := exists_blank l
  conv_rhs => rw [hl, length_append]
  exact Nat.le_add_left _ _

/-! ### Rounds -/

namespace Validation

theorem andThen_eq_accepted {v : Validation} {next : Text → Validation} {rest : Text} :
    v.andThen next = accepted rest ↔ ∃ cursor, v = accepted cursor ∧ next cursor = accepted rest := by
  cases v <;> simp [andThen]

theorem ofOption_eq_accepted {o : Option Text} {rest : Text} :
    ofOption o = accepted rest ↔ o = some rest := by
  cases o <;> simp [ofOption]

theorem ofOption_ne_outOfFuel (o : Option Text) : ofOption o ≠ outOfFuel := by
  cases o <;> simp [ofOption]

theorem andThen_ne_outOfFuel {v : Validation} {next : Text → Validation} (hv : v ≠ outOfFuel)
    (hnext : ∀ cursor, v = accepted cursor → next cursor ≠ outOfFuel) :
    v.andThen next ≠ outOfFuel := by
  cases v with
  | accepted cursor => exact hnext cursor rfl
  | refused => simp [andThen]
  | outOfFuel => exact absurd rfl hv

end Validation

variable {l : Text} {close : UInt8} {rest : Text} {again : Text → Validation}

theorem nextItem_sound (h : nextItem close again l = accepted rest) : ∃ w, IsBlank isspace w ∧
      ((∃ l', l = w ++ byte ',' :: l' ∧ again l' = accepted rest) ∨ l = w ++ close :: rest) := by
  obtain ⟨w, hw, hl⟩ := exists_blank l
  refine ⟨w, hw, ?_⟩
  rw [nextItem] at h
  cases hs : skipWhitespace l with
  | nil => simp [hs] at h
  | cons c l' =>
    rw [hs] at h hl
    simp only at h
    split_ifs at h with hcom hcl
    · exact .inl ⟨l', hcom ▸ hl, h⟩
    · exact .inr (by rw [hl, hcl, accepted.inj h])

theorem nextItem_comma (hw : IsBlank isspace w) (l : Text) :
    nextItem close again (w ++ byte ',' :: l) = again l := by
  rw [nextItem, skipBlanks_blank_cons hw (by decide)]
  exact if_pos rfl

theorem nextItem_close (hw : IsBlank isspace w) (hcl : 0x20 < close) (hcom : close ≠ byte ',')
    (l : Text) : nextItem close again (w ++ close :: l) = accepted l := by
  rw [nextItem, skipBlanks_blank_cons hw hcl]
  simp only [if_neg hcom, if_true]

theorem nextItem_ne_outOfFuel (hagain : ∀ l', l'.length < l.length → again l' ≠ outOfFuel) :
    nextItem close again l ≠ outOfFuel := by
  have hle := length_skipBlanks_le l
  rw [nextItem]
  cases hs : skipWhitespace l with
  | nil => simp
  | cons c l' =>
    rw [hs, length_cons] at hle
    simp only
    split_ifs
    · exact hagain l' (by omega)
    · simp
    · simp

variable {loop : Text → Validation}

theorem bracket_sound (hloop : ∀ l, loop (skipWhitespace l) = loop l)
    (h : validateBracket close loop (c :: l) = accepted rest) :
    (∃ w, IsBlank isspace w ∧ l = w ++ close :: rest) ∨ loop l = accepted rest := by
  obtain ⟨w, hw, hl⟩ := exists_blank l
  have hskip := hloop l
  rw [validateBracket, drop_one, tail_cons] at h
  cases hs : skipWhitespace l with
  | nil => exact .inr (by rw [← hskip, hs]; simpa [hs] using h)
  | cons d l' =>
    rw [hs] at h hl hskip
    simp only at h
    split_ifs at h with hcl
    · exact .inl ⟨w, hw, by rw [hl, hcl, accepted.inj h]⟩
    · exact .inr (hskip ▸ h)

theorem bracket_empty (hw : IsBlank isspace w) (hcl : 0x20 < close) (l : Text) :
    validateBracket close loop (c :: (w ++ close :: l)) = accepted l := by
  rw [validateBracket, drop_one, tail_cons, skipBlanks_blank_cons hw hcl]
  exact if_pos rfl

theorem bracket_loop {d : UInt8} (hloop : ∀ l, loop (skipWhitespace l) = loop l)
    (hw : IsBlank isspace w) (hd : 0x20 < d) (hcl : d ≠ close) :
    validateBracket close loop (c :: (w ++ d :: l)) = loop (w ++ d :: l) := by
  rw [validateBracket, drop_one, tail_cons, ← hloop (w ++ d :: l), skipBlanks_blank_cons hw hd]
  exact if_neg hcl

theorem bracket_ne_outOfFuel (hloop : ∀ l', l'.length ≤ l.length → loop l' ≠ outOfFuel) :
    validateBracket close loop (c :: l) ≠ outOfFuel := by
  have hle := length_skipBlanks_le l
  rw [validateBracket, drop_one, tail_cons]
  cases hs : skipWhitespace l with
  | nil => exact hloop [] (Nat.zero_le _)
  | cons d l' =>
    rw [hs] at hle
    simp only
    split_ifs
    · simp
    · exact hloop _ hle

variable {next : Text → Validation}

theorem jsonName_sound (h : validateJsonName next l = accepted rest) :
    ∃ w k w' l', IsBlank isspace w ∧ IsJsonString k ∧ IsBlank isspace w' ∧
      l = w ++ (k ++ (w' ++ byte ':' :: l')) ∧ next l' = accepted rest := by
  obtain ⟨cursor, hk, h⟩ := andThen_eq_accepted.mp h
  obtain ⟨k, hk, hl⟩ := jsonString_iff.mp (ofOption_eq_accepted.mp hk)
  obtain ⟨w, hw, hlw⟩ := exists_blank l
  obtain ⟨w', hw', hcur⟩ := exists_blank cursor
  cases hs : skipWhitespace cursor with
  | nil => simp [hs] at h
  | cons c l' =>
    rw [hs] at h hcur
    simp only at h
    split_ifs at h with hcol
    exact ⟨w, k, w', l', hw, hk, hw', by rw [hlw, hl, hcur, hcol], h⟩

theorem jsonName_complete {k w' : Text} (hw : IsBlank isspace w) (hk : IsJsonString k)
    (hw' : IsBlank isspace w') (l : Text) :
    validateJsonName next (w ++ (k ++ (w' ++ byte ':' :: l))) = next l := by
  obtain ⟨t, ht, rfl⟩ := hk
  have hskip : skipWhitespace (w ++ (byte '"' :: (t ++ [byte '"']) ++ (w' ++ byte ':' :: l))) =
      byte '"' :: (t ++ [byte '"']) ++ (w' ++ byte ':' :: l) :=
    skipBlanks_blank_cons hw (by decide) _
  rw [validateJsonName, hskip, jsonString_iff.mpr ⟨_, ⟨t, ht, rfl⟩, rfl⟩, ofOption,
    andThen, skipBlanks_blank_cons hw' (by decide)]
  exact if_pos rfl

theorem jsonName_skip (l : Text) :
    validateJsonName next (skipWhitespace l) = validateJsonName next l := by
  rw [validateJsonName, skipBlanks_skipBlanks, ← validateJsonName]

theorem jsonName_ne_outOfFuel (hnext : ∀ l', l'.length < l.length → next l' ≠ outOfFuel) :
    validateJsonName next l ≠ outOfFuel := by
  refine andThen_ne_outOfFuel (ofOption_ne_outOfFuel _) fun cursor hk => ?_
  obtain ⟨k, -, hl⟩ := jsonString_iff.mp (ofOption_eq_accepted.mp hk)
  have hle := length_skipBlanks_le l
  have hle' := length_skipBlanks_le cursor
  rw [hl, length_append] at hle
  cases hs : skipWhitespace cursor with
  | nil => simp
  | cons c l' =>
    rw [hs, length_cons] at hle'
    simp only
    split_ifs
    · exact hnext l' (by omega)
    · simp

/-! ### What is accepted is in the grammar -/

theorem validateJsonArray_skip (fuel depth : ℕ) (l : Text) :
    validateJsonArray fuel depth (skipWhitespace l) = validateJsonArray fuel depth l := by
  cases fuel with
  | zero => rfl
  | succ fuel => rw [validateJsonArray, skipBlanks_skipBlanks, ← validateJsonArray]

theorem validateJsonObject_skip (fuel depth : ℕ) (l : Text) :
    validateJsonObject fuel depth (skipWhitespace l) = validateJsonObject fuel depth l := by
  cases fuel with
  | zero => rfl
  | succ fuel => rw [validateJsonObject, jsonName_skip, ← validateJsonObject]

/-- The cursor stands before white space and a value. -/
def StartsValue (depth : ℕ) (l rest : Text) : Prop :=
  ∃ w s n, IsBlank isspace w ∧ depth + n = grayJsonMaxDepth ∧ JsonSyntax isspace .value n s ∧
    l = w ++ (s ++ rest)

/-- The cursor stands in an array or object of that depth, before items and the bracket. -/
def StartsItems (rule : JsonRule) (close : UInt8) (depth : ℕ) (l rest : Text) : Prop :=
  ∃ s n, depth + (n + 1) = grayJsonMaxDepth ∧ JsonSyntax isspace rule n s ∧ l = s ++ close :: rest

variable {depth : ℕ} {t : Text}

theorem StartsValue.element (h : StartsValue depth (skipWhitespace l) (w ++ t))
    (hw : IsBlank isspace w) :
    ∃ s n, depth + n = grayJsonMaxDepth ∧ JsonSyntax isspace .element n s ∧ l = s ++ t := by
  obtain ⟨w₁, s, n, hw₁, hn, hs, hl⟩ := h
  obtain ⟨w₀, hw₀, hl₀⟩ := exists_blank l
  have hbla : IsBlank isspace (w₀ ++ w₁) := forall_mem_append.mpr ⟨hw₀, hw₁⟩
  refine ⟨(w₀ ++ w₁) ++ (s ++ w), n, hn, .element hbla hs hw, ?_⟩
  rw [hl₀, hl]
  simp only [append_assoc]

theorem startsItems_of_round {cursor : Text}
    (hval : StartsValue (depth + 1) (skipWhitespace l) cursor)
    (hnext : nextItem close again cursor = accepted rest) :
    ∃ s n, depth + (n + 1) = grayJsonMaxDepth ∧ JsonSyntax isspace .element n s ∧
      ((∃ l', again l' = accepted rest ∧ l = s ++ byte ',' :: l') ∨ l = s ++ close :: rest) := by
  obtain ⟨w, hw, ⟨l', rfl, hagain⟩ | rfl⟩ := nextItem_sound hnext
  · obtain ⟨s, n, hn, hs, hl⟩ := hval.element hw
    exact ⟨s, n, by omega, hs, .inl ⟨l', hagain, hl⟩⟩
  · obtain ⟨s, n, hn, hs, hl⟩ := hval.element hw
    exact ⟨s, n, by omega, hs, .inr hl⟩

/-- What is accepted, for some fuel. -/
structure SoundWith (fuel : ℕ) : Prop where
  value : ∀ {depth : ℕ} {l rest : Text}, validateJsonValue fuel depth l = accepted rest →
    StartsValue depth l rest
  array : ∀ {depth : ℕ} {l rest : Text}, validateJsonArray fuel depth l = accepted rest →
    StartsItems .elements (byte ']') depth l rest
  object : ∀ {depth : ℕ} {l rest : Text}, validateJsonObject fuel depth l = accepted rest →
    StartsItems .members (byte '\x7d') depth l rest

variable {fuel : ℕ}

theorem SoundWith.array_succ (ih : SoundWith fuel)
    (h : validateJsonArray (fuel + 1) depth l = accepted rest) :
    StartsItems .elements (byte ']') depth l rest := by
  obtain ⟨cursor, hval, hnext⟩ := andThen_eq_accepted.mp h
  obtain ⟨s, n, hn, hs, ⟨l', hagain, rfl⟩ | rfl⟩ := startsItems_of_round (ih.value hval) hnext
  · obtain ⟨t, m, hm, ht, rfl⟩ := ih.array hagain
    obtain rfl : m = n := by omega
    exact ⟨s ++ byte ',' :: t, m, hn, .elements hs ht, by simp only [append_assoc, cons_append]⟩
  · exact ⟨s, n, hn, .lastElement hs, rfl⟩

theorem SoundWith.object_succ (ih : SoundWith fuel)
    (h : validateJsonObject (fuel + 1) depth l = accepted rest) :
    StartsItems .members (byte '\x7d') depth l rest := by
  obtain ⟨w, k, w', l₁, hw, hk, hw', rfl, hitem⟩ := jsonName_sound h
  obtain ⟨cursor, hval, hnext⟩ := andThen_eq_accepted.mp hitem
  obtain ⟨s, n, hn, hs, ⟨l', hagain, rfl⟩ | rfl⟩ := startsItems_of_round (ih.value hval) hnext
  · obtain ⟨t, m, hm, ht, rfl⟩ := ih.object hagain
    obtain rfl : m = n := by omega
    exact ⟨_, m, hn, .members (.member hw hk hw' hs) ht, by simp only [append_assoc, cons_append]⟩
  · exact ⟨_, n, hn, .lastMember (.member hw hk hw' hs), by simp only [append_assoc, cons_append]⟩

theorem StartsValue.of_bracket {rule : JsonRule} (hdep : depth ≤ grayJsonMaxDepth)
    (hskip : ∀ l, loop (skipWhitespace l) = loop l)
    (hloop : ∀ {l rest : Text}, loop l = accepted rest → StartsItems rule close depth l rest)
    (hemp : ∀ n w, IsBlank isspace w → JsonSyntax isspace .value n (c :: (w ++ [close])))
    (hits : ∀ n s, JsonSyntax isspace rule n s →
      JsonSyntax isspace .value (n + 1) (c :: (s ++ [close])))
    (h : validateBracket close loop (c :: l) = accepted rest) :
    StartsValue depth (c :: l) rest := by
  rcases bracket_sound hskip h with ⟨w, hw, rfl⟩ | h
  · refine ⟨[], c :: (w ++ [close]), grayJsonMaxDepth - depth, by simp [IsBlank], by omega,
      hemp _ w hw, ?_⟩
    simp only [nil_append, cons_append, append_assoc]
  · obtain ⟨s, n, hn, hs, rfl⟩ := hloop h
    refine ⟨[], c :: (s ++ [close]), n + 1, by simp [IsBlank], hn, hits n s hs, ?_⟩
    simp only [nil_append, cons_append, append_assoc]

theorem SoundWith.value_succ (ih : SoundWith fuel)
    (h : validateJsonValue (fuel + 1) depth l = accepted rest) : StartsValue depth l rest := by
  rw [validateJsonValue] at h
  obtain ⟨w, hw, hl⟩ := exists_blank l
  split_ifs at h with hdep
  have hdep := Nat.le_of_not_lt hdep
  -- The value stands right at the cursor, and the white space before it is put back.
  suffices hs : StartsValue depth (skipWhitespace l) rest by
    obtain ⟨w', s, n, hw', hn, hs, hl'⟩ := hs
    refine ⟨w ++ w', s, n, forall_mem_append.mpr ⟨hw, hw'⟩, hn, hs, ?_⟩
    rw [hl, hl', append_assoc]
  have htok : ∀ s, JsonSyntax isspace .value (grayJsonMaxDepth - depth) s →
      StartsValue depth (s ++ rest) rest := fun s hs =>
    ⟨[], s, _, by simp [IsBlank], by omega, hs, rfl⟩
  have hlit : ∀ s ∈ jsonLiterals, ∀ cursor,
      ofOption (validateJsonLiteral s cursor) = accepted rest → StartsValue depth cursor rest := by
    intro s hs cursor h
    rw [validateJsonLiteral_iff.mp (ofOption_eq_accepted.mp h)]
    exact htok s (.literal hs)
  cases hc : skipWhitespace l with
  | nil => simp [hc] at h
  | cons c l' =>
    rw [hc] at h
    simp only at h
    split_ifs at h with hobject harr hstr hnum htrue hfalse hnull
    · subst hobject
      exact .of_bracket hdep (validateJsonObject_skip fuel depth) ih.object
        (fun _ _ => .emptyObject) (fun _ _ => .object) h
    · subst harr
      exact .of_bracket hdep (validateJsonArray_skip fuel depth) ih.array
        (fun _ _ => .emptyArray) (fun _ _ => .array) h
    · obtain ⟨s, hs, hl⟩ := jsonString_iff.mp (ofOption_eq_accepted.mp h)
      exact hl ▸ htok s (.string hs)
    · obtain ⟨s, hs, hl⟩ := validateJsonNumber_sound (ofOption_eq_accepted.mp h)
      exact hl ▸ htok s (.number hs)
    · exact hlit _ (by decide) _ h
    · exact hlit _ (by decide) _ h
    · exact hlit _ (by decide) _ h

theorem soundWith (fuel : ℕ) : SoundWith fuel := by
  induction fuel with
  | zero =>
    refine ⟨fun h => ?_, fun h => ?_, fun h => ?_⟩
    · simp [validateJsonValue] at h
    · simp [validateJsonArray] at h
    · simp [validateJsonObject] at h
  | succ fuel ih => exact ⟨ih.value_succ, ih.array_succ, ih.object_succ⟩

theorem jsonValue_sound (h : validateJsonValue fuel depth l = accepted rest) :
    StartsValue depth l rest := (soundWith fuel).value h

/-! ### Termination -/

variable {n : ℕ} {s : Text}

theorem exists_cons_of_value {ws : UInt8 → Bool} (h : JsonSyntax ws .value n s) :
    ∃ c t, s = c :: t ∧ 0x20 < c ∧ c ≠ byte ']' := by
  cases h with
  | string hs =>
    obtain ⟨t, -, rfl⟩ := hs
    exact ⟨_, _, rfl, by decide, by decide⟩
  | number hs =>
    obtain ⟨minus, int, frac, exp, hneg, hint, -, -, rfl⟩ := hs
    obtain ⟨c, t, rfl, hc⟩ := hint.exists_cons
    rcases hneg with rfl | rfl
    · refine ⟨c, _, rfl, ?_, ?_⟩
      · simp only [isdigit, Bool.and_eq_true, decide_eq_true_eq] at hc
        exact UInt8.lt_of_lt_of_le (by decide) hc.1
      · rintro rfl
        exact absurd hc (by decide)
    · exact ⟨_, _, rfl, by decide, by decide⟩
  | literal hs =>
    have hall : ∀ s ∈ jsonLiterals, s = s.headD 0 :: s.tail ∧ 0x20 < s.headD 0 ∧
        s.headD 0 ≠ byte ']' := by decide
    exact ⟨_, _, hall s hs⟩
  | emptyArray | array => exact ⟨_, _, rfl, by decide, by decide⟩
  | emptyObject | object => exact ⟨_, _, rfl, by decide, by decide⟩

theorem length_lt_of_accepted (h : validateJsonValue fuel depth l = accepted rest) :
    rest.length < l.length := by
  obtain ⟨w, s, n, -, -, hs, rfl⟩ := jsonValue_sound h
  obtain ⟨c, t, rfl, -, -⟩ := exists_cons_of_value hs
  simp only [length_append, length_cons]
  omega

/-- Fuel in the length of the text is enough. -/
structure TotalWith (fuel : ℕ) : Prop where
  value : ∀ {depth : ℕ} {l : Text}, 2 * l.length < fuel → validateJsonValue fuel depth l ≠ outOfFuel
  array : ∀ {depth : ℕ} {l : Text}, 2 * l.length + 1 < fuel →
    validateJsonArray fuel depth l ≠ outOfFuel
  object : ∀ {depth : ℕ} {l : Text}, 2 * l.length + 1 < fuel →
    validateJsonObject fuel depth l ≠ outOfFuel

theorem TotalWith.round (ih : TotalWith fuel) (hfuel : 2 * l.length < fuel)
    (hagain : ∀ l', l'.length < l.length → again l' ≠ outOfFuel) :
    (validateJsonValue fuel depth (skipWhitespace l)).andThen (nextItem close again) ≠
      outOfFuel := by
  have hle := length_skipBlanks_le l
  refine andThen_ne_outOfFuel (ih.value (by omega)) fun cursor hcur => ?_
  have hlt := length_lt_of_accepted hcur
  exact nextItem_ne_outOfFuel fun l' hl' => hagain l' (by omega)

theorem TotalWith.value_succ (ih : TotalWith fuel) (hfuel : 2 * l.length < fuel + 1) :
    validateJsonValue (fuel + 1) depth l ≠ outOfFuel := by
  have hle := length_skipBlanks_le l
  rw [validateJsonValue]
  split_ifs
  · simp
  cases hs : skipWhitespace l with
  | nil => simp
  | cons c l' =>
    rw [hs, length_cons] at hle
    simp only
    split_ifs
    · exact bracket_ne_outOfFuel fun l₁ hl₁ => ih.object (by omega)
    · exact bracket_ne_outOfFuel fun l₁ hl₁ => ih.array (by omega)
    all_goals first | exact ofOption_ne_outOfFuel _ | simp

theorem totalWith (fuel : ℕ) : TotalWith fuel := by
  induction fuel with
  | zero =>
    exact ⟨fun h => absurd h (by omega), fun h => absurd h (by omega), fun h => absurd h (by omega)⟩
  | succ fuel ih =>
    refine ⟨ih.value_succ, fun {depth l} hfuel => ?_, fun {depth l} hfuel => ?_⟩
    · rw [validateJsonArray]
      exact ih.round (by omega) fun l' hl' => ih.array (by omega)
    · rw [validateJsonObject]
      refine jsonName_ne_outOfFuel fun l₁ hl₁ => ?_
      exact ih.round (by omega) fun l' hl' => ih.object (by omega)

theorem jsonValue_total (depth : ℕ) (h : 2 * l.length < fuel) :
    validateJsonValue fuel depth l ≠ outOfFuel := (totalWith fuel).value h

/-! ### What is in the grammar is accepted -/

theorem endsNumber_cons (hc : isdigit c = false) (hpt : c ≠ byte '.') (he : c ≠ byte 'e')
    (hE : c ≠ byte 'E') : EndsNumber (c :: l) := by
  simpa [EndsNumber] using ⟨hc, hpt, he, hE⟩

theorem EndsNumber.blank_append (hw : IsBlank isspace w) (hrest : EndsNumber rest) :
    EndsNumber (w ++ rest) := by
  cases w with
  | nil => exact hrest
  | cons c w =>
    have hle := le_of_isspace (hw c mem_cons_self)
    refine endsNumber_cons ?_ ?_ ?_ ?_
    · rw [isdigit, Bool.and_eq_false_iff, decide_eq_false_iff_not]
      exact .inl (UInt8.not_le.mpr (UInt8.lt_of_le_of_lt hle (by decide)))
    all_goals
      rintro rfl
      exact absurd hle (by decide)

/-- White space, and then a byte that does not close the array or object. -/
def StartsWithout (close : UInt8) (s : Text) : Prop :=
  ∃ w c t, IsBlank isspace w ∧ s = w ++ c :: t ∧ 0x20 < c ∧ c ≠ close

theorem StartsWithout.append (h : StartsWithout close s) (u : Text) :
    StartsWithout close (s ++ u) := by
  obtain ⟨w, c, t, hw, rfl, hc⟩ := h
  exact ⟨w, c, t ++ u, hw, by simp only [append_assoc, cons_append], hc⟩

/-- An element is accepted, up to the white space at its end. -/
def ElementAccepted (n : ℕ) (s : Text) : Prop :=
  ∀ (fuel depth : ℕ) (rest : Text), depth + n = grayJsonMaxDepth → EndsNumber rest →
    2 * (s ++ rest).length < fuel → ∃ w, IsBlank isspace w ∧
      validateJsonValue fuel depth (skipWhitespace (s ++ rest)) = accepted (w ++ rest)

/-- A loop accepts the items of its array or object. -/
def ItemsAccepted (close : UInt8) (loop : ℕ → ℕ → Text → Validation) (n : ℕ) (s : Text) : Prop :=
  StartsWithout close s ∧ ∀ (fuel depth : ℕ) (rest : Text), depth + (n + 1) = grayJsonMaxDepth →
    2 * (s ++ close :: rest).length + 1 < fuel →
      loop fuel depth (s ++ close :: rest) = accepted rest

/-- The validator accepts what the grammar derives, whatever stands behind it. -/
def JsonAccepted : JsonRule → ℕ → Text → Prop
  | .value, n, s => ∀ (fuel depth : ℕ) (w rest : Text), depth + n = grayJsonMaxDepth →
      IsBlank isspace w → EndsNumber rest → 2 * (w ++ (s ++ rest)).length < fuel →
      validateJsonValue fuel depth (w ++ (s ++ rest)) = accepted rest
  | .element, n, s => StartsWithout (byte ']') s ∧ ElementAccepted n s
  | .elements, n, s => ItemsAccepted (byte ']') validateJsonArray n s
  | .member, n, s => StartsWithout (byte '\x7d') s ∧ ∃ e, ElementAccepted n e ∧
      e.length < s.length ∧ ∀ next rest, validateJsonName next (s ++ rest) = next (e ++ rest)
  | .members, n, s => ItemsAccepted (byte '\x7d') validateJsonObject n s

theorem jsonValue_blank {v : Validation} (hdep : depth + n = grayJsonMaxDepth)
    (hw : IsBlank isspace w) (hs : s = c :: t) (hc : 0x20 < c) (h : (if c = byte '\x7b' then
          validateBracket (byte '\x7d') (validateJsonObject fuel depth) (s ++ rest)
        else if c = byte '[' then
          validateBracket (byte ']') (validateJsonArray fuel depth) (s ++ rest)
        else if c = byte '"' then ofOption (validateJsonStringLiteral (s ++ rest))
        else if c = byte '-' ∨ isdigit c then ofOption (validateJsonNumber (s ++ rest))
        else if c = byte 't' then ofOption (validateJsonLiteral (bytes "true") (s ++ rest))
        else if c = byte 'f' then ofOption (validateJsonLiteral (bytes "false") (s ++ rest))
        else if c = byte 'n' then ofOption (validateJsonLiteral (bytes "null") (s ++ rest))
        else refused) = v) : validateJsonValue (fuel + 1) depth (w ++ (s ++ rest)) = v := by
  subst hs
  rw [validateJsonValue, if_neg (by omega), cons_append, skipBlanks_blank_cons hw hc]
  exact h

theorem accepted_string (hs : IsJsonString s) : JsonAccepted .value n s := by
  rintro (_ | fuel) depth w rest hdep hw - hfuel
  · omega
  have hacc : validateJsonStringLiteral (s ++ rest) = some rest := jsonString_iff.mpr ⟨s, hs, rfl⟩
  obtain ⟨t, -, ht⟩ := hs
  exact jsonValue_blank hdep hw ht (by decide) (congrArg ofOption hacc)

theorem accepted_number (hs : IsJsonNumber s) : JsonAccepted .value n s := by
  rintro (_ | fuel) depth w rest hdep hw hrest hfuel
  · omega
  have hacc := validateJsonNumber_complete hs hrest
  obtain ⟨minus, int, frac, exp, hneg, hint, -, -, hs⟩ := hs
  obtain ⟨c, t, hint, hc⟩ := hint.exists_cons
  rcases hneg with rfl | rfl
  · rw [hint] at hs
    have hlow : 0x20 < c := by
      simp only [isdigit, Bool.and_eq_true, decide_eq_true_eq] at hc
      exact UInt8.lt_of_lt_of_le (by decide) hc.1
    refine jsonValue_blank hdep hw hs hlow ?_
    rw [if_neg, if_neg, if_neg, if_pos (.inr hc), hacc, ofOption]
    all_goals
      rintro rfl
      exact absurd hc (by decide)
  · exact jsonValue_blank hdep hw hs (by decide) (congrArg ofOption hacc)

theorem accepted_literal (hs : s ∈ jsonLiterals) : JsonAccepted .value n s := by
  rintro (_ | fuel) depth w rest hdep hw - hfuel
  · omega
  have hacc : ofOption (validateJsonLiteral s (s ++ rest)) = accepted rest :=
    congrArg ofOption (validateJsonLiteral_iff.mpr rfl)
  simp only [jsonLiterals, mem_cons, not_mem_nil, or_false] at hs
  rcases hs with rfl | rfl | rfl
  all_goals exact jsonValue_blank hdep hw rfl (by decide) hacc

theorem accepted_empty
    (hc : c = byte '[' ∧ close = byte ']' ∨ c = byte '\x7b' ∧ close = byte '\x7d')
    (hw : IsBlank isspace w) : JsonAccepted .value n (c :: (w ++ [close])) := by
  rintro (_ | fuel) depth w' rest hdep hw' - hfuel
  · omega
  have hemp : ∀ loop, 0x20 < close →
      validateBracket close loop (c :: (w ++ [close]) ++ rest) = accepted rest := by
    intro loop hcl
    rw [cons_append, append_assoc]
    exact bracket_empty hw hcl rest
  rcases hc with ⟨rfl, rfl⟩ | ⟨rfl, rfl⟩
  · exact jsonValue_blank hdep hw' rfl (by decide) (hemp _ (by decide))
  · exact jsonValue_blank hdep hw' rfl (by decide) (hemp _ (by decide))

theorem bracket_items {loop : ℕ → ℕ → Text → Validation} (h : ItemsAccepted close loop n s)
    (hskip : ∀ fuel depth l, loop fuel depth (skipWhitespace l) = loop fuel depth l)
    (hdep : depth + (n + 1) = grayJsonMaxDepth)
    (hfuel : 2 * (c :: (s ++ [close]) ++ rest).length < fuel + 1) :
    validateBracket close (loop fuel depth) (c :: (s ++ [close]) ++ rest) = accepted rest := by
  obtain ⟨⟨w, d, t, hw, rfl, hd, hcl⟩, hacc⟩ := h
  have hloop := hacc fuel depth rest hdep (by
    simp only [length_append, length_cons, length_nil] at hfuel ⊢
    omega)
  simp only [append_assoc, cons_append, nil_append] at hloop ⊢
  rw [bracket_loop (hskip fuel depth) hw hd hcl, hloop]

theorem accepted_array (h : JsonAccepted .elements n s) :
    JsonAccepted .value (n + 1) (byte '[' :: (s ++ [byte ']'])) := by
  rintro (_ | fuel) depth w rest hdep hw - hfuel
  · omega
  refine jsonValue_blank hdep hw rfl (by decide) ?_
  rw [length_append] at hfuel
  exact bracket_items h validateJsonArray_skip hdep (by omega)

theorem accepted_object (h : JsonAccepted .members n s) :
    JsonAccepted .value (n + 1) (byte '\x7b' :: (s ++ [byte '\x7d'])) := by
  rintro (_ | fuel) depth w rest hdep hw - hfuel
  · omega
  refine jsonValue_blank hdep hw rfl (by decide) ?_
  rw [length_append] at hfuel
  exact bracket_items h validateJsonObject_skip hdep (by omega)

theorem accepted_element {w' : Text} (hw : IsBlank isspace w)
    (hs : JsonSyntax isspace .value n s) (hw' : IsBlank isspace w') (ih : JsonAccepted .value n s) :
    JsonAccepted .element n (w ++ (s ++ w')) := by
  obtain ⟨c, t, rfl, hc, hcl⟩ := exists_cons_of_value hs
  refine ⟨⟨w, c, t ++ w', hw, rfl, hc, hcl⟩, fun fuel depth rest hdep hrest hfuel => ?_⟩
  refine ⟨w', hw', ?_⟩
  have hacc := ih fuel depth [] (w' ++ rest) hdep (by simp [IsBlank])
    (hrest.blank_append hw') (by
      simp only [length_append, length_cons, length_nil] at hfuel ⊢
      omega)
  simp only [append_assoc, cons_append, nil_append] at hacc ⊢
  rw [skipBlanks_blank_cons hw hc, hacc]

theorem ElementAccepted.round (h : ElementAccepted n s) (fuel depth : ℕ) (rest : Text)
    (close : UInt8) (again : Text → Validation) (hdep : depth + (n + 1) = grayJsonMaxDepth)
    (hrest : EndsNumber rest) (hfuel : 2 * (s ++ rest).length < fuel) : ∃ w, IsBlank isspace w ∧
      (validateJsonValue fuel (depth + 1) (skipWhitespace (s ++ rest))).andThen
        (nextItem close again) = nextItem close again (w ++ rest) := by
  obtain ⟨w, hw, hacc⟩ := h fuel (depth + 1) rest (by omega) hrest hfuel
  exact ⟨w, hw, by rw [hacc, andThen]⟩

theorem endsNumber_comma (l : Text) : EndsNumber (byte ',' :: l) :=
  endsNumber_cons (by decide) (by decide) (by decide) (by decide)

theorem accepted_lastElement (h : JsonAccepted .element n s) : JsonAccepted .elements n s := by
  refine ⟨h.1, ?_⟩
  rintro (_ | fuel) depth rest hdep hfuel
  · omega
  obtain ⟨w, hw, hrnd⟩ := h.2.round fuel depth (byte ']' :: rest) (byte ']')
    (validateJsonArray fuel depth) hdep
    (endsNumber_cons (by decide) (by decide) (by decide) (by decide)) (by omega)
  rw [validateJsonArray, hrnd, nextItem_close hw (by decide) (by decide)]

theorem accepted_elements (h : JsonAccepted .element n s) (ht : JsonAccepted .elements n t) :
    JsonAccepted .elements n (s ++ byte ',' :: t) := by
  refine ⟨h.1.append _, ?_⟩
  rintro (_ | fuel) depth rest hdep hfuel
  · omega
  simp only [append_assoc, cons_append] at hfuel ⊢
  obtain ⟨w, hw, hrnd⟩ := h.2.round fuel depth (byte ',' :: (t ++ byte ']' :: rest)) (byte ']')
    (validateJsonArray fuel depth) hdep (endsNumber_comma _) (by omega)
  rw [validateJsonArray, hrnd, nextItem_comma hw]
  refine ht.2 fuel depth rest hdep ?_
  simp only [length_append, length_cons] at hfuel ⊢
  omega

theorem accepted_member {k w' : Text} (hw : IsBlank isspace w) (hk : IsJsonString k)
    (hw' : IsBlank isspace w') (ih : JsonAccepted .element n s) :
    JsonAccepted .member n (w ++ (k ++ (w' ++ byte ':' :: s))) := by
  refine ⟨?_, s, ih.2, ?_, fun next rest => ?_⟩
  · obtain ⟨t, -, rfl⟩ := hk
    exact ⟨w, _, _, hw, rfl, by decide, by decide⟩
  · simp only [length_append, length_cons]
    omega
  · simp only [append_assoc, cons_append]
    exact jsonName_complete hw hk hw' (s ++ rest)

theorem accepted_lastMember (h : JsonAccepted .member n s) : JsonAccepted .members n s := by
  obtain ⟨hst, e, he, hlen, hname⟩ := h
  refine ⟨hst, ?_⟩
  rintro (_ | fuel) depth rest hdep hfuel
  · omega
  obtain ⟨w, hw, hrnd⟩ := he.round fuel depth (byte '\x7d' :: rest) (byte '\x7d')
    (validateJsonObject fuel depth) hdep
    (endsNumber_cons (by decide) (by decide) (by decide) (by decide))
    (by simp only [length_append] at hfuel ⊢; omega)
  rw [validateJsonObject, hname, hrnd, nextItem_close hw (by decide) (by decide)]

theorem accepted_members (h : JsonAccepted .member n s) (ht : JsonAccepted .members n t) :
    JsonAccepted .members n (s ++ byte ',' :: t) := by
  obtain ⟨hst, e, he, hlen, hname⟩ := h
  refine ⟨hst.append _, ?_⟩
  rintro (_ | fuel) depth rest hdep hfuel
  · omega
  simp only [append_assoc, cons_append] at hfuel ⊢
  obtain ⟨w, hw, hrnd⟩ := he.round fuel depth (byte ',' :: (t ++ byte '\x7d' :: rest))
    (byte '\x7d') (validateJsonObject fuel depth) hdep (endsNumber_comma _)
    (by simp only [length_append] at hfuel ⊢; omega)
  rw [validateJsonObject, hname, hrnd, nextItem_comma hw]
  refine ht.2 fuel depth rest hdep ?_
  simp only [length_append, length_cons] at hfuel ⊢
  omega

theorem accepted_of_syntax {rule : JsonRule} (h : JsonSyntax isspace rule n s) :
    JsonAccepted rule n s := by
  induction h with
  | string hs => exact accepted_string hs
  | number hs => exact accepted_number hs
  | literal hs => exact accepted_literal hs
  | emptyArray hw => exact accepted_empty (.inl ⟨rfl, rfl⟩) hw
  | array _ ih => exact accepted_array ih
  | emptyObject hw => exact accepted_empty (.inr ⟨rfl, rfl⟩) hw
  | object _ ih => exact accepted_object ih
  | element hw hs hw' ih => exact accepted_element hw hs hw' ih
  | lastElement _ ih => exact accepted_lastElement ih
  | elements _ _ ihs iht => exact accepted_elements ihs iht
  | member hw hk hw' _ ih => exact accepted_member hw hk hw' ih
  | lastMember _ ih => exact accepted_lastMember ih
  | members _ _ ihs iht => exact accepted_members ihs iht

/-! ### Whole texts -/

theorem utf8Scan_iff (l : Text) : utf8Scan l = true ↔ WellFormedUtf8 l := by
  fun_induction utf8Scan l with
  | case1 => exact iff_of_true rfl .nil
  | case2 c rest hc ih => rw [ih, wellFormed_cons_iff hc]
  | case3 c rest hc hdec =>
    refine iff_of_false Bool.false_ne_true (not_wellFormed fun s t hs hl => ?_)
    have hhigh := hs.high_of_cons hc hl
    have hlen := utf8Decode_of_char hs hhigh t
    rw [← hl, hdec] at hlen
    cases hs with
    | one ha => exact absurd ha (UInt8.not_lt.mpr (hhigh _ mem_cons_self))
    | two | three | four => simp at hlen
  | case4 c rest hc hdec ih =>
    obtain ⟨s, r, hs, hl⟩ := exists_char_of_decode (UInt8.not_lt.mp hc) hdec
    rw [ih, hl, utf8Decode_of_char hs (hs.high_of_cons hc hl) r, drop_left,
      wellFormed_append_iff hs]

theorem skipBlanks_eq_nil_iff : skipWhitespace l = [] ↔ IsBlank isspace l := dropWhile_eq_nil_iff

theorem grayJsonIsValid_total (hfuel : 2 * t.length < fuel) : grayJsonIsValid fuel t ≠ none := by
  have hle := length_skipBlanks_le t
  rw [grayJsonIsValid]
  split_ifs
  · simp
  · simp
  cases hs : skipWhitespace t with
  | nil => simp
  | cons c l =>
    rw [hs] at hle
    have htot : validateJsonValue fuel 0 (c :: l) ≠ .outOfFuel := jsonValue_total 0 (by omega)
    cases hv : validateJsonValue fuel 0 (c :: l) with
    | accepted cursor => simp [hv]
    | refused => simp [hv]
    | outOfFuel => exact absurd hv htot

theorem grayJsonIsValid_spec (hfuel : 2 * t.length < fuel) : grayJsonIsValid fuel t = some true ↔
      WellFormedUtf8 t ∧ JsonSyntax isspace .element grayJsonMaxDepth t := by
  have hle := length_skipBlanks_le t
  obtain ⟨w, hw, ht⟩ := exists_blank t
  constructor
  · intro h
    rw [grayJsonIsValid] at h
    split_ifs at h with hemp hutf8
    · simp at h
    · simp at h
    refine ⟨(utf8Scan_iff t).mp (by simpa using hutf8), ?_⟩
    cases hs : skipWhitespace t with
    | nil => simp [hs] at h
    | cons c l =>
      rw [hs] at h ht
      cases hv : validateJsonValue fuel 0 (c :: l) with
      | refused => simp [hv] at h
      | outOfFuel => simp [hv] at h
      | accepted cursor =>
        obtain ⟨w₁, s, n, hw₁, hn, hgram, hl⟩ := jsonValue_sound hv
        have hend : IsBlank isspace cursor := skipBlanks_eq_nil_iff.mp (by simpa [hv] using h)
        have hbla : IsBlank isspace (w ++ w₁) := forall_mem_append.mpr ⟨hw, hw₁⟩
        obtain rfl : n = grayJsonMaxDepth := by omega
        rw [ht, hl, ← append_assoc]
        exact .element hbla hgram hend
  · rintro ⟨hutf8, hgram⟩
    have hacc := accepted_of_syntax hgram
    obtain ⟨⟨w₁, c, l, hw₁, hl, hc, -⟩, hacc⟩ := hacc
    obtain ⟨w', hw', hacc⟩ := hacc fuel 0 [] (by omega) (by simp [EndsNumber])
      (by simpa using hfuel)
    rw [append_nil, hl, skipBlanks_blank_cons hw₁ hc, append_nil] at hacc
    have hne : t ≠ [] := by
      rw [hl]
      simp
    rw [grayJsonIsValid, if_neg hne, if_neg (by simp [(utf8Scan_iff t).mpr hutf8]), hl,
      skipBlanks_blank_cons hw₁ hc]
    simp only [hacc, skipBlanks_eq_nil_iff.mpr hw', beq_self_eq_true]

/-! ### Against RFC 8259 -/

def isVerticalTabOrFormFeed (c : UInt8) : Bool := c == 0x0B || c == 0x0C

def withLineFeeds (t : Text) : Text :=
  t.map fun c => if isVerticalTabOrFormFeed c then byte '\n' else c

theorem withLineFeeds_eq_self (h : ¬ ∃ c ∈ t, isVerticalTabOrFormFeed c = true) :
    withLineFeeds t = t := by
  refine (map_congr_left fun c hc => if_neg fun hv => h ⟨c, hc, hv⟩).trans (map_id t)

theorem isJsonSpace_lineFeed : ∀ c : UInt8,
    isJsonSpace (if isVerticalTabOrFormFeed c then byte '\n' else c) = isspace c :=
  forall_byte (by decide +kernel)

theorem lt_of_isVerticalTabOrFormFeed (h : isVerticalTabOrFormFeed c = true) : c < 0x20 := by
  simp only [isVerticalTabOrFormFeed, Bool.or_eq_true, beq_iff_eq] at h
  rcases h with rfl | rfl <;> decide

theorem jsonText_withLineFeeds_iff :
    JsonText n (withLineFeeds t) ↔ WellFormedUtf8 t ∧ JsonSyntax isspace .element n t := by
  refine and_congr (wellFormed_map_iff ?_ ?_) (jsonSyntax_map_iff isJsonSpace_lineFeed ?_ ?_)
  · intro c hc
    split_ifs
    · decide
    · exact hc
  · intro c hc
    exact if_neg fun hv => UInt8.not_lt.mpr hc
      (UInt8.lt_trans (lt_of_isVerticalTabOrFormFeed hv) (by decide))
  · intro c hc
    exact if_neg fun hv => UInt8.not_lt.mpr hc (lt_of_isVerticalTabOrFormFeed hv)
  · intro c hc
    split_ifs at hc ⊢
    · exact absurd hc (by decide)
    · rfl

theorem not_mem_of_jsonText (h : JsonText n t) : ¬ ∃ c ∈ t, isVerticalTabOrFormFeed c = true := by
  rintro ⟨c, hc, hv⟩
  rcases h.2.space_or_le c hc with hsp | hle
  · simp only [isVerticalTabOrFormFeed, Bool.or_eq_true, beq_iff_eq] at hv
    rcases hv with rfl | rfl <;> exact absurd hsp (by decide)
  · exact UInt8.not_lt.mpr hle (lt_of_isVerticalTabOrFormFeed hv)

/-- The texts on which validation ends with the answer of RFC 8259. -/
theorem grayJsonIsValid_text_iff (t : Text) :
    (∃ answer, (∀ fuel, 2 * t.length < fuel → grayJsonIsValid fuel t = some answer) ∧
      (answer = true ↔ JsonText grayJsonMaxDepth t)) ↔
    ¬ ((∃ c ∈ t, isVerticalTabOrFormFeed c = true) ∧
      JsonText grayJsonMaxDepth (withLineFeeds t)) := by
  -- The validator's answer, with any fuel that is enough.
  have hans : ∀ fuel, 2 * t.length < fuel → (grayJsonIsValid fuel t = some true ↔
      JsonText grayJsonMaxDepth (withLineFeeds t)) := fun fuel hfuel =>
    (grayJsonIsValid_spec hfuel).trans jsonText_withLineFeeds_iff.symm
  constructor
  · rintro ⟨answer, hfuel, htext⟩ ⟨hmem, hlns⟩
    have hrun := hfuel (2 * t.length + 1) (Nat.lt_succ_self _)
    rw [(hans _ (Nat.lt_succ_self _)).mpr hlns] at hrun
    exact not_mem_of_jsonText (htext.mp (Option.some.inj hrun).symm) hmem
  · intro h
    have htext : JsonText grayJsonMaxDepth (withLineFeeds t) ↔ JsonText grayJsonMaxDepth t := by
      by_cases hmem : ∃ c ∈ t, isVerticalTabOrFormFeed c = true
      · exact iff_of_false (fun hlns => h ⟨hmem, hlns⟩)
          fun htext => not_mem_of_jsonText htext hmem
      · rw [withLineFeeds_eq_self hmem]
    by_cases hval : JsonText grayJsonMaxDepth t
    · exact ⟨true, fun fuel hfuel => (hans fuel hfuel).mpr (htext.mpr hval), iff_of_true rfl hval⟩
    · refine ⟨false, fun fuel hfuel => ?_, iff_of_false Bool.false_ne_true hval⟩
      have hfalse := (hans fuel hfuel).not.mpr (htext.not.mpr hval)
      obtain ⟨answer, hsome⟩ := Option.ne_none_iff_exists'.mp (grayJsonIsValid_total hfuel)
      rw [hsome] at hfalse ⊢
      cases answer with
      | false => rfl
      | true => exact absurd rfl hfalse

/-- A vertical tab in front of a digit is accepted. -/
theorem grayJsonIsValid_verticalTab : grayJsonIsValid 5 [0x0B, byte '1'] = some true ∧
      ¬ JsonText grayJsonMaxDepth [0x0B, byte '1'] := by
  refine ⟨?_, fun h => not_mem_of_jsonText h ⟨0x0B, by simp, by decide⟩⟩
  rw [grayJsonIsValid, if_neg (by simp), if_neg]
  · decide
  · simp [utf8Scan]

end Grayscale
