import Grayscale.Stdlib.Strings

/-!
# The lengths of built strings

The functions that build a string from others: `gray_strings_join`, `gray_strings_replace`,
`gray_strings_repeat` and the builder of `stdlib/strings.c`, and `gray_string_concat` and
`gray_string_concat_n` of `runtime/runtime.c`. Each sums the lengths in its own way.
-/

namespace Grayscale

open List

/-! ### The functions -/

def grayStringsRepeat (string : Text) (count : ℤ) : Except StringFailure Built :=
  if count < 0 then .error (.panic "P0072")
  else if count = 0 ∨ string.length = 0 then .ok ⟨none, []⟩
  else if (2 ^ 31 - 1 : ℤ).tdiv string.length < count then .error (.panic "P0073")
  else
    .ok ⟨some ((string.length * count).toNat + 1), (replicate count.toNat string).flatten⟩

def grayStringConcat (left right : Text) : Except StringFailure Built :=
  if (2 ^ 31 - 1 : ℤ) - left.length < right.length then .error .exit
  else .ok ⟨some (left.length + right.length + 1), left ++ right⟩

/-- `gray_string_concat_n`, whose sum is 64 bits wide. -/
def grayStringConcatN (parts : List Text) : Except StringFailure Built :=
  let total := parts.foldl (fun total part => total + part.length) 0
  if 2 ^ 31 - 1 < total then .error .exit
  else .ok ⟨some (total + 1), parts.foldl (fun data part => data ++ part) []⟩

/-! ### The builder -/

/-- A builder: the bytes that it holds, and the size of its buffer. -/
structure GrayStringsBuilder where
  data : Text
  capacity : ℕ
  /-- The bytes fit in the buffer. -/
  length_le : data.length ≤ capacity
  /-- The size is an `int`. -/
  capacity_lt : capacity < 2 ^ 31

def grayStringsBuilder : GrayStringsBuilder := ⟨[], 0, le_rfl, by decide⟩

/-- The loop of `builder_ensure` that doubles the capacity. -/
def doubleCapacity (need capacity : ℕ) : ℕ :=
  if 0 < capacity ∧ capacity < need then doubleCapacity need (capacity * 2) else capacity
termination_by need - capacity

theorem le_doubleCapacity {need capacity : ℕ} (hpos : 0 < capacity) :
    need ≤ doubleCapacity need capacity := by
  fun_induction doubleCapacity need capacity with
  | case1 capacity h ih => exact ih (by omega)
  | case2 capacity h => omega

/-- The capacity that `builder_ensure` allocates, when the one there is is too small. -/
def newCapacity (need capacity : ℕ) : ℕ :=
  min (doubleCapacity need (if 0 < capacity then capacity else 16)) (2 ^ 31 - 1)

theorem le_newCapacity {need : ℕ} (h : need < 2 ^ 31) (capacity : ℕ) :
    need ≤ newCapacity need capacity := by
  refine le_min (le_doubleCapacity ?_) (Nat.le_sub_one_of_lt h)
  split_ifs with hpos
  · exact hpos
  · decide

theorem newCapacity_lt (need capacity : ℕ) : newCapacity need capacity < 2 ^ 31 :=
  Nat.lt_of_le_pred (by decide) (min_le_right _ _)

/-- `builder_ensure`: the same bytes, with room for more. -/
def builderEnsure (builder : GrayStringsBuilder) (extra : ℕ) : Except StringFailure
    { after : GrayStringsBuilder //
      after.data = builder.data ∧ builder.data.length + extra ≤ after.capacity } :=
  if hroom : builder.data.length + extra ≤ builder.capacity then .ok ⟨builder, rfl, hroom⟩
  else if hneed : builder.data.length + extra < 2 ^ 31 then
    .ok ⟨⟨builder.data, newCapacity (builder.data.length + extra) builder.capacity,
        (Nat.le_add_right _ _).trans (le_newCapacity hneed _), newCapacity_lt _ _⟩,
      rfl, le_newCapacity hneed _⟩
  else .error (.panic "P0116")

/-- The bytes that `memcpy` writes behind those of a builder. -/
def builderWrite (builder : GrayStringsBuilder) (bytes : Text) :
    Except StringFailure GrayStringsBuilder := (builderEnsure builder bytes.length).map fun after =>
    ⟨after.1.data ++ bytes, after.1.capacity,
      by rw [length_append, after.2.1]; exact after.2.2, after.1.capacity_lt⟩

/-- `gray_strings_builder_append` and `gray_strings_builder_append_bytes`. -/
def grayStringsBuilderAppend (builder : GrayStringsBuilder) (string : Text) :
    Except StringFailure GrayStringsBuilder :=
  if string.length = 0 then .ok builder else builderWrite builder string

def grayStringsBuilderAppendLine (builder : GrayStringsBuilder) (string : Text) :
    Except StringFailure GrayStringsBuilder :=
  (grayStringsBuilderAppend builder string).bind fun builder => builderWrite builder [byte '\n']

def grayStringsBuilderReserve (builder : GrayStringsBuilder) (capacity : ℤ) :
    Except StringFailure GrayStringsBuilder :=
  if capacity ≤ builder.capacity then .ok builder
  else (builderEnsure builder (capacity - builder.data.length).toNat).map Subtype.val

def grayStringsBuilderClear (builder : GrayStringsBuilder) : GrayStringsBuilder :=
  ⟨[], builder.capacity, Nat.zero_le _, builder.capacity_lt⟩

inductive BuilderStep
  | append (string : Text)
  | appendLine (string : Text)
  | reserve (capacity : ℤ)
  | clear

def stepBuilder (builder : GrayStringsBuilder) : BuilderStep →
    Except StringFailure GrayStringsBuilder
  | .append string => grayStringsBuilderAppend builder string
  | .appendLine string => grayStringsBuilderAppendLine builder string
  | .reserve capacity => grayStringsBuilderReserve builder capacity
  | .clear => .ok (grayStringsBuilderClear builder)

def runBuilder (builder : GrayStringsBuilder) (steps : List BuilderStep) :
    Except StringFailure GrayStringsBuilder := steps.foldlM stepBuilder builder

def BuilderStep.apply (text : Text) : BuilderStep → Text
  | .append string => text ++ string
  | .appendLine string => text ++ (string ++ [byte '\n'])
  | .reserve _ => text
  | .clear => []

/-- The length that a step asks for. -/
def BuilderStep.need (text : Text) : BuilderStep → ℤ
  | .append string => text.length + string.length
  | .appendLine string => text.length + string.length + 1
  | .reserve capacity => capacity
  | .clear => 0

/-- Every step of a run asks for an `int`. -/
def StepsFit : Text → List BuilderStep → Prop
  | _, [] => True
  | text, step :: steps => step.need text < 2 ^ 31 ∧ StepsFit (step.apply text) steps

theorem builderEnsure_ok (builder : GrayStringsBuilder) {extra : ℕ}
    (h : builder.data.length + extra < 2 ^ 31) :
    ∃ after, builderEnsure builder extra = .ok after := by
  rw [builderEnsure]
  split_ifs
  · exact ⟨_, rfl⟩
  · exact ⟨_, rfl⟩

variable {builder : GrayStringsBuilder}

theorem builderEnsure_error {extra : ℕ} (h : ¬ builder.data.length + extra < 2 ^ 31) :
    builderEnsure builder extra = .error (.panic "P0116") := by
  have hcap := builder.capacity_lt
  rw [builderEnsure, dif_neg (by omega), dif_neg h]

theorem builderWrite_ok (builder : GrayStringsBuilder) {bytes : Text}
    (h : builder.data.length + bytes.length < 2 ^ 31) :
    ∃ after, builderWrite builder bytes = .ok after ∧ after.data = builder.data ++ bytes := by
  obtain ⟨after, haft⟩ := builderEnsure_ok builder h
  rw [builderWrite, haft]
  exact ⟨_, rfl, congrArg (· ++ bytes) after.2.1⟩

theorem builderWrite_error {bytes : Text} (h : ¬ builder.data.length + bytes.length < 2 ^ 31) :
    builderWrite builder bytes = .error (.panic "P0116") := by
  rw [builderWrite, builderEnsure_error h]
  rfl

theorem builderAppend_ok {string : Text}
    (h : builder.data.length + string.length < 2 ^ 31) :
    ∃ after, grayStringsBuilderAppend builder string = .ok after ∧
      after.data = builder.data ++ string := by
  rw [grayStringsBuilderAppend]
  split_ifs with hzero
  · rw [eq_nil_of_length_eq_zero hzero, append_nil]
    exact ⟨_, rfl, rfl⟩
  · exact builderWrite_ok builder h

theorem builderAppend_error {string : Text}
    (h : ¬ builder.data.length + string.length < 2 ^ 31) :
    grayStringsBuilderAppend builder string = .error (.panic "P0116") := by
  have hlen := builder.length_le
  have hcap := builder.capacity_lt
  rw [grayStringsBuilderAppend, if_neg (by omega), builderWrite_error h]

theorem stepBuilder_spec (builder : GrayStringsBuilder) (step : BuilderStep) :
    (step.need builder.data < 2 ^ 31 ∧ ∃ after, stepBuilder builder step = .ok after ∧
        after.data = step.apply builder.data) ∨ (¬ step.need builder.data < 2 ^ 31 ∧
        stepBuilder builder step = .error (.panic "P0116")) := by
  have hlen := builder.length_le
  have hcap := builder.capacity_lt
  cases step with
  | append string =>
    by_cases h : builder.data.length + string.length < 2 ^ 31
    · exact .inl ⟨by rw [BuilderStep.need]; omega, builderAppend_ok h⟩
    · exact .inr ⟨by rw [BuilderStep.need]; omega, builderAppend_error h⟩
  | appendLine string =>
    rw [BuilderStep.need, stepBuilder, grayStringsBuilderAppendLine, BuilderStep.apply]
    by_cases h : builder.data.length + string.length < 2 ^ 31
    · obtain ⟨after, haft, hdata⟩ := builderAppend_ok h
      rw [haft]
      have hafterLength : after.data.length = builder.data.length + string.length := by
        rw [hdata, length_append]
      by_cases hline : builder.data.length + string.length + 1 < 2 ^ 31
      · obtain ⟨last, hlast, hlastData⟩ := builderWrite_ok after
          (by rw [hafterLength]; exact hline : after.data.length + [byte '\n'].length < 2 ^ 31)
        exact .inl ⟨by omega, last, hlast, by rw [hlastData, hdata, append_assoc]⟩
      · exact .inr ⟨by omega, builderWrite_error (by rw [hafterLength]; exact hline)⟩
    · rw [builderAppend_error h]
      exact .inr ⟨by omega, rfl⟩
  | reserve capacity =>
    rw [BuilderStep.need, stepBuilder, grayStringsBuilderReserve, BuilderStep.apply]
    split_ifs with hroom
    · exact .inl ⟨by omega, builder, rfl, rfl⟩
    · by_cases h : capacity < 2 ^ 31
      · obtain ⟨after, haft⟩ := builderEnsure_ok builder
          (by omega : builder.data.length + (capacity - builder.data.length).toNat < 2 ^ 31)
        rw [haft]
        exact .inl ⟨h, after, rfl, after.2.1⟩
      · rw [builderEnsure_error (by omega)]
        exact .inr ⟨h, rfl⟩
  | clear => exact .inl ⟨by rw [BuilderStep.need]; decide, _, rfl, rfl⟩

theorem runBuilder_eq (builder : GrayStringsBuilder) (steps : List BuilderStep) :
    (StepsFit builder.data steps ∧ ∃ after, runBuilder builder steps = .ok after ∧
        after.data = steps.foldl BuilderStep.apply builder.data) ∨ (¬ StepsFit builder.data steps ∧
        runBuilder builder steps = .error (.panic "P0116")) := by
  induction steps generalizing builder with
  | nil => exact .inl ⟨trivial, builder, rfl, rfl⟩
  | cons step steps ih =>
    rw [StepsFit, runBuilder, foldlM_cons, foldl_cons]
    rcases stepBuilder_spec builder step with ⟨hneed, after, haft, hdata⟩ | ⟨hneed, herr⟩
    · rw [haft, ← hdata]
      exact (ih after).imp (fun h => ⟨⟨hneed, h.1⟩, h.2⟩) (fun h => ⟨fun hfit => h.1 hfit.2, h.2⟩)
    · rw [herr]
      exact .inr ⟨fun hfit => hneed hfit.1, rfl⟩

/-! ### The lengths -/

/-- A function builds the text with its exact length, in a buffer with room for it and its NUL, or
it stops because the length is no `int`. -/
def MeetsLength (result : Except StringFailure Built) (length : ℕ) (text : Text) : Prop :=
  (length < 2 ^ 31 ∧ ∃ built, result = .ok built ∧ built.text = text ∧ built.text.length = length ∧
      ∀ size, built.allocated = some size → built.text.length + 1 ≤ size) ∨
    (2 ^ 31 ≤ length ∧ ((∃ code, result = .error (.panic code)) ∨ result = .error .exit))

def joinedLength (parts : List Text) (separator : Text) : ℕ :=
  (parts.map List.length).sum + (parts.length - 1) * separator.length

theorem length_intercalate (separator : Text) (parts : List Text) :
    (separator.intercalate parts).length = joinedLength parts separator := by
  cases parts with
  | nil => simp [joinedLength]
  | cons part parts =>
    rw [length_intercalate_cons, joinedLength, map_cons, sum_cons, length_cons,
      Nat.add_sub_cancel, Nat.add_assoc]
    congr 1
    induction parts with
    | nil => simp
    | cons next parts ih =>
      rw [map_cons, sum_cons, ih, map_cons, sum_cons, length_cons]
      ring

theorem join_meetsLength_iff (parts : List Text) (separator : Text) :
    MeetsLength (grayStringsJoin parts separator) (joinedLength parts separator)
      (separator.intercalate parts) ↔ joinedLength parts separator < 2 ^ 31 := by
  have hlen := length_intercalate separator parts
  by_cases hne : parts = []
  · subst hne
    have hzero : joinedLength [] separator = 0 := hlen.symm
    rw [hzero]
    refine iff_of_true (.inl ⟨by decide, ⟨none, []⟩, rfl, rfl, rfl, ?_⟩) (by decide)
    rintro _ ⟨⟩
  · rw [MeetsLength, grayStringsJoin_eq hne, hlen]
    split_ifs with hfits
    · refine iff_of_true (.inl ⟨hfits, _, rfl, rfl, hlen, ?_⟩) hfits
      rintro _ ⟨⟩
      exact Nat.succ_le_succ hlen.le
    · refine iff_of_false ?_ hfits
      rintro (⟨h, -⟩ | ⟨-, ⟨code, h⟩ | h⟩)
      · exact hfits h
      · cases h
      · cases h

theorem grayStringsReplace_meetsLength {string oldText newText : Text} (hne : oldText ≠ [])
    (hstr : string.length < 2 ^ 31) : MeetsLength (grayStringsReplace string oldText newText)
      (joinedLength (splitPieces oldText string) newText)
      (newText.intercalate (splitPieces oldText string)) := by
  have hlen := length_intercalate newText (splitPieces oldText string)
  rw [grayStringsReplace_eq hne hstr]
  by_cases hfits : (newText.intercalate (splitPieces oldText string)).length < 2 ^ 31
  · rw [if_pos hfits]
    refine .inl ⟨hlen ▸ hfits, _, rfl, rfl, hlen, fun size hsize => ?_⟩
    simp only at hsize
    split_ifs at hsize
    exact (Option.some.inj hsize).le
  · rw [if_neg hfits]
    exact .inr ⟨by omega, .inl ⟨_, rfl⟩⟩

theorem grayStringsRepeat_meetsLength (string : Text) (count : ℕ) :
    MeetsLength (grayStringsRepeat string count) (count * string.length)
      (replicate count string).flatten := by
  have hlen : (replicate count string).flatten.length = count * string.length := by
    rw [length_flatten, map_replicate, sum_replicate_nat]
  rw [grayStringsRepeat, if_neg (by omega)]
  by_cases hzero : (count : ℤ) = 0 ∨ string.length = 0
  · have hemp : count * string.length = 0 := by
      rcases hzero with h | h
      · rw [Int.natCast_eq_zero.mp h, Nat.zero_mul]
      · rw [h, Nat.mul_zero]
    rw [if_pos hzero]
    rw [hemp] at hlen ⊢
    refine .inl ⟨by decide, _, rfl, (eq_nil_of_length_eq_zero hlen).symm, rfl, ?_⟩
    rintro _ ⟨⟩
  · have hlimit : (2 ^ 31 - 1 : ℤ).tdiv string.length < count ↔ 2 ^ 31 ≤ count * string.length := by
      have hdiv : (2 ^ 31 - 1 : ℤ).tdiv string.length = ((2 ^ 31 - 1) / string.length : ℕ) := rfl
      rw [hdiv, Int.ofNat_lt, Nat.div_lt_iff_lt_mul (by omega)]
      omega
    have hnum : (string.length * (count : ℤ)).toNat = count * string.length := by
      rw [mul_comm, ← Nat.cast_mul, Int.toNat_natCast]
    rw [if_neg hzero, hnum, Int.toNat_natCast]
    split_ifs with h
    · exact .inr ⟨hlimit.mp h, .inl ⟨_, rfl⟩⟩
    · refine .inl ⟨Nat.lt_of_not_le fun hle => h (hlimit.mpr hle), _, rfl, rfl, hlen, ?_⟩
      rintro _ ⟨⟩
      exact Nat.succ_le_succ hlen.le

theorem grayStringConcat_meetsLength (left right : Text) :
    MeetsLength (grayStringConcat left right) (left.length + right.length) (left ++ right) := by
  rw [grayStringConcat]
  split_ifs with hlimit
  · exact .inr ⟨by omega, .inr rfl⟩
  · refine .inl ⟨by omega, _, rfl, rfl, length_append, fun size hsize => ?_⟩
    rw [length_append]
    exact (Option.some.inj hsize).le

theorem grayStringConcatN_meetsLength (parts : List Text) :
    MeetsLength (grayStringConcatN parts) (parts.map List.length).sum parts.flatten := by
  have htot (parts : List Text) (total : ℕ) :
      parts.foldl (fun total part => total + part.length) total =
        total + (parts.map List.length).sum := by
    induction parts generalizing total with
    | nil => rfl
    | cons part parts ih => rw [foldl_cons, ih, map_cons, sum_cons, Nat.add_assoc]
  have hdata (parts : List Text) (data : Text) :
      parts.foldl (fun data part => data ++ part) data = data ++ parts.flatten := by
    induction parts generalizing data with
    | nil => rw [foldl_nil, flatten_nil, append_nil]
    | cons part parts ih => rw [foldl_cons, ih, flatten_cons, append_assoc]
  rw [grayStringConcatN, htot, hdata, Nat.zero_add, nil_append]
  split_ifs with hlimit
  · exact .inr ⟨by omega, .inr rfl⟩
  · refine .inl ⟨by omega, _, rfl, rfl, length_flatten, fun size hsize => ?_⟩
    rw [length_flatten]
    exact (Option.some.inj hsize).le

/-- What a run of a new builder builds, or where it panics. -/
def MeetsSteps (steps : List BuilderStep) : Prop :=
  (StepsFit [] steps ∧ ∃ after, runBuilder grayStringsBuilder steps = .ok after ∧
      after.data = steps.foldl BuilderStep.apply [] ∧ after.data.length ≤ after.capacity) ∨
    (¬ StepsFit [] steps ∧ runBuilder grayStringsBuilder steps = .error (.panic "P0116"))

theorem meetsSteps (steps : List BuilderStep) : MeetsSteps steps := by
  refine (runBuilder_eq grayStringsBuilder steps).imp_left ?_
  rintro ⟨hfit, after, haft, hdata⟩
  exact ⟨hfit, after, haft, hdata, after.length_le⟩

/-- A join meets the length exactly when it is an `int`; the other functions always do. -/
theorem meetsLength_iff (parts : List Text) (separator string oldText newText left right : Text)
    (count : ℕ) (steps : List BuilderStep) (hold : oldText ≠ [])
    (hstring : string.length < 2 ^ 31) :
    (MeetsLength (grayStringsJoin parts separator) (joinedLength parts separator)
        (separator.intercalate parts) ↔ joinedLength parts separator < 2 ^ 31) ∧
      MeetsLength (grayStringsReplace string oldText newText)
        (joinedLength (splitPieces oldText string) newText)
        (newText.intercalate (splitPieces oldText string)) ∧
      MeetsLength (grayStringsRepeat string count) (count * string.length)
        (replicate count string).flatten ∧
      MeetsLength (grayStringConcat left right) (left.length + right.length) (left ++ right) ∧
      MeetsLength (grayStringConcatN parts) (parts.map List.length).sum parts.flatten ∧
      MeetsSteps steps :=
  ⟨join_meetsLength_iff parts separator, grayStringsReplace_meetsLength hold hstring,
    grayStringsRepeat_meetsLength string count, grayStringConcat_meetsLength left right,
    grayStringConcatN_meetsLength parts, meetsSteps steps⟩

theorem meetsLength_abc : (MeetsLength (grayStringsJoin [bytes "a", bytes "b"] (bytes ","))
        (joinedLength [bytes "a", bytes "b"] (bytes ","))
        ((bytes ",").intercalate [bytes "a", bytes "b"]) ↔
          joinedLength [bytes "a", bytes "b"] (bytes ",") < 2 ^ 31) ∧
      MeetsLength (grayStringsReplace (bytes "abc") (bytes "b") (bytes "bb"))
        (joinedLength (splitPieces (bytes "b") (bytes "abc")) (bytes "bb"))
        ((bytes "bb").intercalate (splitPieces (bytes "b") (bytes "abc"))) ∧
      MeetsLength (grayStringsRepeat (bytes "abc") (3 : ℕ)) (3 * (bytes "abc").length)
        (replicate 3 (bytes "abc")).flatten ∧ MeetsLength (grayStringConcat (bytes "a") (bytes "b"))
        ((bytes "a").length + (bytes "b").length) (bytes "a" ++ bytes "b") ∧
      MeetsLength (grayStringConcatN [bytes "a", bytes "b"])
        ([bytes "a", bytes "b"].map List.length).sum [bytes "a", bytes "b"].flatten ∧
      MeetsSteps [.append (bytes "a"), .clear] :=
  meetsLength_iff [bytes "a", bytes "b"] (bytes ",") (bytes "abc") (bytes "b") (bytes "bb")
    (bytes "a") (bytes "b") 3 [.append (bytes "a"), .clear] (by decide) (by decide)

theorem joinedLength_replicate (count length : ℕ) (c : UInt8) :
    joinedLength (replicate count (replicate length c)) [] = count * length := by
  rw [joinedLength, map_replicate, sum_replicate_nat, length_replicate, length_nil, Nat.mul_zero,
    Nat.add_zero]

/-- Parts that are one string may be too long together. -/
theorem not_meetsLength_join : ∃ parts : List Text, (∀ part ∈ parts, part.length < 2 ^ 31) ∧
    parts.length < 2 ^ 31 ∧ ¬ MeetsLength (grayStringsJoin parts []) (joinedLength parts [])
        (List.intercalate [] parts) := by
  obtain ⟨count, hcnt⟩ : ∃ count, count = 65536 := ⟨_, rfl⟩
  refine ⟨replicate count (replicate count (byte 'a')), fun part hpart => ?_, ?_, ?_⟩
  · rw [eq_of_mem_replicate hpart, length_replicate]
    omega
  · rw [length_replicate]
    omega
  · rw [join_meetsLength_iff, joinedLength_replicate, hcnt]
    decide

end Grayscale
