import Grayscale.Stdlib.Time
import Grayscale.Stdlib.WideParse

/-!
# Durations

`gray_time_format_duration` and `gray_time_parse_duration_result` of `stdlib/time.c`.
-/

namespace Grayscale

open DecimalText List
open Option (bind_eq_some_iff bind_none bind_some some.inj some.injEq)

/-! ### The functions -/

/-- The loop over the digits of a component; `none` when the value overflows. -/
def durationDigits : ℤ → Text → Option (ℤ × Text)
  | value, [] => some (value, [])
  | value, c :: rest =>
    if isdigit c then
      (cInt64 (value * 10)).bind fun value =>
        (cInt64 (value + digitValue c)).bind fun value => durationDigits value rest
    else some (value, c :: rest)

def durationUnit (c : UInt8) : Option ℤ :=
  if c = byte 's' then some 1
  else if c = byte 'm' then some secondsPerMinute
  else if c = byte 'h' then some secondsPerHour
  else if c = byte 'd' then some secondsPerDay
  else none

variable {text : Text}

theorem length_durationDigits {value result : ℤ} {rest : Text}
    (h : durationDigits value text = some (result, rest)) : rest.length ≤ text.length := by
  induction text generalizing value with
  | nil =>
    rw [durationDigits, some.injEq, Prod.mk.injEq] at h
    rw [← h.2]
  | cons c text ih =>
    rw [durationDigits] at h
    split_ifs at h
    · obtain ⟨_, -, h⟩ := bind_eq_some_iff.mp h
      obtain ⟨_, -, h⟩ := bind_eq_some_iff.mp h
      exact (ih h).trans (Nat.le_succ _)
    · rw [some.injEq, Prod.mk.injEq] at h
      rw [← h.2]

/-- The loop of `time_parse_duration_implementation`, with the total and `matched_any`. -/
def parseDurationLoop (total : ℤ) (matchedAny : Bool) (text : Text) : Option ℤ :=
  match text with
  | [] => if matchedAny then some total else none
  | c :: rest =>
    if isdigit c then
      match _h : durationDigits 0 (c :: rest) with
      | none => none
      | some (_, []) => none
      | some (value, unit :: behind) =>
        (durationUnit unit).bind fun unitSeconds =>
          (cInt64 (value * unitSeconds)).bind fun value =>
            (cInt64 (total + value)).bind fun total => parseDurationLoop total true behind
    else none
termination_by text.length
decreasing_by
  have := length_durationDigits _h
  simp only [length_cons] at this ⊢
  omega

def timeParseDurationImplementation (text : Text) : Option ℤ := parseDurationLoop 0 false text

/-- The message of the parser, up to a NUL in the text. -/
def parseDurationMessage (text : Text) : Text :=
  bytes "cannot parse duration '" ++ (text.takeWhile (· != 0) ++ bytes "'")

/-- `gray_time_parse_duration_result`; `none` for the panic `P0167` of `gray_string_format`, whose
result has an `int` length. -/
def grayTimeParseDurationResult (text : Text) : Option (Except Text ℤ) :=
  match timeParseDurationImplementation text with
  | some seconds => some (.ok seconds)
  | none =>
    if (parseDurationMessage text).length < 2 ^ 31 then some (.error (parseDurationMessage text))
    else none

/-- `gray_time_format_duration`; `none` where the negation overflows. -/
def grayTimeFormatDuration (seconds : ℤ) : Option Text :=
  if seconds = 0 then some (bytes "0s")
  else
    let isNegative := decide (seconds < 0)
    (if isNegative then cInt64 (-seconds) else some seconds).map fun absSeconds =>
      let hours := absSeconds.tdiv secondsPerHour
      let minutes := (absSeconds.tmod secondsPerHour).tdiv secondsPerMinute
      let secs := absSeconds.tmod secondsPerMinute
      (if isNegative then [byte '-'] else []) ++
      ((if 0 < hours then render hours.toNat ++ [byte 'h'] else []) ++ ((if 0 < minutes then
          (if 0 < hours then [byte ' '] else []) ++ (render minutes.toNat ++ [byte 'm'])
        else []) ++ (if 0 < secs then
          (if 0 < hours ∨ 0 < minutes then [byte ' '] else []) ++ (render secs.toNat ++ [byte 's'])
        else [])))

/-! ### The texts of durations -/

/-- The components that are not zero. -/
def durationComponents (hours minutes seconds : ℕ) : List Text :=
  ([(hours, byte 'h'), (minutes, byte 'm'), (seconds, byte 's')].filter fun component =>
    component.1 ≠ 0).map fun component => render component.1 ++ [component.2]

/-- The text of a duration: a sign, and the components with spaces between them. -/
def WritesDuration (seconds : ℤ) (text : Text) : Prop :=
  ∃ hours minutes secs : ℕ, minutes < 60 ∧ secs < 60 ∧
    (hours * 3600 + minutes * 60 + secs : ℤ) = |seconds| ∧
    text = (if seconds < 0 then [byte '-'] else []) ++
      [byte ' '].intercalate (durationComponents hours minutes secs)

/-- A sequence of digits with units, and its sum. -/
inductive DurationSum : Text → ℤ → Prop
  | nil : DurationSum [] 0
  | cons {digits : Text} {unit : UInt8} {unitSeconds : ℤ} {text : Text} {sum : ℤ}
      (hne : digits ≠ []) (hdigits : ∀ c ∈ digits, isdigit c = true)
      (hunit : durationUnit unit = some unitSeconds) (htext : DurationSum text sum) :
      DurationSum (digits ++ unit :: text) (read 0 digits * unitSeconds + sum)

theorem durationUnit_eq_some {c : UInt8} {unitSeconds : ℤ} (h : durationUnit c = some unitSeconds) :
    0 < unitSeconds ∧ isdigit c = false := by
  rw [durationUnit] at h
  split_ifs at h with hs hm hh hd <;> rw [← some.inj h]
  · exact ⟨by decide, hs ▸ by decide⟩
  · exact ⟨by decide, hm ▸ by decide⟩
  · exact ⟨by decide, hh ▸ by decide⟩
  · exact ⟨by decide, hd ▸ by decide⟩

theorem DurationSum.nonneg {sum : ℤ} (h : DurationSum text sum) : 0 ≤ sum := by
  induction h with
  | nil => exact le_rfl
  | cons hne hdig hunit htext ih =>
    exact add_nonneg (mul_nonneg (Int.natCast_nonneg _) (durationUnit_eq_some hunit).1.le) ih

theorem DurationSum.head {digits rest : Text} {sum : ℤ} (h : DurationSum (digits ++ rest) sum)
    (hdig : ∀ c ∈ digits, isdigit c = true) (hrest : rest.head?.all (!isdigit ·) = true) :
    digits ++ rest = [] ∧ sum = 0 ∨
      ∃ unit text unitSeconds, ∃ sumText : ℤ, digits ≠ [] ∧ rest = unit :: text ∧
        durationUnit unit = some unitSeconds ∧ DurationSum text sumText ∧
        sum = read 0 digits * unitSeconds + sumText := by
  generalize hs : digits ++ rest = s at h
  cases h with
  | nil => exact .inl ⟨rfl, rfl⟩
  | @cons digits' unit unitSeconds text sumText hne hdig' hunit htext =>
    have hhead : (unit :: text).head?.all (!isdigit ·) = true := by
      simp [(durationUnit_eq_some hunit).2]
    obtain ⟨hdrop, htake⟩ := dropWhile_append_of_head hdig hrest
    obtain ⟨hdrop', htake'⟩ := dropWhile_append_of_head hdig' hhead
    rw [hs] at hdrop htake
    obtain rfl : unit :: text = rest := hdrop'.symm.trans hdrop
    obtain rfl : digits' = digits := htake'.symm.trans htake
    exact .inr ⟨unit, text, unitSeconds, sumText, hne, rfl, hunit, htext, rfl⟩

/-! ### The parser -/

theorem durationDigits_append {digits : Text} (hdig : ∀ c ∈ digits, isdigit c = true)
    {rest : Text} (hrest : rest.head?.all (!isdigit ·) = true) {n : ℕ} (hn : n < 2 ^ 63) :
    durationDigits n (digits ++ rest) =
      if read n digits < 2 ^ 63 then some ((read n digits : ℤ), rest) else none := by
  induction digits generalizing n with
  | nil =>
    rw [nil_append, show read n [] = n from rfl, if_pos hn]
    cases rest with
    | nil => rfl
    | cons c rest =>
      have hc : isdigit c = false := by simpa using hrest
      rw [durationDigits, if_neg (by rw [hc]; exact Bool.false_ne_true)]
  | cons c digits ih =>
    obtain ⟨hc, hdig⟩ := forall_mem_cons.mp hdig
    have hread : read n (c :: digits) = read (n * 10 + digitValue c) digits := rfl
    have hle : n * 10 + digitValue c ≤ read n (c :: digits) := by
      rw [hread]
      exact le_read _ _
    rw [cons_append, durationDigits, if_pos hc, hread]
    by_cases hten : n * 10 + digitValue c < 2 ^ 63
    · rw [cInt64_of (by omega) (by omega), bind_some, cInt64_of (by omega) (by omega),
        bind_some, ← ih hdig hten]
      norm_cast
    · rw [if_neg (by omega)]
      by_cases hmul : n * 10 < 2 ^ 63
      · rw [cInt64_of (by omega) (by omega), bind_some, cInt64, if_neg (by omega), bind_none]
      · rw [cInt64, if_neg (by omega), bind_none]

theorem parseDurationLoop_append {digits : Text} (hne : digits ≠ [])
    (hdig : ∀ c ∈ digits, isdigit c = true) {rest : Text}
    (hrest : rest.head?.all (!isdigit ·) = true) (total : ℤ) (matchedAny : Bool) :
    parseDurationLoop total matchedAny (digits ++ rest) =
      if read 0 digits < 2 ^ 63 then
        match rest with
        | [] => none
        | unit :: behind =>
          (durationUnit unit).bind fun unitSeconds =>
            (cInt64 (read 0 digits * unitSeconds)).bind fun value =>
              (cInt64 (total + value)).bind fun total => parseDurationLoop total true behind
      else none := by
  have hloop := durationDigits_append hdig hrest (show 0 < 2 ^ 63 by decide)
  obtain ⟨c, digits', rfl⟩ := exists_cons_of_ne_nil hne
  rw [cons_append] at hloop ⊢
  rw [parseDurationLoop, if_pos (hdig c mem_cons_self)]
  split_ifs at hloop ⊢ with hread
  · split
    · next h => exact absurd (h.symm.trans hloop) (by simp)
    · next h =>
      obtain ⟨rfl, rfl⟩ := Prod.mk.inj (some.inj (h.symm.trans hloop))
      rfl
    · next h =>
      obtain ⟨rfl, rfl⟩ := Prod.mk.inj (some.inj (h.symm.trans hloop))
      rfl
  · split
    · rfl
    · next h => exact absurd (h.symm.trans hloop) (by simp)
    · next h => exact absurd (h.symm.trans hloop) (by simp)

theorem cInt64_eq_some {n m : ℤ} (h : cInt64 n = some m) : m = n ∧ n < 2 ^ 63 := by
  rw [cInt64] at h
  split_ifs at h with hn
  exact ⟨(some.inj h).symm, hn.2⟩

theorem exists_digits_append (text : Text) : ∃ digits rest, text = digits ++ rest ∧
    (∀ c ∈ digits, isdigit c = true) ∧ rest.head?.all (!isdigit ·) = true := by
  refine ⟨text.takeWhile isdigit, text.dropWhile isdigit, takeWhile_append_dropWhile.symm,
    fun c hc => mem_takeWhile_imp hc, ?_⟩
  have hhead := head?_dropWhile_not isdigit text
  cases h : (text.dropWhile isdigit).head? with
  | none => rfl
  | some c =>
    rw [h] at hhead
    exact congrArg (! ·) hhead

theorem parseDurationLoop_eq_some_iff {total n : ℤ} {matchedAny : Bool} (htot : 0 ≤ total)
    (hmax : total < 2 ^ 63) : parseDurationLoop total matchedAny text = some n ↔
      (matchedAny = true ∨ text ≠ []) ∧
        ∃ sum, DurationSum text sum ∧ total + sum < 2 ^ 63 ∧ n = total + sum := by
  induction hlen : text.length using Nat.strongRecOn generalizing text total matchedAny with
  | ind length ih =>
    obtain ⟨digits, rest, rfl, hdig, hrest⟩ := exists_digits_append text
    by_cases hne : digits = []
    · subst hne
      rw [nil_append]
      constructor
      · intro h
        cases rest with
        | nil =>
          rw [parseDurationLoop] at h
          split_ifs at h with hany
          exact ⟨.inl hany, 0, .nil, by omega, by rw [← some.inj h, add_zero]⟩
        | cons c rest =>
          have hc : isdigit c = false := by simpa using hrest
          rw [parseDurationLoop, if_neg (by rw [hc]; exact Bool.false_ne_true)] at h
          cases h
      · rintro ⟨hany, sum, hsum, -, rfl⟩
        rcases (show DurationSum ([] ++ rest) sum from hsum).head hdig hrest with
          ⟨hnil, rfl⟩ | ⟨_, _, _, _, hne, -⟩
        · rw [nil_append] at hnil
          subst hnil
          rw [parseDurationLoop, if_pos (hany.resolve_right (not_not_intro rfl)), add_zero]
        · exact absurd rfl hne
    · rw [parseDurationLoop_append hne hdig hrest]
      constructor
      · intro h
        split_ifs at h with hread
        cases rest with
        | nil => cases h
        | cons unit behind =>
          obtain ⟨unitSeconds, hunit, h⟩ := bind_eq_some_iff.mp h
          obtain ⟨value, hval, h⟩ := bind_eq_some_iff.mp h
          obtain ⟨total', htot', h⟩ := bind_eq_some_iff.mp h
          obtain ⟨rfl, -⟩ := cInt64_eq_some hval
          obtain ⟨rfl, hlt⟩ := cInt64_eq_some htot'
          have hnn := mul_nonneg (Int.natCast_nonneg (read 0 digits))
            (durationUnit_eq_some hunit).1.le
          obtain ⟨-, sum, hsum, hbnd, rfl⟩ :=
            (ih behind.length (by rw [← hlen]; simp; omega) (by omega) hlt rfl).mp h
          exact ⟨.inr (append_ne_nil_of_left_ne_nil hne _), _, .cons hne hdig hunit hsum,
            by omega, by omega⟩
      · rintro ⟨-, sum, hsum, hbnd, rfl⟩
        rcases hsum.head hdig hrest with
          ⟨hnil, -⟩ | ⟨unit, behind, unitSeconds, sumText, -, rfl, hunit, hbeh, rfl⟩
        · exact absurd (append_eq_nil_iff.mp hnil).1 hne
        · have hpos := (durationUnit_eq_some hunit).1
          have hsumText := hbeh.nonneg
          have hle : (read 0 digits : ℤ) ≤ read 0 digits * unitSeconds :=
            le_mul_of_one_le_right (Int.natCast_nonneg _) hpos
          rw [if_pos (by omega)]
          simp only [hunit, bind_some]
          rw [cInt64_of (by omega) (by omega), bind_some, cInt64_of (by omega) (by omega),
            bind_some, ih behind.length (by rw [← hlen]; simp; omega) (by omega) (by omega) rfl]
          exact ⟨.inl rfl, sumText, hbeh, by omega, by omega⟩

theorem timeParseDurationImplementation_eq_some_iff {n : ℤ} :
    timeParseDurationImplementation text = some n ↔
      text ≠ [] ∧ DurationSum text n ∧ n < 2 ^ 63 := by
  rw [timeParseDurationImplementation, parseDurationLoop_eq_some_iff le_rfl (by decide)]
  simp only [Bool.false_eq_true, false_or, zero_add]
  constructor
  · rintro ⟨hne, sum, hsum, hlt, rfl⟩
    exact ⟨hne, hsum, hlt⟩
  · rintro ⟨hne, hsum, hlt⟩
    exact ⟨hne, n, hsum, hlt, rfl⟩

theorem DurationSum.unique {m n : ℤ} (hm : DurationSum text m) (hn : DurationSum text n) :
    m = n := by
  induction hm generalizing n with
  | nil =>
    rcases (show DurationSum ([] ++ []) n from hn).head (forall_mem_nil _) rfl with
      ⟨-, h⟩ | ⟨_, _, _, _, hne, -⟩
    · exact h.symm
    · exact absurd rfl hne
  | @cons digits unit unitSeconds text sum hne hdig hunit htext ih =>
    rcases hn.head hdig (by simp [(durationUnit_eq_some hunit).2]) with ⟨hnil, -⟩ | h
    · exact absurd (append_eq_nil_iff.mp hnil).1 hne
    · obtain ⟨unit', text', unitSeconds', sum', -, hrest, hunit', htext', rfl⟩ := h
      obtain ⟨rfl, rfl⟩ := List.cons.inj hrest
      rw [ih htext', some.inj (hunit.symm.trans hunit')]

/-! ### The writer -/

/-- The components of a duration, with spaces between them. -/
def durationBody (hours minutes secs : ℕ) : Text :=
  (if 0 < hours then render hours ++ [byte 'h'] else []) ++
  ((if 0 < minutes then (if 0 < hours then [byte ' '] else []) ++ (render minutes ++ [byte 'm'])
    else []) ++ (if 0 < secs then
      (if 0 < hours ∨ 0 < minutes then [byte ' '] else []) ++ (render secs ++ [byte 's'])
    else []))

/-- A number that is not zero with its unit. -/
def durationPiece (n : ℕ) (unit : UInt8) : Text := if 0 < n then render n ++ [unit] else []

variable {seconds : ℤ}

theorem grayTimeFormatDuration_eq (hne : seconds ≠ 0) (hmin : -2 ^ 63 < seconds)
    (hmax : seconds < 2 ^ 63) : grayTimeFormatDuration seconds =
      some ((if seconds < 0 then [byte '-'] else []) ++
        durationBody (seconds.natAbs / 3600) (seconds.natAbs % 3600 / 60)
          (seconds.natAbs % 60)) := by
  have habs : (if seconds < 0 then cInt64 (-seconds) else some seconds) =
      some (seconds.natAbs : ℤ) := by
    split_ifs with h
    · rw [cInt64_of (by omega) (by omega)]
      congr 1
      omega
    · congr 1
      omega
  rw [grayTimeFormatDuration, if_neg hne]
  simp only [decide_eq_true_eq, habs, Option.map_some, durationBody]
  have hhours : (seconds.natAbs : ℤ).tdiv secondsPerHour = (seconds.natAbs / 3600 : ℕ) := rfl
  have hminutes : ((seconds.natAbs : ℤ).tmod secondsPerHour).tdiv secondsPerMinute =
      (seconds.natAbs % 3600 / 60 : ℕ) := rfl
  have hsecs : (seconds.natAbs : ℤ).tmod secondsPerMinute = (seconds.natAbs % 60 : ℕ) := rfl
  rw [hhours, hminutes, hsecs]
  simp only [Int.toNat_natCast, Int.natCast_pos]

variable (hours minutes secs : ℕ)

theorem durationBody_eq_intercalate : durationBody hours minutes secs =
      [byte ' '].intercalate (durationComponents hours minutes secs) := by
  rcases Nat.eq_zero_or_pos hours with rfl | hhours <;>
    rcases Nat.eq_zero_or_pos minutes with rfl | hminutes <;>
    rcases Nat.eq_zero_or_pos secs with rfl | hsecs <;>
    simp_all [durationBody, durationComponents, List.intercalate, Nat.pos_iff_ne_zero]

theorem filter_render (n : ℕ) : (render n).filter (· != byte ' ') = render n := by
  refine filter_eq_self.mpr fun c hc => bne_iff_ne.mpr ?_
  rintro rfl
  exact absurd ((isdigit_iff _).mpr (isDigit_of_mem_render hc)) (by decide)

theorem filter_durationBody : (durationBody hours minutes secs).filter (· != byte ' ') =
      durationPiece hours (byte 'h') ++
        (durationPiece minutes (byte 'm') ++ durationPiece secs (byte 's')) := by
  have hsp : ([byte ' '] : Text).filter (· != byte ' ') = [] := rfl
  have hh : ([byte 'h'] : Text).filter (· != byte ' ') = [byte 'h'] := rfl
  have hm : ([byte 'm'] : Text).filter (· != byte ' ') = [byte 'm'] := rfl
  have hs : ([byte 's'] : Text).filter (· != byte ' ') = [byte 's'] := rfl
  have hif (p : Prop) [Decidable p] (text : Text) :
      (if p then text else []).filter (· != byte ' ') =
        if p then text.filter (· != byte ' ') else [] := by
    split_ifs
    · rfl
    · rfl
  simp only [durationBody, durationPiece, filter_append, filter_render, hif, hsp, hh, hm,
    hs, ite_self, nil_append]

theorem DurationSum.piece {sum unitSeconds : ℤ} (h : DurationSum text sum) (n : ℕ) {unit : UInt8}
    (hunit : durationUnit unit = some unitSeconds) :
    DurationSum (durationPiece n unit ++ text) (n * unitSeconds + sum) := by
  rw [durationPiece]
  split_ifs with hn
  · have hpc := DurationSum.cons (render_ne_nil n)
      (fun c hc => (isdigit_iff c).mpr (isDigit_of_mem_render hc)) hunit h
    rw [read_render] at hpc
    rwa [append_assoc, singleton_append]
  · rw [Nat.eq_zero_of_not_pos hn, Nat.cast_zero, zero_mul, zero_add]
    exact h

theorem durationSum_pieces : DurationSum (durationPiece hours (byte 'h') ++
        (durationPiece minutes (byte 'm') ++ durationPiece secs (byte 's')))
      (hours * 3600 + minutes * 60 + secs) := by
  have hs : durationUnit (byte 's') = some 1 := by decide
  have hm : durationUnit (byte 'm') = some 60 := by decide
  have hh : durationUnit (byte 'h') = some 3600 := by decide
  have h := ((DurationSum.nil.piece secs hs).piece minutes hm).piece hours hh
  rw [append_nil, mul_one, add_zero, ← add_assoc] at h
  exact h

/-! ### Both -/

/-- The text of a duration is what it should be, and it is parsed back. -/
def FormatsDuration (seconds : ℤ) : Prop :=
  ∃ text, grayTimeFormatDuration seconds = some text ∧ (seconds = 0 → text = bytes "0s") ∧
    (seconds ≠ 0 → WritesDuration seconds text) ∧
    (0 < seconds → grayTimeParseDurationResult (text.filter (· != byte ' ')) = some (.ok seconds))

/-- The parser gives the sum of a text that has one in the range, and an error for every other. -/
def ParsesDuration (text : Text) : Prop :=
  ∃ result, grayTimeParseDurationResult text = some result ∧
    ∀ seconds, result = .ok seconds ↔ text ≠ [] ∧ DurationSum text seconds ∧ seconds < 2 ^ 63

theorem grayTimeParseDurationResult_ok_iff : grayTimeParseDurationResult text = some (.ok seconds) ↔
      timeParseDurationImplementation text = some seconds := by
  rw [grayTimeParseDurationResult]
  cases timeParseDurationImplementation text with
  | none =>
    simp only [reduceCtorEq, iff_false]
    split_ifs
    · exact fun h => by cases h
    · exact fun h => by cases h
  | some n => simp

theorem formatsDuration (hmin : -2 ^ 63 < seconds) (hmax : seconds < 2 ^ 63) :
    FormatsDuration seconds := by
  by_cases hzero : seconds = 0
  · subst hzero
    exact ⟨_, rfl, fun _ => rfl, fun h => absurd rfl h, fun h => absurd h (lt_irrefl 0)⟩
  · refine ⟨_, grayTimeFormatDuration_eq hzero hmin hmax, fun h => absurd h hzero, fun _ => ?_,
      fun hpos => ?_⟩
    · refine ⟨seconds.natAbs / 3600, seconds.natAbs % 3600 / 60, seconds.natAbs % 60, by omega,
        by omega, ?_, by rw [durationBody_eq_intercalate]⟩
      rw [Int.abs_eq_natAbs]
      omega
    · have hsum : (seconds.natAbs / 3600 : ℕ) * 3600 + (seconds.natAbs % 3600 / 60 : ℕ) * 60 +
          (seconds.natAbs % 60 : ℕ) = seconds := by omega
      have hpcs := durationSum_pieces (seconds.natAbs / 3600) (seconds.natAbs % 3600 / 60)
        (seconds.natAbs % 60)
      rw [hsum] at hpcs
      rw [if_neg (by omega), nil_append, filter_durationBody,
        grayTimeParseDurationResult_ok_iff, timeParseDurationImplementation_eq_some_iff]
      refine ⟨fun hnil => ?_, hpcs, hmax⟩
      rw [hnil] at hpcs
      exact hzero (hpcs.unique .nil)

theorem not_formatsDuration_min : ¬ FormatsDuration (-2 ^ 63) := by
  rintro ⟨text, htext, -⟩
  have : grayTimeFormatDuration (-2 ^ 63) = none := by decide
  rw [this] at htext
  cases htext

theorem parsesDuration_iff (text : Text) :
    ParsesDuration text ↔ (text ≠ [] ∧ ∃ sum, DurationSum text sum ∧ sum < 2 ^ 63) ∨
      (parseDurationMessage text).length < 2 ^ 31 := by
  have hspec (n : ℤ) := @timeParseDurationImplementation_eq_some_iff text n
  rw [ParsesDuration, grayTimeParseDurationResult]
  cases h : timeParseDurationImplementation text with
  | some n =>
    obtain ⟨hne, hsum, hlt⟩ := (hspec n).mp h
    refine iff_of_true ⟨_, rfl, fun seconds => ?_⟩ (.inl ⟨hne, n, hsum, hlt⟩)
    rw [← hspec, h, Except.ok.injEq, some.injEq]
  | none =>
    have hnone (n : ℤ) : ¬ (text ≠ [] ∧ DurationSum text n ∧ n < 2 ^ 63) := by
      rw [← hspec, h]
      exact (Option.some_ne_none n).symm
    rw [or_iff_right fun ⟨hne, n, hsum⟩ => hnone n ⟨hne, hsum⟩]
    simp only
    split_ifs with hlen
    · exact iff_of_true ⟨_, rfl, fun n => iff_of_false (by simp) (hnone n)⟩ hlen
    · exact iff_of_false (fun ⟨_, h, _⟩ => by cases h) hlen

/-- When the two functions do what they say. -/
theorem duration_iff (seconds : ℤ) (hmin : -2 ^ 63 ≤ seconds) (hmax : seconds < 2 ^ 63)
    (text : Text) : (FormatsDuration seconds ↔ seconds ≠ -2 ^ 63) ∧
      (ParsesDuration text ↔ (text ≠ [] ∧ ∃ sum, DurationSum text sum ∧ sum < 2 ^ 63) ∨
        (parseDurationMessage text).length < 2 ^ 31) := by
  refine ⟨⟨?_, fun h => formatsDuration (lt_of_le_of_ne hmin h.symm) hmax⟩, parsesDuration_iff text⟩
  rintro h rfl
  exact not_formatsDuration_min h

theorem duration_ninetyThousand : (FormatsDuration 90000 ↔ (90000 : ℤ) ≠ -2 ^ 63) ∧
      (ParsesDuration (bytes "25h") ↔
        (bytes "25h" ≠ [] ∧ ∃ sum, DurationSum (bytes "25h") sum ∧ sum < 2 ^ 63) ∨
          (parseDurationMessage (bytes "25h")).length < 2 ^ 31) :=
  duration_iff 90000 (by decide) (by decide) (bytes "25h")

/-- The least duration has no text. -/
theorem not_formatsDuration : ¬ ∀ seconds : ℤ, -2 ^ 63 ≤ seconds → seconds < 2 ^ 63 →
    FormatsDuration seconds := fun h => not_formatsDuration_min (h _ le_rfl (by decide))

example : grayTimeFormatDuration (-90061) = some (bytes "-25h 1m 1s") := by decide +kernel

end Grayscale
