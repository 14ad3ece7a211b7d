import Grayscale.Library.Calendar

/-!
# Dates and timestamps

The conversions of `stdlib/time.c` from dates to days and seconds. Every operation of an `int` or an
`int64_t` is one that may overflow, and the whole then has no result.
-/

namespace Grayscale

open Calendar
open Option (bind_eq_bind bind_some)

/-- The value of an `int` operation, `none` when it overflows. -/
def cInt (n : ℤ) : Option ℤ := if -2 ^ 31 ≤ n ∧ n < 2 ^ 31 then some n else none

/-- The value of an `int64_t` operation, `none` when it overflows. -/
def cInt64 (n : ℤ) : Option ℤ := if -2 ^ 63 ≤ n ∧ n < 2 ^ 63 then some n else none

theorem cInt_of {n : ℤ} (h₁ : -2 ^ 31 ≤ n) (h₂ : n < 2 ^ 31) : cInt n = some n := if_pos ⟨h₁, h₂⟩

theorem cInt64_of {n : ℤ} (h₁ : -2 ^ 63 ≤ n) (h₂ : n < 2 ^ 63) : cInt64 n = some n :=
  if_pos ⟨h₁, h₂⟩

/-! ### The functions -/

def secondsPerDay : ℤ := 86400

def secondsPerHour : ℤ := 3600

def secondsPerMinute : ℤ := 60

/-- `gray_days_from_civil`: `year` is an `int64_t`, the other two are `int`s. -/
def grayDaysFromCivil (year month day : ℤ) : Option ℤ := do
  let year ← cInt64 (year - if month ≤ 2 then 1 else 0)
  let eraStart ← cInt64 (if 0 ≤ year then year else year - 399)
  let eraIndex := eraStart.tdiv 400
  let eraYears ← cInt64 (eraIndex * 400)
  let yearOfEra ← cInt64 (year - eraYears)
  let monthOfYear ← cInt (month + if 2 < month then -3 else 9)
  let monthDays ← cInt (153 * monthOfYear)
  let monthDays ← cInt (monthDays + 2)
  let dayOfYear ← cInt (monthDays.tdiv 5 + day)
  let dayOfYear ← cInt (dayOfYear - 1)
  let dayOfEra ← cInt64 (yearOfEra * 365)
  let dayOfEra ← cInt64 (dayOfEra + yearOfEra.tdiv 4)
  let dayOfEra ← cInt64 (dayOfEra - yearOfEra.tdiv 100)
  let dayOfEra ← cInt64 (dayOfEra + dayOfYear)
  let eraDays ← cInt64 (eraIndex * 146097)
  let days ← cInt64 (eraDays + dayOfEra)
  cInt64 (days - 719468)

def grayTimeIsLeapYear (year : ℤ) : Bool :=
  (year.tmod 4 == 0 && year.tmod 100 != 0) || year.tmod 400 == 0

/-- The table of `gray_time_days_in_month`. -/
def mdays : List ℤ := [31, 28, 31, 30, 31, 30, 31, 31, 30, 31, 30, 31]

/-- `gray_time_days_in_month`, `none` for the panic `P0128`. -/
def grayTimeDaysInMonth (year month : ℤ) : Option ℤ :=
  if month < 1 ∨ 12 < month then none
  else if month = 2 ∧ grayTimeIsLeapYear year then some 29
  else mdays[(month - 1).toNat]?

/-- The seconds of days and a time of day, summed as the C code does: the `first` operations on the
parts of the time of day are those of their type. -/
def secondsOf (first : ℤ → Option ℤ) (days hour minute second : ℤ) : Option ℤ := do
  let daySeconds ← cInt64 (days * secondsPerDay)
  let hourSeconds ← first (hour * secondsPerHour)
  let total ← cInt64 (daySeconds + hourSeconds)
  let minuteSeconds ← first (minute * secondsPerMinute)
  let total ← cInt64 (total + minuteSeconds)
  cInt64 (total + second)

/-- The fields of `struct tm` that `gray_timegm` reads. -/
structure TimeParts where
  tmYear : ℤ
  tmMon : ℤ
  tmMday : ℤ
  tmHour : ℤ
  tmMin : ℤ
  tmSec : ℤ

def grayTimegm (parts : TimeParts) : Option ℤ := do
  let year ← cInt (parts.tmYear + 1900)
  let month ← cInt (parts.tmMon + 1)
  let days ← grayDaysFromCivil year month parts.tmMday
  secondsOf cInt days parts.tmHour parts.tmMin parts.tmSec

/-- `gray_time_from_parts_result`, with the messages of its `GRAY_ERR_OutOfRange` errors; `none` for
an overflow or a panic. -/
def grayTimeFromPartsResult (year month day hour minute second : ℤ) : Option (Except String ℤ) :=
  if year < -2 ^ 31 + 1900 ∨ 2 ^ 31 - 1 + 1900 < year then
    some (.error "time.from_parts: year is out of range")
  else if month < 1 ∨ 12 < month then
    some (.error "time.from_parts: month must be 1-12")
  else
    (grayTimeDaysInMonth year month).bind fun last =>
      if day < 1 ∨ last < day then
        some (.error "time.from_parts: day does not exist in that month")
      else if hour < 0 ∨ 23 < hour then
        some (.error "time.from_parts: hour must be 0-23")
      else if minute < 0 ∨ 59 < minute then
        some (.error "time.from_parts: minute must be 0-59")
      else if second < 0 ∨ 59 < second then
        some (.error "time.from_parts: second must be 0-59")
      else
        (grayDaysFromCivil year month day).bind fun days =>
          (secondsOf cInt64 days hour minute second).map .ok

/-! ### Months -/

variable (year : ℤ)

theorem grayTimeIsLeapYear_iff : grayTimeIsLeapYear year = true ↔ IsLeapYear year := by
  have htmod : ∀ n : ℤ, year.tmod n = 0 ↔ year % n = 0 := fun n => by
    rw [← Int.dvd_iff_emod_eq_zero, ← Int.dvd_iff_tmod_eq_zero]
  simp only [grayTimeIsLeapYear, IsLeapYear, Bool.or_eq_true, Bool.and_eq_true, beq_iff_eq,
    bne_iff_ne, ne_eq, htmod]

theorem grayTimeDaysInMonth_eq {month : ℤ} (h₁ : 1 ≤ month) (h₂ : month ≤ 12) :
    grayTimeDaysInMonth year month = some (daysInMonth year month) := by
  have hleap := grayTimeIsLeapYear_iff year
  by_cases h : IsLeapYear year <;> interval_cases month <;>
    simp [grayTimeDaysInMonth, mdays, daysInMonth, hleap, h]

/-! ### Days -/

theorem eraIndex_eq : (if 0 ≤ year then year else year - 399).tdiv 400 = year / 400 := by
  split_ifs with h
  · exact Int.tdiv_eq_ediv_of_nonneg h
  · have hneg : year - 399 = -(399 - year) := by omega
    rw [hneg, Int.neg_tdiv, Int.tdiv_eq_ediv_of_nonneg (by omega)]
    omega

variable {date : CivilDate}

theorem dayNumber_of_era (h₁ : 1 ≤ date.month) (h₂ : date.month ≤ 12)
    {era yearOfEra : ℤ} (hpos : 0 ≤ yearOfEra) (hlt : yearOfEra < 400)
    (hyear : 400 * era + yearOfEra = date.year - if date.month ≤ 2 then 1 else 0) :
    era * 146097 + (yearOfEra * 365 + yearOfEra / 4 - yearOfEra / 100 +
      ((153 * (date.month + if 2 < date.month then -3 else 9) + 2) / 5 + date.day - 1)) - 719468 =
      date.dayNumber := by
  obtain ⟨year, month, day⟩ := date
  dsimp only at *
  simp only [CivilDate.dayNumber, daysToYear_eq, daysToMonth_eq year h₁ h₂, IsLeapYear]
  by_cases hmon : month ≤ 2
  · rw [if_pos hmon] at hyear ⊢
    rw [if_neg (by omega : ¬ 2 < month)]
    obtain rfl : year = 400 * era + yearOfEra + 1 := by omega
    omega
  · rw [if_neg hmon] at hyear ⊢
    rw [if_pos (by omega : 2 < month)]
    obtain rfl : year = 400 * era + yearOfEra := by omega
    split_ifs <;> omega

/-- `gray_days_from_civil` counts the days, in every year that is far enough from the ends of
`int64_t`. -/
theorem grayDaysFromCivil_eq (hreal : date.IsReal) (hlow : -2 ^ 40 ≤ date.year)
    (hhigh : date.year ≤ 2 ^ 40) :
    grayDaysFromCivil date.year date.month date.day = some date.dayNumber := by
  obtain ⟨⟨hmon₁, hmon₂⟩, hday₁, hday₂⟩ := hreal
  have hday₂ := hday₂.trans (daysInMonth_le date.year date.month)
  obtain ⟨y, hy⟩ : ∃ y, y = date.year - if date.month ≤ 2 then 1 else 0 := ⟨_, rfl⟩
  obtain ⟨era, hera⟩ : ∃ era, era = y / 400 := ⟨_, rfl⟩
  obtain ⟨yearOfEra, hyear⟩ : ∃ yearOfEra, yearOfEra = y - era * 400 := ⟨_, rfl⟩
  obtain ⟨m, hm⟩ : ∃ m, m = date.month + if 2 < date.month then -3 else 9 := ⟨_, rfl⟩
  have hres := @dayNumber_of_era date hmon₁ hmon₂ era yearOfEra (by omega) (by omega)
    (by omega)
  rw [← hm] at hres
  have hyearOfEra : 0 ≤ yearOfEra ∧ yearOfEra < 400 := by omega
  have hbnd : 0 ≤ m ∧ m ≤ 11 := by split_ifs at hm <;> omega
  have hy' : -2 ^ 41 ≤ y ∧ y ≤ 2 ^ 41 := by split_ifs at hy <;> omega
  have hera' : -2 ^ 41 ≤ era ∧ era ≤ 2 ^ 41 := by omega
  unfold grayDaysFromCivil
  simp only [bind_eq_bind]
  rw [← hy, cInt64_of (by omega) (by omega), bind_some, cInt64_of (by split_ifs <;> omega)
    (by split_ifs <;> omega), bind_some, eraIndex_eq, ← hera]
  clear hera hy hlow hhigh hmon₁ hmon₂
  rw [cInt64_of (by omega) (by omega), bind_some, ← hyear,
    cInt64_of (by omega) (by omega), bind_some]
  clear hyear hy'
  rw [← hm, cInt_of (by omega) (by omega), bind_some, cInt_of (by omega) (by omega),
    bind_some, cInt_of (by omega) (by omega), bind_some, Int.tdiv_eq_ediv_of_nonneg (by omega)]
  obtain ⟨monthDays, hmonthDays⟩ : ∃ monthDays, monthDays = (153 * m + 2) / 5 := ⟨_, rfl⟩
  have hmonthDays' : 0 ≤ monthDays ∧ monthDays ≤ 337 := by omega
  rw [← hmonthDays] at hres ⊢
  clear hmonthDays hm hbnd
  rw [cInt_of (by omega) (by omega), bind_some, cInt_of (by omega) (by omega),
    bind_some, cInt64_of (by omega) (by omega), bind_some,
    Int.tdiv_eq_ediv_of_nonneg hyearOfEra.1, cInt64_of (by omega) (by omega), bind_some,
    Int.tdiv_eq_ediv_of_nonneg hyearOfEra.1, cInt64_of (by omega) (by omega), bind_some,
    cInt64_of (by omega) (by omega), bind_some, cInt64_of (by omega) (by omega),
    bind_some, cInt64_of (by omega) (by omega), bind_some, cInt64_of (by omega) (by omega), hres]

/-! ### Timestamps -/

theorem secondsOf_eq {first : ℤ → Option ℤ}
    (hfst : ∀ n : ℤ, 0 ≤ n → n < 2 ^ 31 → first n = some n) {time : DateTime} (h : time.IsReal)
    (hlow : -2 ^ 45 ≤ time.date.dayNumber) (hhigh : time.date.dayNumber ≤ 2 ^ 45) :
    secondsOf first time.date.dayNumber time.hour time.minute time.second = some time.timestamp := by
  obtain ⟨-, hhour, hminute, hsnd⟩ := h
  obtain ⟨days, hdays⟩ : ∃ days, days = time.date.dayNumber := ⟨_, rfl⟩
  rw [← hdays] at hlow hhigh
  simp only [secondsOf, secondsPerDay, secondsPerHour, secondsPerMinute, bind_eq_bind, ← hdays]
  rw [cInt64_of (by omega) (by omega), bind_some, hfst _ (by omega) (by omega),
    bind_some, cInt64_of (by omega) (by omega), bind_some,
    hfst _ (by omega) (by omega), bind_some, cInt64_of (by omega) (by omega),
    bind_some, cInt64_of (by omega) (by omega), DateTime.timestamp, DateTime.secondOfDay, ← hdays]
  congr 1
  omega

theorem dayNumber_bounds (h : date.IsReal) (hlow : -2 ^ 33 ≤ date.year)
    (hhigh : date.year ≤ 2 ^ 33) : -2 ^ 45 ≤ date.dayNumber ∧ date.dayNumber ≤ 2 ^ 45 := by
  have hdays := CivilDate.daysToYear_le_dayNumber h
  rw [daysToYear_eq, daysToYear_eq] at hdays
  omega

/-- The years that `from_parts` accepts: those that `struct tm` can hold. -/
def IsAcceptedYear (year : ℤ) : Prop := -2 ^ 31 + 1900 ≤ year ∧ year ≤ 2 ^ 31 - 1 + 1900

/-- `gray_time_from_parts_result` on the parts of a time. -/
def fromParts (time : DateTime) : Option (Except String ℤ) :=
  grayTimeFromPartsResult time.date.year time.date.month time.date.day time.hour time.minute
    time.second

/-- On the times that exist in an accepted year the result is the timestamp, on all others an
error. -/
theorem fromParts_spec (time : DateTime) :
    (IsAcceptedYear time.date.year ∧ time.IsReal ∧ fromParts time = some (.ok time.timestamp)) ∨
      (¬ (IsAcceptedYear time.date.year ∧ time.IsReal) ∧
        ∃ message, fromParts time = some (.error message)) := by
  unfold fromParts grayTimeFromPartsResult
  by_cases hyear : time.date.year < -2 ^ 31 + 1900 ∨ 2 ^ 31 - 1 + 1900 < time.date.year
  · rw [if_pos hyear]
    exact .inr ⟨fun h => by have := h.1.1; have := h.1.2; omega, _, rfl⟩
  by_cases hmon : time.date.month < 1 ∨ 12 < time.date.month
  · rw [if_neg hyear, if_pos hmon]
    exact .inr ⟨fun h => by have := h.2.1.1; omega, _, rfl⟩
  rw [if_neg hyear, if_neg hmon, grayTimeDaysInMonth_eq _ (by omega) (by omega), bind_some]
  split_ifs with hday hhour hminute hsnd
  · exact .inr ⟨fun h => by have := h.2.1.2; omega, _, rfl⟩
  · exact .inr ⟨fun h => by have := h.2.2.1; omega, _, rfl⟩
  · exact .inr ⟨fun h => by have := h.2.2.2.1; omega, _, rfl⟩
  · exact .inr ⟨fun h => by have := h.2.2.2.2; omega, _, rfl⟩
  · have hreal : time.IsReal := ⟨⟨by omega, by omega⟩, by omega, by omega, by omega⟩
    have hbnd := dayNumber_bounds hreal.1 (by omega) (by omega)
    rw [grayDaysFromCivil_eq hreal.1 (by omega) (by omega), bind_some,
      secondsOf_eq (fun n h₁ h₂ => cInt64_of (by omega) (by omega)) hreal hbnd.1 hbnd.2]
    exact .inl ⟨⟨by omega, by omega⟩, hreal, rfl⟩

theorem fromParts_ok_iff {time : DateTime} {t : ℤ} : fromParts time = some (.ok t) ↔
      IsAcceptedYear time.date.year ∧ time.IsReal ∧ t = time.timestamp := by
  rcases fromParts_spec time with ⟨hyear, hreal, h⟩ | ⟨hfail, message, h⟩
  · rw [h, Option.some.injEq, Except.ok.injEq]
    exact ⟨fun ht => ⟨hyear, hreal, ht.symm⟩, fun ht => ht.2.2.symm⟩
  · rw [h]
    exact iff_of_false (by simp) fun hok => hfail ⟨hok.1, hok.2.1⟩

/-- The months have their lengths, the closed form counts days, consecutive dates are one day apart,
and `from_parts` never overflows, succeeds on the times that exist, and orders them. -/
theorem grayTime_calendar : (∀ year month : ℤ, 1 ≤ month → month ≤ 12 →
      grayTimeDaysInMonth year month = some (daysInMonth year month)) ∧
    (∀ date : CivilDate, IsAcceptedYear date.year → date.IsReal →
      grayDaysFromCivil date.year date.month date.day = some date.dayNumber) ∧
    (∀ date : CivilDate, IsAcceptedYear date.year → IsAcceptedYear date.next.year → date.IsReal →
      ∃ n, grayDaysFromCivil date.year date.month date.day = some n ∧
        grayDaysFromCivil date.next.year date.next.month date.next.day = some (n + 1)) ∧
    (∀ time : DateTime, fromParts time ≠ none) ∧
    (∀ time : DateTime, (∃ t, fromParts time = some (.ok t)) ↔
      IsAcceptedYear time.date.year ∧ time.IsReal) ∧
    (∀ (a b : DateTime) (s t : ℤ), fromParts a = some (.ok s) → fromParts b = some (.ok t) →
      (s < t ↔ a.key < b.key)) := by
  have hdays : ∀ date : CivilDate, IsAcceptedYear date.year → date.IsReal →
      grayDaysFromCivil date.year date.month date.day = some date.dayNumber :=
    fun date hyear hreal => grayDaysFromCivil_eq hreal (by have := hyear.1; omega)
      (by have := hyear.2; omega)
  refine ⟨fun _ _ => grayTimeDaysInMonth_eq _, hdays, fun date hyear hnext hreal => ?_, fun time => ?_, fun time => ?_,
    fun a b s t ha hb => ?_⟩
  · refine ⟨_, hdays date hyear hreal, ?_⟩
    rw [hdays _ hnext (CivilDate.next_isReal hreal), CivilDate.dayNumber_next hreal]
  · rcases fromParts_spec time with ⟨-, -, h⟩ | ⟨-, message, h⟩ <;> simp [h]
  · simp only [fromParts_ok_iff]
    exact ⟨fun ⟨_, hyear, hreal, _⟩ => ⟨hyear, hreal⟩, fun h => ⟨_, h.1, h.2, rfl⟩⟩
  · obtain ⟨-, hrealA, rfl⟩ := fromParts_ok_iff.mp ha
    obtain ⟨-, hrealB, rfl⟩ := fromParts_ok_iff.mp hb
    exact DateTime.timestamp_lt_iff hrealA hrealB

end Grayscale
