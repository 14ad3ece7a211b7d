import Grayscale.Stdlib.Time
import Grayscale.Util.Bytes

/-!
# Adding months

`gray_time_add_months` of `stdlib/time.c`, over a `gmtime` that breaks a timestamp into the parts of
its date and its time of day.
-/

namespace Grayscale

open Calendar

/-! ### The function -/

/-- How a function on times fails: it panics, or an integer overflows. -/
inductive TimeFailure
  | panic (code : String)
  | overflow
  deriving DecidableEq

/-- An operation that is not checked. -/
def unchecked {α : Type} (value : Option α) : Except TimeFailure α :=
  value.elim (.error .overflow) .ok

/-- `time_checked_add` and `time_checked_mul`, on the exact sum or product. -/
def timeChecked (n : ℤ) : Except TimeFailure ℤ := (cInt64 n).elim (.error (.panic "P0157")) .ok

def timeFloorDivide (numerator denominator : ℤ) : ℤ :=
  let quotient := numerator.tdiv denominator
  let remainder := numerator.tmod denominator
  if remainder ≠ 0 ∧ decide (remainder < 0) ≠ decide (denominator < 0) then quotient - 1
  else quotient

def timeSecondsIntoDay (timestamp : ℤ) : Except TimeFailure ℤ := do
  let start ← unchecked (cInt64 (timeFloorDivide timestamp secondsPerDay * secondsPerDay))
  unchecked (cInt64 (timestamp - start))

def getTimeParts (gmtime : ℤ → Option TimeParts) (timestamp : ℤ) : Except TimeFailure TimeParts :=
  (gmtime timestamp).elim (.error (.panic "P0140")) .ok

/-- `gray_time_days_in_month`, with its panic. -/
def timeDaysInMonth (year month : ℤ) : Except TimeFailure ℤ :=
  (grayTimeDaysInMonth year month).elim (.error (.panic "P0128")) .ok

/-- The start of the day of a date in `gray_time_add_months`, behind the guard on the year. -/
def startOfDate (year month day : ℤ) : Except TimeFailure ℤ := do
  let _ ← timeChecked (year * 31556952)
  let days ← unchecked (grayDaysFromCivil year month day)
  timeChecked (days * secondsPerDay)

def grayTimeAddMonths (gmtime : ℤ → Option TimeParts) (timestamp months : ℤ) :
    Except TimeFailure ℤ := do
  let parts ← getTimeParts gmtime timestamp
  let partsYear ← unchecked (cInt (parts.tmYear + 1900))
  let partsMonths ← unchecked (cInt64 (partsYear * 12))
  let partsIndex ← unchecked (cInt64 (partsMonths + parts.tmMon))
  let monthIndex ← timeChecked (partsIndex + months)
  let year := timeFloorDivide monthIndex 12
  let yearMonths ← unchecked (cInt64 (year * 12))
  let month := monthIndex - yearMonths + 1
  let lastDay ← timeDaysInMonth year month
  let day := if lastDay < parts.tmMday then lastDay else parts.tmMday
  let start ← startOfDate year month day
  let seconds ← timeSecondsIntoDay timestamp
  timeChecked (start + seconds)

/-! ### What it should do -/

/-- What the code relies on of `gmtime`: the parts are those of the time of the timestamp, and the
year is an `int`. -/
def BreaksTimes (gmtime : ℤ → Option TimeParts) : Prop :=
  ∀ timestamp parts, gmtime timestamp = some parts →
    ∃ time : DateTime, time.IsReal ∧ time.timestamp = timestamp ∧
      (-2 ^ 31 ≤ parts.tmYear ∧ parts.tmYear < 2 ^ 31) ∧
      parts = ⟨time.date.year - 1900, time.date.month - 1, time.date.day, time.hour, time.minute,
        time.second⟩

/-- The months from the start of year 0. -/
def monthIndex (date : CivilDate) : ℤ := 12 * date.year + date.month - 1

/-- The time some months later, on the last day of its month if that has no such day. -/
def monthsLater (time : DateTime) (months : ℤ) : DateTime :=
  let year := (monthIndex time.date + months) / 12
  let month := (monthIndex time.date + months) % 12 + 1
  { time with date := ⟨year, month, min time.date.day (daysInMonth year month)⟩ }

/-- The number is an `i64`. -/
def FitsInt64 (n : ℤ) : Prop := -2 ^ 63 ≤ n ∧ n < 2 ^ 63

instance (n : ℤ) : Decidable (FitsInt64 n) := inferInstanceAs (Decidable (_ ∧ _))

/-- Months are added as long as the month index and the timestamp fit; else the function panics. -/
def AddsMonths (gmtime : ℤ → Option TimeParts) (time : DateTime) (months : ℤ) : Prop :=
  (FitsInt64 (monthIndex time.date + months) ∧ FitsInt64 (monthsLater time months).timestamp ∧
      grayTimeAddMonths gmtime time.timestamp months = .ok (monthsLater time months).timestamp) ∨
    (¬ (FitsInt64 (monthIndex time.date + months) ∧ FitsInt64 (monthsLater time months).timestamp) ∧
      grayTimeAddMonths gmtime time.timestamp months = .error (.panic "P0157"))

theorem monthsLater_isReal {time : DateTime} (h : time.IsReal) (months : ℤ) :
    (monthsLater time months).IsReal := by
  obtain ⟨⟨hmon, hday⟩, htime⟩ := h
  have hpos := daysInMonth_pos ((monthIndex time.date + months) / 12)
    ((monthIndex time.date + months) % 12 + 1)
  refine ⟨⟨⟨?_, ?_⟩, ?_, ?_⟩, htime⟩
  · simp only [monthsLater]
    omega
  · simp only [monthsLater]
    omega
  · simp only [monthsLater]
    omega
  · exact min_le_right _ _

/-! ### The steps of the function -/

theorem timeFloorDivide_eq (numerator : ℤ) {denominator : ℤ} (h : 0 < denominator) :
    timeFloorDivide numerator denominator = numerator / denominator := by
  have hpos : decide (denominator < 0) = false := decide_eq_false (by omega)
  have hmod := Int.emod_nonneg numerator h.ne'
  have hlt := Int.emod_lt_of_pos numerator h
  rw [timeFloorDivide, Int.tdiv_eq_ediv, Int.tmod_eq_emod, hpos]
  by_cases hexact : 0 ≤ numerator ∨ denominator ∣ numerator
  · rw [if_pos hexact, if_pos hexact, Nat.cast_zero, sub_zero, add_zero]
    exact if_neg fun hadjust => hadjust.2 (decide_eq_false (by omega))
  · rw [if_neg hexact, if_neg hexact, Int.sign_eq_one_of_pos h, Int.natAbs_of_nonneg h.le]
    refine (if_pos ⟨by omega, ?_⟩).trans (by omega)
    rw [decide_eq_true (by omega : numerator % denominator - denominator < 0)]
    exact Bool.noConfusion

theorem unchecked_some {α : Type} (value : α) : unchecked (some value) = .ok value := rfl

theorem ok_bind {α β : Type} (value : α) (next : α → Except TimeFailure β) :
    Except.ok value >>= next = next value := rfl

theorem timeChecked_of {n : ℤ} (h : FitsInt64 n) : timeChecked n = .ok n := by
  rw [timeChecked, cInt64_of h.1 h.2]
  rfl

theorem timeChecked_of_not {n : ℤ} (h : ¬ FitsInt64 n) :
    timeChecked n = .error (.panic "P0157") := by
  rw [timeChecked, cInt64, if_neg (show ¬ (-2 ^ 63 ≤ n ∧ n < 2 ^ 63) from h)]
  rfl

theorem timeSecondsIntoDay_eq {time : DateTime} (h : time.IsReal)
    (hlow : -2 ^ 45 ≤ time.date.dayNumber) (hhigh : time.date.dayNumber ≤ 2 ^ 45) :
    timeSecondsIntoDay time.timestamp = .ok time.secondOfDay := by
  obtain ⟨hfst, hlast⟩ := DateTime.secondOfDay_bounds h
  rw [timeSecondsIntoDay, timeFloorDivide_eq _ (by decide : 0 < secondsPerDay), secondsPerDay]
  have htimestamp : time.timestamp = time.date.dayNumber * 86400 + time.secondOfDay := rfl
  rw [cInt64_of (by omega) (by omega), unchecked_some]
  change unchecked (cInt64 (time.timestamp - time.timestamp / 86400 * 86400)) = _
  rw [cInt64_of (by omega) (by omega), unchecked_some]
  congr 1
  omega

variable {date : CivilDate}

theorem dayNumber_lt_of_year (h : date.IsReal)
    (hyear : date.year ≤ -292277024627) : date.dayNumber < -106751991167302 := by
  have hdays := (CivilDate.daysToYear_le_dayNumber h).2
  have hmono := CivilDate.daysToYear_mono (by omega : date.year + 1 ≤ -292277024626)
  rw [daysToYear_eq (-292277024626)] at hmono
  omega

theorem dayNumber_lt_of_guard (h : date.IsReal)
    (hyear : date.year ≤ 292277024626) : date.dayNumber < 106751991167300 := by
  have hdays := (CivilDate.daysToYear_le_dayNumber h).2
  have hmono := CivilDate.daysToYear_mono (by omega : date.year + 1 ≤ 292277024627)
  rw [daysToYear_eq 292277024627] at hmono
  omega

theorem startOfDate_eq (h : date.IsReal) : (-292277024626 ≤ date.year ∧ date.year ≤ 292277024626 ∧
        -106751991167300 ≤ date.dayNumber ∧
        startOfDate date.year date.month date.day = .ok (date.dayNumber * 86400)) ∨
      (¬ (-292277024626 ≤ date.year ∧ date.year ≤ 292277024626 ∧
          -106751991167300 ≤ date.dayNumber) ∧
        startOfDate date.year date.month date.day = .error (.panic "P0157")) := by
  rw [startOfDate]
  by_cases hyear : -292277024626 ≤ date.year ∧ date.year ≤ 292277024626
  swap
  · refine .inr ⟨fun hyear' => hyear ⟨hyear'.1, hyear'.2.1⟩, ?_⟩
    rw [timeChecked_of_not fun hfits => hyear ⟨by have := hfits.1; omega, by have := hfits.2; omega⟩]
    rfl
  have hhigh := dayNumber_lt_of_guard h hyear.2
  rw [timeChecked_of ⟨by omega, by omega⟩, grayDaysFromCivil_eq h (by omega) (by omega),
    unchecked_some, secondsPerDay]
  change _ ∧ _ ∧ _ ∧ timeChecked (date.dayNumber * 86400) = _ ∨
    _ ∧ timeChecked (date.dayNumber * 86400) = _
  by_cases hday : -106751991167300 ≤ date.dayNumber
  · exact .inl ⟨hyear.1, hyear.2, hday, timeChecked_of ⟨by omega, by omega⟩⟩
  · exact .inr ⟨fun h => hday h.2.2, timeChecked_of_not fun hfits => by have := hfits.1; omega⟩

/-! ### The whole function -/

theorem dateTime_eq_of_timestamp_eq {a b : DateTime} (ha : a.IsReal) (hb : b.IsReal)
    (h : a.timestamp = b.timestamp) : a = b := by
  have hkey : a.key = b.key := by
    rcases lt_trichotomy a.key b.key with hlt | heq | hgt
    · exact absurd h ((DateTime.timestamp_lt_iff ha hb).mpr hlt).ne
    · exact heq
    · exact absurd h ((DateTime.timestamp_lt_iff hb ha).mpr hgt).ne'
  simp only [DateTime.key, CivilDate.key, toLex_inj, Prod.mk.injEq] at hkey
  obtain ⟨⟨hyear, hmon, hday⟩, hhour, hminute, hsnd⟩ := hkey
  obtain ⟨⟨_, _, _⟩, _, _, _⟩ := a
  obtain ⟨⟨_, _, _⟩, _, _, _⟩ := b
  simp only at hyear hmon hday hhour hminute hsnd
  subst hyear hmon hday hhour hminute hsnd
  rfl

section

variable {gmtime : ℤ → Option TimeParts} {time : DateTime} {parts : TimeParts} {months : ℤ}

theorem parts_eq (hgm : BreaksTimes gmtime) (htime : time.IsReal)
    (hacc : gmtime time.timestamp = some parts) :
    -2 ^ 31 + 1900 ≤ time.date.year ∧ parts = ⟨time.date.year - 1900, time.date.month - 1,
      time.date.day, time.hour, time.minute, time.second⟩ := by
  obtain ⟨time', htime', hsame, hyear, hpts⟩ := hgm _ _ hacc
  obtain rfl := dateTime_eq_of_timestamp_eq htime' htime hsame
  have hlow := hyear.1
  rw [hpts] at hlow
  exact ⟨by change -2 ^ 31 ≤ time'.date.year - 1900 at hlow; omega, hpts⟩

theorem addMonths_of_year (hgm : BreaksTimes gmtime) (htime : time.IsReal)
    (hacc : gmtime time.timestamp = some parts) (hyear : ¬ time.date.year < 2 ^ 31) :
    grayTimeAddMonths gmtime time.timestamp months = .error .overflow := by
  obtain ⟨-, rfl⟩ := parts_eq hgm htime hacc
  have hint : cInt (time.date.year - 1900 + 1900) = none := if_neg (by omega)
  rw [grayTimeAddMonths, getTimeParts, hacc]
  change unchecked (cInt (time.date.year - 1900 + 1900)) >>= _ = _
  rw [hint]
  rfl

theorem addMonths_of_parts (hgm : BreaksTimes gmtime) (htime : time.IsReal)
    (hacc : gmtime time.timestamp = some parts) (hyear : time.date.year < 2 ^ 31) :
    grayTimeAddMonths gmtime time.timestamp months =
      timeChecked (monthIndex time.date + months) >>= fun index =>
        unchecked (cInt64 (index / 12 * 12)) >>= fun yearMonths =>
          timeDaysInMonth (index / 12) (index - yearMonths + 1) >>= fun lastDay =>
            startOfDate (index / 12) (index - yearMonths + 1) (min time.date.day lastDay) >>=
              fun start => timeChecked (start + time.secondOfDay) := by
  obtain ⟨hlow, rfl⟩ := parts_eq hgm htime hacc
  obtain ⟨hmon, -⟩ := htime.1
  have hdays := dayNumber_bounds htime.1 (by omega) (by omega)
  have hseconds := timeSecondsIntoDay_eq htime hdays.1 hdays.2
  have hint : cInt (time.date.year - 1900 + 1900) = some time.date.year := by
    rw [sub_add_cancel, cInt_of (by omega) hyear]
  have hidx : time.date.year * 12 + (time.date.month - 1) = monthIndex time.date := by
    rw [monthIndex]
    omega
  have hmonths : cInt64 (time.date.year * 12) = some (time.date.year * 12) :=
    cInt64_of (by omega) (by omega)
  have hsum : cInt64 (time.date.year * 12 + (time.date.month - 1)) =
      some (monthIndex time.date) := by rw [cInt64_of (by omega) (by omega), hidx]
  have hmin (lastDay : ℤ) : (if lastDay < time.date.day then lastDay else time.date.day) =
      min time.date.day lastDay := by rw [min_comm, min_def_lt]
  simp only [grayTimeAddMonths, getTimeParts, hacc, Option.elim_some, ok_bind, hint, hmonths,
    hsum, unchecked_some, timeFloorDivide_eq _ (by decide : (0 : ℤ) < 12), hseconds, hmin]

theorem addMonths_of_index (hgm : BreaksTimes gmtime) (htime : time.IsReal)
    (hacc : gmtime time.timestamp = some parts) (hyear : time.date.year < 2 ^ 31)
    (hfits : FitsInt64 (monthIndex time.date + months))
    (hidx : monthIndex time.date + months < -2 ^ 63 + 8) :
    grayTimeAddMonths gmtime time.timestamp months = .error .overflow := by
  have hmonths : cInt64 ((monthIndex time.date + months) / 12 * 12) = none :=
    if_neg (by have := hfits.1; omega)
  rw [addMonths_of_parts hgm htime hacc hyear, timeChecked_of hfits]
  change unchecked (cInt64 ((monthIndex time.date + months) / 12 * 12)) >>= _ = _
  rw [hmonths]
  rfl

theorem addMonths_of_not_fits (hgm : BreaksTimes gmtime) (htime : time.IsReal)
    (hacc : gmtime time.timestamp = some parts) (hyear : time.date.year < 2 ^ 31)
    (hfits : ¬ FitsInt64 (monthIndex time.date + months)) :
    grayTimeAddMonths gmtime time.timestamp months = .error (.panic "P0157") := by
  rw [addMonths_of_parts hgm htime hacc hyear, timeChecked_of_not hfits]
  rfl

theorem addMonths_of_date (hgm : BreaksTimes gmtime) (htime : time.IsReal)
    (hacc : gmtime time.timestamp = some parts) (hyear : time.date.year < 2 ^ 31)
    (hfits : FitsInt64 (monthIndex time.date + months))
    (hidx : -2 ^ 63 + 8 ≤ monthIndex time.date + months) :
    grayTimeAddMonths gmtime time.timestamp months =
      startOfDate (monthsLater time months).date.year (monthsLater time months).date.month
        (monthsLater time months).date.day >>= fun start =>
          timeChecked (start + time.secondOfDay) := by
  have hlast := grayTimeDaysInMonth_eq ((monthIndex time.date + months) / 12)
    (by omega : 1 ≤ (monthIndex time.date + months) % 12 + 1) (by omega)
  have hmon : monthIndex time.date + months - (monthIndex time.date + months) / 12 * 12 + 1 =
      (monthIndex time.date + months) % 12 + 1 := by omega
  rw [addMonths_of_parts hgm htime hacc hyear, timeChecked_of hfits]
  change unchecked (cInt64 ((monthIndex time.date + months) / 12 * 12)) >>= _ = _
  rw [cInt64_of (by omega) (by have := hfits.2; omega), unchecked_some]
  change timeDaysInMonth ((monthIndex time.date + months) / 12)
    (monthIndex time.date + months - (monthIndex time.date + months) / 12 * 12 + 1) >>= _ = _
  rw [hmon, timeDaysInMonth, hlast]
  rfl

/-- The month index is past the first eight, the year is one that the guard lets pass if the
timestamp fits, and the day does not start before the first second if it does. -/
def MonthsInReach (time : DateTime) (months : ℤ) : Prop :=
  time.date.year < 2 ^ 31 ∧ (FitsInt64 (monthIndex time.date + months) →
    -2 ^ 63 + 8 ≤ monthIndex time.date + months ∧
    ¬ (292277024627 ≤ (monthsLater time months).date.year ∧
      FitsInt64 ((monthsLater time months).date.dayNumber * 86400 + time.secondOfDay)) ∧
    ¬ ((monthsLater time months).date.dayNumber = -106751991167301 ∧ 30592 ≤ time.secondOfDay))

theorem addsMonths_of_date (hgm : BreaksTimes gmtime) (htime : time.IsReal)
    (hacc : gmtime time.timestamp = some parts) (hyear : time.date.year < 2 ^ 31)
    (hfits : FitsInt64 (monthIndex time.date + months))
    (hidx : -2 ^ 63 + 8 ≤ monthIndex time.date + months) : AddsMonths gmtime time months ↔
      ¬ (292277024627 ≤ (monthsLater time months).date.year ∧
        FitsInt64 ((monthsLater time months).date.dayNumber * 86400 + time.secondOfDay)) ∧
      ¬ ((monthsLater time months).date.dayNumber = -106751991167301 ∧
        30592 ≤ time.secondOfDay) := by
  have hsum := addMonths_of_date hgm htime hacc hyear hfits hidx
  have hreal := monthsLater_isReal htime months
  have hsnd := DateTime.secondOfDay_bounds htime
  have htimestamp : (monthsLater time months).timestamp =
      (monthsLater time months).date.dayNumber * 86400 + time.secondOfDay := rfl
  rw [AddsMonths, hsum, htimestamp]
  rcases startOfDate_eq hreal.1 with ⟨hlow, hhigh, hday, hst⟩ | ⟨hguard, hst⟩
  · -- the guard lets the year pass, and the day starts in range
    have hnum := dayNumber_lt_of_guard hreal.1 hhigh
    have hres : FitsInt64 ((monthsLater time months).date.dayNumber * 86400 +
        time.secondOfDay) := ⟨by omega, by omega⟩
    rw [hst, ok_bind, timeChecked_of hres]
    exact iff_of_true (.inl ⟨hfits, hres, rfl⟩) ⟨fun h => by omega, fun h => by omega⟩
  · rw [hst]
    have hiff : FitsInt64 ((monthsLater time months).date.dayNumber * 86400 + time.secondOfDay) ↔
        (292277024627 ≤ (monthsLater time months).date.year ∧
          FitsInt64 ((monthsLater time months).date.dayNumber * 86400 + time.secondOfDay)) ∨
        ((monthsLater time months).date.dayNumber = -106751991167301 ∧
          30592 ≤ time.secondOfDay) := by
      constructor
      · intro hres
        by_cases hbig : 292277024627 ≤ (monthsLater time months).date.year
        · exact .inl ⟨hbig, hres⟩
        · have hsml : -292277024627 < (monthsLater time months).date.year := by
            by_contra h
            have := dayNumber_lt_of_year hreal.1 (not_lt.mp h)
            have := hres.1
            omega
          have hbef : (monthsLater time months).date.dayNumber < -106751991167300 := by
            by_contra h
            exact hguard ⟨by omega, by omega, not_lt.mp h⟩
          have := hres.1
          exact .inr ⟨by omega, by omega⟩
      · rintro (⟨-, hres⟩ | ⟨hday, hlate⟩)
        · exact hres
        · exact ⟨by omega, by omega⟩
    rw [← not_or, ← hiff]
    constructor
    · rintro (⟨-, -, hok⟩ | ⟨hrng, -⟩)
      · change Except.error _ = Except.ok _ at hok
        cases hok
      · exact fun hres => hrng ⟨hfits, hres⟩
    · exact fun hres => .inr ⟨fun h => hres h.2, rfl⟩

/-- When months are added as they should be. -/
theorem addsMonths_iff (gmtime : ℤ → Option TimeParts) (hgmtime : BreaksTimes gmtime)
    (time : DateTime) (htime : time.IsReal) (parts : TimeParts)
    (haccepts : gmtime time.timestamp = some parts) (months : ℤ) :
    AddsMonths gmtime time months ↔ MonthsInReach time months := by
  have hover (h : grayTimeAddMonths gmtime time.timestamp months = .error .overflow) :
      ¬ AddsMonths gmtime time months := by
    rintro (⟨-, -, hok⟩ | ⟨-, hpanic⟩)
    · cases h.symm.trans hok
    · cases h.symm.trans hpanic
  by_cases hyear : time.date.year < 2 ^ 31
  swap
  · exact iff_of_false (hover (addMonths_of_year hgmtime htime haccepts hyear))
      fun h => hyear h.1
  rw [MonthsInReach, and_iff_right hyear]
  by_cases hfits : FitsInt64 (monthIndex time.date + months)
  swap
  · exact iff_of_true (.inr ⟨fun h => hfits h.1,
      addMonths_of_not_fits hgmtime htime haccepts hyear hfits⟩) fun h => absurd h hfits
  by_cases hidx : -2 ^ 63 + 8 ≤ monthIndex time.date + months
  · rw [addsMonths_of_date hgmtime htime haccepts hyear hfits hidx]
    exact ⟨fun h _ => ⟨hidx, h⟩, fun h => (h hfits).2⟩
  · exact iff_of_false (hover
      (addMonths_of_index hgmtime htime haccepts hyear hfits (not_le.mp hidx)))
      fun h => hidx (h hfits).1

end

/-- The first second of 1970, and a `gmtime` that knows only that. -/
def epoch : DateTime := ⟨⟨1970, 1, 1⟩, 0, 0, 0⟩

def gmtimeOfEpoch (timestamp : ℤ) : Option TimeParts :=
  if timestamp = 0 then some ⟨70, 0, 1, 0, 0, 0⟩ else none

theorem breaksTimes_gmtimeOfEpoch : BreaksTimes gmtimeOfEpoch := by
  intro timestamp parts h
  by_cases hzero : timestamp = 0
  · rw [gmtimeOfEpoch, if_pos hzero] at h
    cases h
    exact ⟨epoch, by decide, by rw [hzero]; decide, ⟨by decide, by decide⟩, rfl⟩
  · rw [gmtimeOfEpoch, if_neg hzero] at h
    cases h

theorem gmtimeOfEpoch_epoch : gmtimeOfEpoch epoch.timestamp = some ⟨70, 0, 1, 0, 0, 0⟩ :=
  if_pos (by decide)

theorem addsMonths_thirteen : AddsMonths gmtimeOfEpoch epoch 13 ↔ MonthsInReach epoch 13 :=
  addsMonths_iff gmtimeOfEpoch breaksTimes_gmtimeOfEpoch epoch (by decide) ⟨70, 0, 1, 0, 0, 0⟩
    gmtimeOfEpoch_epoch 13

/-- The guard stops at the first year whose average length is past the range, not at the last date
in it. -/
theorem not_addsMonths_guard : ¬ AddsMonths gmtimeOfEpoch epoch 3507324271884 := by
  have hcode : grayTimeAddMonths gmtimeOfEpoch epoch.timestamp 3507324271884 =
      .error (.panic "P0157") := by
    rw [addMonths_of_date breaksTimes_gmtimeOfEpoch (by decide) gmtimeOfEpoch_epoch
      (by decide) (by decide) (by decide), startOfDate, timeChecked_of_not (by decide)]
    rfl
  rintro (⟨-, -, hok⟩ | ⟨hrng, -⟩)
  · cases hcode.symm.trans hok
  · have hreal := @monthsLater_isReal epoch (by decide) 3507324271884
    have hdays := CivilDate.daysToYear_le_dayNumber hreal.1
    rw [show (monthsLater epoch 3507324271884).date.year = 292277024627 by decide,
      daysToYear_eq, daysToYear_eq] at hdays
    have hsnd := DateTime.secondOfDay_bounds hreal
    refine hrng ⟨by decide, ?_⟩
    rw [DateTime.timestamp]
    exact ⟨by omega, by omega⟩

end Grayscale
