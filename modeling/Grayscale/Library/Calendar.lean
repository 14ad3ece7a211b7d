import Mathlib.Algebra.BigOperators.Intervals
import Mathlib.Data.Prod.Lex
import Mathlib.Tactic.IntervalCases

/-!
# The proleptic Gregorian calendar

Dates, and the days between them, counted year by year, month by month and day by day.
-/

namespace Grayscale

namespace Calendar

/-! ### Months and years -/

/-- A year of 366 days. -/
def IsLeapYear (year : ℤ) : Prop := year % 4 = 0 ∧ year % 100 ≠ 0 ∨ year % 400 = 0

instance (year : ℤ) : Decidable (IsLeapYear year) := inferInstanceAs (Decidable (_ ∨ _))

/-- The length of a month, by its number from 1. -/
def daysInMonth (year : ℤ) : ℤ → ℤ
  | 2 => if IsLeapYear year then 29 else 28
  | 4 | 6 | 9 | 11 => 30
  | _ => 31

/-- The days of a year, counted over its months. -/
def yearLength (year : ℤ) : ℤ := ∑ k ∈ Finset.range 12, daysInMonth year (k + 1)

variable (year : ℤ)

theorem yearLength_eq : yearLength year = if IsLeapYear year then 366 else 365 := by
  simp only [yearLength, Finset.sum_range_succ, Finset.sum_range_zero]
  by_cases h : IsLeapYear year <;> simp [daysInMonth, h]

theorem daysInMonth_pos (year month : ℤ) : 28 ≤ daysInMonth year month := by
  unfold daysInMonth
  split
  · split_ifs <;> decide
  all_goals decide

theorem daysInMonth_le (year month : ℤ) : daysInMonth year month ≤ 31 := by
  unfold daysInMonth
  split
  · split_ifs <;> decide
  all_goals decide

/-- The days from the first of January 1970 to that of a year, counted over the years between. -/
def daysToYear (year : ℤ) : ℤ := ∑ k ∈ Finset.range (year - 1970).toNat, yearLength (1970 + k) -
    ∑ k ∈ Finset.range (1970 - year).toNat, yearLength (1969 - k)

theorem daysToYear_succ : daysToYear (year + 1) = daysToYear year + yearLength year := by
  rcases lt_or_ge year 1970 with h | h
  · obtain ⟨n, rfl⟩ : ∃ n : ℕ, year = 1969 - n := ⟨(1969 - year).toNat, by omega⟩
    have haft : ((1969 - n : ℤ) - 1970).toNat = 0 := by omega
    have haft' : ((1969 - n : ℤ) + 1 - 1970).toNat = 0 := by omega
    have hbef : (1970 - (1969 - n : ℤ)).toNat = n + 1 := by omega
    have hbef' : (1970 - ((1969 - n : ℤ) + 1)).toNat = n := by omega
    rw [daysToYear, daysToYear, haft, haft', hbef, hbef', Finset.sum_range_succ]
    omega
  · obtain ⟨n, rfl⟩ : ∃ n : ℕ, year = 1970 + n := ⟨(year - 1970).toNat, by omega⟩
    have haft : ((1970 + n : ℤ) - 1970).toNat = n := by omega
    have haft' : ((1970 + n : ℤ) + 1 - 1970).toNat = n + 1 := by omega
    have hbef : (1970 - (1970 + n : ℤ)).toNat = 0 := by omega
    have hbef' : (1970 - ((1970 + n : ℤ) + 1)).toNat = 0 := by omega
    rw [daysToYear, daysToYear, haft, haft', hbef, hbef', Finset.sum_range_succ]
    omega

theorem daysToYear_eq : daysToYear year =
      365 * (year - 1) + (year - 1) / 4 - (year - 1) / 100 + (year - 1) / 400 - 719162 := by
  have hstep : ∀ year : ℤ, 365 * year + year / 4 - year / 100 + year / 400 - 719162 =
        365 * (year - 1) + (year - 1) / 4 - (year - 1) / 100 + (year - 1) / 400 - 719162 +
          yearLength year := by
    intro year
    rw [yearLength_eq]
    unfold IsLeapYear
    split_ifs <;> omega
  -- The two sides agree in 1970 and grow alike in both directions.
  refine Int.inductionOn' year 1970 (by decide) (fun k _ ih => ?_) fun k _ ih => ?_
  · rw [daysToYear_succ, ih, add_sub_cancel_right, ← hstep]
  · have hsucc := daysToYear_succ (k - 1)
    have hk := hstep (k - 1)
    rw [sub_add_cancel] at hsucc
    omega

/-- The days of a year before a month, counted over the months. -/
def daysToMonth (year month : ℤ) : ℤ :=
  ∑ k ∈ Finset.range (month - 1).toNat, daysInMonth year (k + 1)

theorem daysToMonth_one : daysToMonth year 1 = 0 := rfl

theorem daysToMonth_succ {month : ℤ} (h : 1 ≤ month) :
    daysToMonth year (month + 1) = daysToMonth year month + daysInMonth year month := by
  obtain ⟨n, rfl⟩ : ∃ n : ℕ, month = n + 1 := ⟨(month - 1).toNat, by omega⟩
  have hmon : ((n : ℤ) + 1 - 1).toNat = n := by omega
  have hnext : ((n : ℤ) + 1 + 1 - 1).toNat = n + 1 := by omega
  rw [daysToMonth, daysToMonth, hmon, hnext]
  exact Finset.sum_range_succ _ n

theorem daysToMonth_thirteen : daysToMonth year 13 = yearLength year := rfl

theorem daysToMonth_eq {month : ℤ} (h₁ : 1 ≤ month) (h₂ : month ≤ 12) : daysToMonth year month =
      if month ≤ 2 then 31 * (month - 1)
      else (153 * (month - 3) + 2) / 5 + if IsLeapYear year then 60 else 59 := by
  by_cases h : IsLeapYear year <;> interval_cases month <;>
    simp [daysToMonth, Finset.sum_range_succ, daysInMonth, h]

theorem daysToMonth_mono {a b : ℤ} (ha : 1 ≤ a) (hab : a ≤ b) :
    daysToMonth year a ≤ daysToMonth year b := by
  induction b, hab using Int.leInduction with
  | base => exact le_rfl
  | succ b hb ih =>
    have := daysToMonth_succ year (ha.trans hb)
    have := daysInMonth_pos year b
    omega

/-! ### Dates -/

/-- A year, a month and a day, which need not be those of a date. -/
structure CivilDate where
  year : ℤ
  month : ℤ
  day : ℤ
  deriving DecidableEq

namespace CivilDate

variable {a b date : CivilDate}

/-- The date is one of the calendar. -/
def IsReal (date : CivilDate) : Prop :=
  (1 ≤ date.month ∧ date.month ≤ 12) ∧ 1 ≤ date.day ∧ date.day ≤ daysInMonth date.year date.month

instance (date : CivilDate) : Decidable date.IsReal := inferInstanceAs (Decidable (_ ∧ _))

/-- The date after a date: the next day of its month, else the first of the next month, else the
first of the next year. -/
def next (date : CivilDate) : CivilDate :=
  if date.day < daysInMonth date.year date.month then { date with day := date.day + 1 }
  else if date.month < 12 then ⟨date.year, date.month + 1, 1⟩
  else ⟨date.year + 1, 1, 1⟩

/-- The days from 1970-01-01: those of the years, of the months and of the month between. -/
def dayNumber (date : CivilDate) : ℤ :=
  daysToYear date.year + daysToMonth date.year date.month + (date.day - 1)

theorem next_isReal (h : date.IsReal) : date.next.IsReal := by
  obtain ⟨hmon, hday⟩ := h
  unfold next
  split_ifs with hlast hdecember
  · exact ⟨hmon, by dsimp only; omega, by dsimp only; omega⟩
  · exact ⟨⟨by dsimp only; omega, by dsimp only; omega⟩, le_rfl,
      (by decide : (1 : ℤ) ≤ 28).trans (daysInMonth_pos _ _)⟩
  · exact ⟨⟨le_rfl, by dsimp only; omega⟩, le_rfl, (by decide : (1 : ℤ) ≤ 28).trans (daysInMonth_pos _ _)⟩

theorem dayNumber_next (h : date.IsReal) : date.next.dayNumber = date.dayNumber + 1 := by
  obtain ⟨hmon, hday⟩ := h
  unfold next
  split_ifs with hlast hdecember
  · simp only [dayNumber]
    omega
  · simp only [dayNumber]
    rw [daysToMonth_succ date.year hmon.1]
    omega
  · have hmon' : date.month = 12 := by omega
    have hyear := daysToMonth_succ date.year hmon.1
    rw [hmon', show (12 : ℤ) + 1 = 13 from rfl, daysToMonth_thirteen] at hyear
    simp only [dayNumber, daysToYear_succ, daysToMonth_one]
    rw [hmon'] at hlast hday ⊢
    omega

theorem daysToYear_le_dayNumber (h : date.IsReal) :
    daysToYear date.year ≤ date.dayNumber ∧ date.dayNumber < daysToYear (date.year + 1) := by
  obtain ⟨hmon, hday⟩ := h
  have hlow := daysToMonth_mono date.year le_rfl hmon.1
  have hhigh := daysToMonth_mono date.year (by omega : (1 : ℤ) ≤ date.month + 1)
    (by omega : date.month + 1 ≤ 13)
  rw [daysToMonth_one] at hlow
  rw [daysToMonth_thirteen, daysToMonth_succ date.year hmon.1] at hhigh
  rw [daysToYear_succ]
  unfold dayNumber
  omega

theorem daysToYear_mono {a b : ℤ} (hab : a ≤ b) : daysToYear a ≤ daysToYear b := by
  induction b, hab using Int.leInduction with
  | base => exact le_rfl
  | succ b hb ih =>
    rw [daysToYear_succ, yearLength_eq]
    split_ifs <;> omega

/-- The order of dates: of the years, then of the months, then of the days. -/
def key (date : CivilDate) : ℤ ×ₗ ℤ ×ₗ ℤ := toLex (date.year, toLex (date.month, date.day))

theorem key_lt_iff : a.key < b.key ↔
    a.year < b.year ∨ a.year = b.year ∧ (a.month < b.month ∨ a.month = b.month ∧ a.day < b.day) := by
  simp only [key, Prod.Lex.toLex_lt_toLex]

theorem dayNumber_lt (ha : a.IsReal) (hb : b.IsReal) (h : a.key < b.key) :
    a.dayNumber < b.dayNumber := by
  rcases key_lt_iff.mp h with hyear | ⟨hyear, hmon | ⟨hmon, hday⟩⟩
  · have hmono := daysToYear_mono (by omega : a.year + 1 ≤ b.year)
    have := (daysToYear_le_dayNumber ha).2
    have := (daysToYear_le_dayNumber hb).1
    omega
  · have hmono := daysToMonth_mono b.year (by have := ha.1; omega : (1 : ℤ) ≤ a.month + 1)
      (by omega : a.month + 1 ≤ b.month)
    rw [daysToMonth_succ b.year ha.1.1] at hmono
    have hlast := ha.2.2
    have hfst := hb.2.1
    simp only [dayNumber, hyear] at hlast ⊢
    omega
  · simp only [dayNumber, hyear, hmon]
    omega

theorem dayNumber_lt_iff (ha : a.IsReal) (hb : b.IsReal) :
    a.dayNumber < b.dayNumber ↔ a.key < b.key := by
  refine ⟨fun h => ?_, dayNumber_lt ha hb⟩
  rcases lt_trichotomy a.key b.key with hlt | heq | hgt
  · exact hlt
  · simp only [key, toLex_inj, Prod.mk.injEq] at heq
    rw [dayNumber, dayNumber, heq.1, heq.2.1, heq.2.2] at h
    exact absurd h (lt_irrefl _)
  · exact absurd (h.trans (dayNumber_lt hb ha hgt)) (lt_irrefl _)

end CivilDate

/-! ### Dates and times of day -/

structure DateTime where
  date : CivilDate
  hour : ℤ
  minute : ℤ
  second : ℤ
  deriving DecidableEq

namespace DateTime

variable {a b time : DateTime}

/-- The date is one of the calendar and the time one of its day. -/
def IsReal (time : DateTime) : Prop :=
  time.date.IsReal ∧ (0 ≤ time.hour ∧ time.hour ≤ 23) ∧ (0 ≤ time.minute ∧ time.minute ≤ 59) ∧
    (0 ≤ time.second ∧ time.second ≤ 59)

instance (time : DateTime) : Decidable time.IsReal := inferInstanceAs (Decidable (_ ∧ _))

def secondOfDay (time : DateTime) : ℤ := time.hour * 3600 + time.minute * 60 + time.second

/-- The seconds from the start of 1970-01-01. -/
def timestamp (time : DateTime) : ℤ := time.date.dayNumber * 86400 + time.secondOfDay

/-- The order of times: of the dates, then of the hours, minutes and seconds. -/
def key (time : DateTime) : (ℤ ×ₗ ℤ ×ₗ ℤ) ×ₗ ℤ ×ₗ ℤ ×ₗ ℤ :=
  toLex (time.date.key, toLex (time.hour, toLex (time.minute, time.second)))

theorem key_lt_iff : a.key < b.key ↔ a.date.key < b.date.key ∨ a.date.key = b.date.key ∧
      (a.hour < b.hour ∨ a.hour = b.hour ∧
        (a.minute < b.minute ∨ a.minute = b.minute ∧ a.second < b.second)) := by
  simp only [key, Prod.Lex.toLex_lt_toLex]

theorem secondOfDay_bounds (h : time.IsReal) : 0 ≤ time.secondOfDay ∧ time.secondOfDay < 86400 := by
  obtain ⟨-, hhour, hminute, hsnd⟩ := h
  unfold secondOfDay
  omega

theorem timestamp_lt_iff (ha : a.IsReal) (hb : b.IsReal) :
    a.timestamp < b.timestamp ↔ a.key < b.key := by
  have hab := CivilDate.dayNumber_lt_iff ha.1 hb.1
  have hba := CivilDate.dayNumber_lt_iff hb.1 ha.1
  have hsecondA := secondOfDay_bounds ha
  have hsecondB := secondOfDay_bounds hb
  rw [key_lt_iff]
  rcases lt_trichotomy a.date.key b.date.key with hlt | heq | hgt
  · have := hab.mpr hlt
    exact iff_of_true (by unfold timestamp; omega) (.inl hlt)
  · obtain ⟨-, hhourA, hminuteA, hsecondA⟩ := ha
    obtain ⟨-, hhourB, hminuteB, hsecondB⟩ := hb
    have hday : a.date.dayNumber = b.date.dayNumber := by
      have h₁ : ¬ a.date.dayNumber < b.date.dayNumber := fun h => (hab.mp h).ne heq
      have h₂ : ¬ b.date.dayNumber < a.date.dayNumber := fun h => (hba.mp h).ne' heq
      omega
    simp only [heq, lt_irrefl, true_and, false_or, timestamp, secondOfDay, hday]
    omega
  · have := hba.mpr hgt
    refine iff_of_false (by unfold timestamp; omega) ?_
    rintro (hlt | ⟨heq, -⟩)
    · exact lt_asymm hlt hgt
    · exact hgt.ne' heq

end DateTime

end Calendar

end Grayscale
