/-
Three programs and one calendar: `touch` (days_from_civil), `date`
(Calendar::from_unix) and `cal` (civil_from_days, day_of_week), all of
user_program/src/bin.

# The era

The formulas count years from March and days in an era of 400 years. The
only step that is not plain arithmetic is the year of a day of the era: the
quotient by 365, after one day is taken off for every leap day before. A day
of the era has a form `36524 b + 1461 q + 365 r + s` (`EraDay`), for the
century, the four years, the year and the day in it, and on these forms the
quotient is `100 b + 4 q + r`.

# Ranges

Numbers are unbounded: where the arithmetic of the source stays in range, it
is this arithmetic. A cast to `u64` is `asU64`; no other cast here changes a
value.
-/
import Mathlib.Algebra.Ring.Int.Defs
import Mathlib.Algebra.Ring.Nat
import Mathlib.Order.Monotone.Basic
import Mathlib.Tactic.Common

namespace LinuxRs.Dates

-- ======== the programs

def asU64 (x : Int) : Nat := (x % 2 ^ 64).toNat

def yearOfEra (doe : Nat) : Nat :=
  (doe - doe / 1460 + doe / 36524 - doe / 146096) / 365

/-- `civil_from_days` of `cal`: year, month and day. -/
def civilFromDays (days : Int) : Int × Nat × Nat :=
  let z := days + 719468
  let era := Int.tdiv (if 0 ≤ z then z else z - 146096) 146097
  let doe := asU64 (z - era * 146097)
  let yoe := yearOfEra doe
  let y0 := (yoe : Int) + era * 400
  let doy := doe - (365 * yoe + yoe / 4 - yoe / 100)
  let mp := (5 * doy + 2) / 153
  let day := doy - (153 * mp + 2) / 5 + 1
  let month := if mp < 10 then mp + 3 else mp - 9
  (y0 + (if month ≤ 2 then 1 else 0), month, day)

structure Calendar where
  year : Int
  month : Nat
  day : Nat
  hour : Nat
  minute : Nat
  second : Nat
  /-- 0 is Sunday. -/
  weekday : Nat

/-- `Calendar::from_unix`; its date is computed as `cal` does. -/
def Calendar.fromUnix (secs : Int) : Calendar :=
  let days := secs / 86400
  let secondsOfDay := asU64 (secs % 86400)
  let civil := civilFromDays days
  { year := civil.1
    month := civil.2.1
    day := civil.2.2
    hour := secondsOfDay / 3600
    minute := secondsOfDay / 60 % 60
    second := secondsOfDay % 60
    weekday := ((days + 4) % 7).toNat }

def daysFromCivil (year month day : Int) : Int :=
  let year := year - (if month ≤ 2 then 1 else 0)
  let era := year / 400
  let yoe := year - era * 400
  let monthPrime := month + (if month > 2 then -3 else 9)
  let doy := Int.tdiv (153 * monthPrime + 2) 5 + day - 1
  let doe := yoe * 365 + Int.tdiv yoe 4 - Int.tdiv yoe 100 + doy
  era * 146097 + doe - 719468

def isLeapYear (year : Int) : Bool :=
  year % 4 = 0 && (year % 100 != 0 || year % 400 = 0)

def daysInMonth (year : Int) (month : Nat) : Nat :=
  if month ∈ [1, 3, 5, 7, 8, 10, 12] then 31
  else if month ∈ [4, 6, 9, 11] then 30
  else if month = 2 then if isLeapYear year then 29 else 28
  else 0

/-- `is_leap` of `cal`. -/
def isLeap (y : Nat) : Bool := (y % 4 = 0 && y % 100 != 0) || y % 400 = 0

/-- `days_in_month` of `cal`. -/
def calDaysInMonth (month year : Nat) : Nat :=
  if month ∈ [4, 6, 9, 11] then 30
  else if month = 2 then if isLeap year then 29 else 28
  else 31

theorem isLeap_eq (year : Nat) : isLeap year = isLeapYear year := by
  rw [Bool.eq_iff_iff]
  simp only [isLeap, isLeapYear, Bool.or_eq_true, Bool.and_eq_true,
    decide_eq_true_eq, bne_iff_ne, ne_eq]
  omega

/-- `cal` and `touch` give a month the same number of days. -/
theorem calDaysInMonth_eq (year : Nat) {month : Nat}
    (h : 1 ≤ month ∧ month ≤ 12) :
    calDaysInMonth month year = daysInMonth year month := by
  unfold calDaysInMonth daysInMonth
  rw [isLeap_eq]
  simp only [List.mem_cons, List.not_mem_nil, or_false]
  split_ifs <;> omega

def dayOfWeek (y m d : Nat) : Nat :=
  let m' := if m < 3 then m + 12 else m
  let y' := if m < 3 then y - 1 else y
  let k := y' % 100
  let j := y' / 100
  let h := (d + 13 * (m' + 1) / 5 + k + k / 4 + j / 4 + 5 * j) % 7
  (h + 6) % 7

-- ======== days of an era

def yearStart (yoe : Nat) : Nat := 365 * yoe + yoe / 4 - yoe / 100

/-- A day of the era by century, four years, year and day, but for the leap
day that ends the era. -/
structure EraDay (doe b q r s : Nat) : Prop where
  century : b < 4
  four : q < 25
  year : r < 4
  day : s < 365 ∨ r = 3 ∧ s = 365
  last : 1461 * q + 365 * r + s < 36524
  eq : doe = 36524 * b + 1461 * q + 365 * r + s

variable {doe b q r s : Nat}

theorem exists_eraDay (h : doe < 146096) : ∃ b q r s, EraDay doe b q r s := by
  obtain ⟨c, hc⟩ : ∃ c, c = doe % 36524 := ⟨_, rfl⟩
  obtain ⟨t, ht⟩ : ∃ t, t = c % 1461 := ⟨_, rfl⟩
  by_cases hlast : t = 1460
  · refine ⟨doe / 36524, c / 1461, 3, 365, ?_, ?_, ?_, ?_, ?_, ?_⟩ <;> omega
  · refine ⟨doe / 36524, c / 1461, t / 365, t % 365, ?_, ?_, ?_, ?_, ?_, ?_⟩
      <;> omega

theorem EraDay.yearOfEra (h : EraDay doe b q r s) :
    yearOfEra doe = 100 * b + 4 * q + r := by
  obtain ⟨hb, hq, hr, hs, hlast, rfl⟩ := h
  unfold Dates.yearOfEra
  have hcentury : (36524 * b + 1461 * q + 365 * r + s) / 36524 = b := by omega
  have hera : (36524 * b + 1461 * q + 365 * r + s) / 146096 = 0 := by omega
  rw [hcentury, hera]
  -- the leap days counted by 1460 are those before, and this one if late
  rcases Nat.lt_or_ge (24 * b + q + 365 * r + s) 1460 with hlt | hge
  · have hleap : (36524 * b + 1461 * q + 365 * r + s) / 1460 = 25 * b + q := by
      omega
    rw [hleap]
    omega
  · have hleap : (36524 * b + 1461 * q + 365 * r + s) / 1460
        = 25 * b + q + 1 := by omega
    rw [hleap]
    omega

theorem yearStart_form (hq : q < 25) (hr : r < 4) :
    yearStart (100 * b + 4 * q + r) = 36524 * b + 1461 * q + 365 * r := by
  unfold yearStart
  have hfour : (100 * b + 4 * q + r) / 4 = 25 * b + q := by omega
  have hcentury : (100 * b + 4 * q + r) / 100 = b := by omega
  rw [hfour, hcentury]
  omega

theorem EraDay.before_next (h : EraDay doe b q r s)
    (hyear : 100 * b + 4 * q + r < 399) :
    doe < yearStart (100 * b + 4 * q + r + 1) := by
  obtain ⟨hb, hq, hr, hs, hlast, rfl⟩ := h
  by_cases hthird : r < 3
  · rw [show 100 * b + 4 * q + r + 1 = 100 * b + 4 * q + (r + 1) by omega,
      yearStart_form hq (by omega)]
    omega
  · by_cases hfour : q < 24
    · rw [show 100 * b + 4 * q + r + 1 = 100 * b + 4 * (q + 1) + 0 by omega,
        yearStart_form (by omega) (by omega)]
      omega
    · rw [show 100 * b + 4 * q + r + 1 = 100 * (b + 1) + 4 * 0 + 0 by omega,
        yearStart_form (by omega) (by omega)]
      omega

theorem yearOfEra_spec (h : doe < 146097) :
    yearOfEra doe < 400 ∧ yearStart (yearOfEra doe) ≤ doe ∧
      (yearOfEra doe < 399 → doe < yearStart (yearOfEra doe + 1)) := by
  by_cases hlast : doe = 146096
  · subst hlast
    decide
  · obtain ⟨b, q, r, s, hday⟩ := exists_eraDay (show doe < 146096 by omega)
    have hyear := hday.yearOfEra
    have hnext := hday.before_next
    obtain ⟨hb, hq, hr, -, -, heq⟩ := hday
    rw [hyear]
    refine ⟨by omega, ?_, hnext⟩
    rw [yearStart_form hq hr]
    omega

theorem yearStart_mono : Monotone yearStart := by
  apply monotone_nat_of_le_succ
  intro n
  unfold yearStart
  omega

theorem yearOfEra_unique {yoe : Nat} (hyoe : yoe < 400)
    (hstart : yearStart yoe ≤ doe) (hdoe : doe < 146097)
    (hnext : yoe < 399 → doe < yearStart (yoe + 1)) : yearOfEra doe = yoe := by
  obtain ⟨hlt, hle, hnext'⟩ := yearOfEra_spec hdoe
  generalize yearOfEra doe = yoe' at hlt hle hnext'
  rcases Nat.lt_trichotomy yoe' yoe with h | h | h
  · have := hnext' (by omega)
    have := yearStart_mono (show yoe' + 1 ≤ yoe from h)
    omega
  · exact h
  · have := hnext (by omega)
    have := yearStart_mono (show yoe + 1 ≤ yoe' from h)
    omega

-- ======== dates from March

/-- Days from the first of March to the first of the month `mp` after
March. -/
def monthStart (mp : Nat) : Nat := (153 * mp + 2) / 5

/-- A day of an era as a date, in a year from March on. -/
structure MarchDate (era : Int) (doe yoe mp day : Nat) : Prop where
  year : yoe < 400
  month : mp ≤ 11
  first : 1 ≤ day
  last : day ≤ daysInMonth (era * 400 + yoe + (if mp < 10 then 0 else 1))
    (if mp < 10 then mp + 3 else mp - 9)
  eq : doe = yearStart yoe + (monthStart mp + day - 1)

variable {era : Int} {yoe mp day : Nat}

/-- The months of a March year begin where the ones before them end. -/
theorem month_length (hyoe : yoe < 400) (hmp : mp ≤ 11) :
    daysInMonth (era * 400 + yoe + (if mp < 10 then 0 else 1))
      (if mp < 10 then mp + 3 else mp - 9)
    = if mp < 11 then monthStart (mp + 1) - monthStart mp
      else if yoe = 399 then 146097 - yearStart 399 - 337
      else yearStart (yoe + 1) - yearStart yoe - 337 := by
  have hfebruary : isLeapYear (era * 400 + yoe + 1)
      = decide (yoe = 399 ∨ yearStart (yoe + 1) = yearStart yoe + 366) := by
    unfold isLeapYear yearStart
    rw [Bool.eq_iff_iff]
    simp only [Bool.and_eq_true, Bool.or_eq_true, decide_eq_true_eq, bne_iff_ne]
    omega
  have hyear : yoe ≠ 399 → yearStart (yoe + 1) = yearStart yoe + 366 ∨
      yearStart (yoe + 1) = yearStart yoe + 365 := by
    unfold yearStart
    omega
  by_cases hlast : mp = 11
  · subst hlast
    have hdays : daysInMonth (era * 400 + yoe + 1) 2
        = if isLeapYear (era * 400 + yoe + 1) then 29 else 28 := rfl
    rw [show (if 11 < 11 then monthStart (11 + 1) - monthStart 11
        else if yoe = 399 then 146097 - yearStart 399 - 337
        else yearStart (yoe + 1) - yearStart yoe - 337)
      = if yoe = 399 then 146097 - yearStart 399 - 337
        else yearStart (yoe + 1) - yearStart yoe - 337 from rfl]
    refine hdays.trans ?_
    rw [hfebruary]
    by_cases hend : yoe = 399
    · subst hend
      simp only [true_or, decide_true, if_true]
      decide
    · have := hyear hend
      simp only [hend, false_or, decide_eq_true_eq, if_false]
      split <;> omega
  · rw [if_pos (show mp < 11 by omega)]
    unfold daysInMonth monthStart
    have hcases : mp = 0 ∨ mp = 1 ∨ mp = 2 ∨ mp = 3 ∨ mp = 4 ∨ mp = 5 ∨ mp = 6 ∨
      mp = 7 ∨ mp = 8 ∨ mp = 9 ∨ mp = 10 := by omega
    rcases hcases with rfl | rfl | rfl | rfl | rfl | rfl | rfl | rfl | rfl | rfl
      | rfl <;> rfl

/-- A date of a year is a day of the year. -/
theorem MarchDate.doe_lt (h : MarchDate era doe yoe mp day) :
    monthStart mp + day - 1 < (if yoe = 399 then 146097 - yearStart 399
      else yearStart (yoe + 1) - yearStart yoe) := by
  have hlast := h.last
  rw [month_length h.year h.month] at hlast
  have hmp := h.month
  have hlong : 365 ≤ yearStart (yoe + 1) - yearStart yoe := by
    unfold yearStart
    omega
  have hend : yearStart 399 = 145731 := rfl
  split at hlast
  · have hstart : monthStart (mp + 1) ≤ 337 := by
      unfold monthStart
      omega
    have := h.first
    split <;> omega
  · obtain rfl : mp = 11 := by omega
    have hfirst : monthStart 11 = 337 := rfl
    have := h.first
    split at hlast
    next h399 =>
      rw [if_pos h399]
      omega
    next h399 =>
      rw [if_neg h399]
      omega

/-- The divisions of `civil_from_days` give the date back. -/
theorem MarchDate.civil (h : MarchDate era doe yoe mp day) :
    doe < 146097 ∧ Dates.yearOfEra doe = yoe ∧
      (5 * (doe - yearStart yoe) + 2) / 153 = mp ∧
      doe - yearStart yoe - monthStart mp + 1 = day := by
  have hlt := h.doe_lt
  have hyear := h.year
  have hfirst := h.first
  have hlast := h.last
  have hmp := h.month
  have heq := h.eq
  rw [month_length hyear hmp] at hlast
  have hmono : yoe < 399 → yearStart (yoe + 1) ≤ yearStart 399 := fun hy =>
    yearStart_mono hy
  have hend : yearStart 399 = 145731 := rfl
  have hdoe : doe < 146097 ∧
      (yoe < 399 → doe < yearStart (yoe + 1)) := by
    split at hlt
    next h399 =>
      subst h399
      omega
    next => omega
  refine ⟨hdoe.1, yearOfEra_unique hyear (by omega) hdoe.1 hdoe.2, ?_, by omega⟩
  rw [heq, Nat.add_sub_cancel_left]
  split at hlast
  · unfold monthStart at hlast ⊢
    omega
  · obtain rfl : mp = 11 := by omega
    have hfeb : day ≤ 29 := by
      have hyear' : yearStart (yoe + 1) ≤ yearStart yoe + 366 := by
        unfold yearStart
        omega
      split at hlast <;> omega
    unfold monthStart
    omega

/-- Every day of an era has a date. -/
theorem exists_marchDate (h : doe < 146097) : ∃ yoe mp day,
    MarchDate era doe yoe mp day := by
  obtain ⟨hyoe, hle, hnext⟩ := yearOfEra_spec h
  generalize Dates.yearOfEra doe = yoe at hyoe hle hnext
  obtain ⟨doy, rfl⟩ : ∃ doy, doe = yearStart yoe + doy :=
    ⟨doe - yearStart yoe, by omega⟩
  have hlong : yearStart (yoe + 1) ≤ yearStart yoe + 366 := by
    unfold yearStart
    omega
  have hend : yearStart 399 = 145731 := rfl
  have hdoy : doy < 366 := by
    by_cases h399 : yoe = 399
    · subst h399
      omega
    · have := hnext (by omega)
      omega
  have hmp : (5 * doy + 2) / 153 ≤ 11 := by omega
  have hstart : monthStart ((5 * doy + 2) / 153) ≤ doy := by
    unfold monthStart
    omega
  refine ⟨yoe, (5 * doy + 2) / 153,
    doy - monthStart ((5 * doy + 2) / 153) + 1, hyoe, hmp, by omega, ?_,
    by omega⟩
  rw [month_length hyoe hmp]
  split
  · have : doy < monthStart ((5 * doy + 2) / 153 + 1) := by
      unfold monthStart
      omega
    omega
  next hlast =>
    have hfirst : monthStart ((5 * doy + 2) / 153) = 337 := by
      rw [show (5 * doy + 2) / 153 = 11 by omega]
      rfl
    rw [hfirst]
    split
    next h399 =>
      subst h399
      omega
    next h399 =>
      have := hnext (by omega)
      omega

-- ======== the conversions

/-- A date of the calendar. -/
structure Valid (year : Int) (month day : Nat) : Prop where
  inYear : 1 ≤ month ∧ month ≤ 12
  inMonth : 1 ≤ day ∧ day ≤ daysInMonth year month

theorem civilFromDays_eq {days : Int}
    (h : MarchDate era doe yoe mp day)
    (hdays : days = era * 146097 + doe - 719468) :
    civilFromDays days
      = (era * 400 + yoe + (if mp < 10 then 0 else 1),
        if mp < 10 then mp + 3 else mp - 9, day) := by
  obtain ⟨hdoe, hyoe, hmp, hday⟩ := h.civil
  have hera : Int.tdiv (if 0 ≤ days + 719468 then days + 719468
      else days + 719468 - 146096) 146097 = era := by
    split
    · rw [Int.tdiv_eq_ediv_of_nonneg (by omega)]
      omega
    · rw [show days + 719468 - 146096 = -(146096 - (days + 719468)) by omega,
        Int.neg_tdiv, Int.tdiv_eq_ediv_of_nonneg (by omega)]
      omega
  have hcast : asU64 (days + 719468 - era * 146097) = doe := by
    unfold asU64
    omega
  unfold civilFromDays
  dsimp only
  rw [hera, hcast, hyoe]
  change (_, _, _) = (_, _, _)
  rw [show 365 * yoe + yoe / 4 - yoe / 100 = yearStart yoe from rfl, hmp,
    show (153 * mp + 2) / 5 = monthStart mp from rfl, hday]
  have hlast := h.month
  congr 1
  split <;> split <;> omega

theorem Valid.marchDate {year : Int} {month day : Nat}
    (h : Valid year month day) : ∃ era doe yoe mp,
      MarchDate era doe yoe mp day ∧
      year = era * 400 + yoe + (if mp < 10 then 0 else 1) ∧
      month = if mp < 10 then mp + 3 else mp - 9 := by
  obtain ⟨⟨hlow, hhigh⟩, hfirst, hlast⟩ := h
  obtain ⟨start, hstart⟩ : ∃ start, start = year - (if 2 < month then 0 else 1) :=
    ⟨_, rfl⟩
  obtain ⟨mp, hmp⟩ : ∃ mp, mp = if 2 < month then month - 3 else month + 9 :=
    ⟨_, rfl⟩
  have hmonth : month = if mp < 10 then mp + 3 else mp - 9 := by
    split at hmp <;> split <;> omega
  have hyear : year = start / 400 * 400 + (start % 400).toNat
      + (if mp < 10 then 0 else 1) := by
    split at hmp <;> split at hstart <;> split <;> omega
  refine ⟨start / 400, _, (start % 400).toNat, mp,
    ⟨by omega, ?_, hfirst, ?_, rfl⟩, hyear, hmonth⟩
  · split at hmp <;> omega
  · rw [← hyear, ← hmonth]
    exact hlast

theorem MarchDate.valid (h : MarchDate era doe yoe mp day) :
    Valid (era * 400 + yoe + (if mp < 10 then 0 else 1))
      (if mp < 10 then mp + 3 else mp - 9) day := by
  have hmp := h.month
  refine ⟨?_, h.first, h.last⟩
  split <;> omega

theorem daysFromCivil_eq (h : MarchDate era doe yoe mp day) :
    daysFromCivil (era * 400 + yoe + (if mp < 10 then 0 else 1))
      (if mp < 10 then mp + 3 else mp - 9 : Nat) day
    = era * 146097 + doe - 719468 := by
  have hyear := h.year
  have hmp := h.month
  have hfirst := h.first
  have heq := h.eq
  obtain ⟨hshift, hprime⟩ :
      ((if ((if mp < 10 then mp + 3 else mp - 9 : Nat) : Int) ≤ 2
          then 1 else 0 : Int) = if mp < 10 then 0 else 1) ∧
      ((if mp < 10 then mp + 3 else mp - 9 : Nat) : Int)
        + (if ((if mp < 10 then mp + 3 else mp - 9 : Nat) : Int) > 2
          then -3 else 9) = mp := by
    constructor <;> split <;> split <;> omega
  unfold daysFromCivil
  dsimp only
  rw [hshift, hprime]
  rw [show era * 400 + (yoe : Int) + (if mp < 10 then 0 else 1)
      - (if mp < 10 then 0 else 1) = era * 400 + yoe by omega,
    show (era * 400 + (yoe : Int)) / 400 = era by omega,
    show era * 400 + (yoe : Int) - era * 400 = yoe by omega,
    Int.tdiv_eq_ediv_of_nonneg (by omega),
    Int.tdiv_eq_ediv_of_nonneg (by omega),
    Int.tdiv_eq_ediv_of_nonneg (by omega), heq]
  unfold yearStart monthStart
  omega

def nextDay (date : Int × Nat × Nat) : Int × Nat × Nat :=
  if date.2.2 < daysInMonth date.1 date.2.1 then
    (date.1, date.2.1, date.2.2 + 1)
  else if date.2.1 < 12 then (date.1, date.2.1 + 1, 1)
  else (date.1 + 1, 1, 1)

theorem civilFromDays_spec (days : Int) : ∃ era doe yoe mp day,
    MarchDate era doe yoe mp day ∧ days = era * 146097 + doe - 719468 := by
  obtain ⟨yoe, mp, day, h⟩ := exists_marchDate
    (show ((days + 719468) % 146097).toNat < 146097 by omega)
  exact ⟨(days + 719468) / 146097, _, yoe, mp, day, h, by omega⟩

theorem civilFromDays_valid (days : Int) :
    Valid (civilFromDays days).1 (civilFromDays days).2.1
      (civilFromDays days).2.2 ∧
    daysFromCivil (civilFromDays days).1 (civilFromDays days).2.1
      (civilFromDays days).2.2 = days := by
  obtain ⟨era, doe, yoe, mp, day, h, hdays⟩ := civilFromDays_spec days
  rw [civilFromDays_eq h hdays]
  exact ⟨h.valid, (daysFromCivil_eq h).trans hdays.symm⟩

theorem civilFromDays_daysFromCivil {year : Int} {month day : Nat}
    (h : Valid year month day) :
    civilFromDays (daysFromCivil year month day) = (year, month, day) := by
  obtain ⟨era, doe, yoe, mp, hdate, rfl, rfl⟩ := h.marchDate
  exact civilFromDays_eq hdate (daysFromCivil_eq hdate)

-- ======== successive days and weekdays

theorem daysFromCivil_closed (year day : Int) {month : Nat} (hlow : 1 ≤ month)
    (hhigh : month ≤ 12) :
    daysFromCivil year month day
      = (let y := year - (if month ≤ 2 then 1 else 0)
         let mp := if month ≤ 2 then month + 9 else month - 3
         365 * y + y / 4 - y / 100 + y / 400 + (monthStart mp : Int) + day
           - 719469) := by
  unfold daysFromCivil monthStart
  dsimp only
  rw [Int.tdiv_eq_ediv_of_nonneg (by omega),
    Int.tdiv_eq_ediv_of_nonneg (by split <;> omega),
    Int.tdiv_eq_ediv_of_nonneg (by omega)]
  by_cases hearly : month ≤ 2
  · rw [if_pos hearly, if_pos hearly, if_pos (by omega), if_neg (by omega)]
    omega
  · rw [if_neg hearly, if_neg hearly, if_neg (by omega), if_pos (by omega)]
    omega

theorem month_cases {month : Nat} (h : 1 ≤ month ∧ month ≤ 12) :
    month = 1 ∨ month = 2 ∨ month = 3 ∨ month = 4 ∨ month = 5 ∨ month = 6 ∨
      month = 7 ∨ month = 8 ∨ month = 9 ∨ month = 10 ∨ month = 11 ∨
      month = 12 := by
  omega

theorem isLeapYear_iff (year : Int) : isLeapYear year = true
    ↔ year % 4 = 0 ∧ (year % 100 ≠ 0 ∨ year % 400 = 0) := by
  unfold isLeapYear
  simp only [Bool.and_eq_true, Bool.or_eq_true, decide_eq_true_eq, bne_iff_ne]

theorem daysInMonth_pos (year : Int) {month : Nat}
    (h : 1 ≤ month ∧ month ≤ 12) : 1 ≤ daysInMonth year month := by
  unfold daysInMonth
  rcases month_cases h with rfl | rfl | rfl | rfl | rfl | rfl | rfl | rfl | rfl
    | rfl | rfl | rfl <;> simp <;> split <;> decide

/-- The first of a month follows the last of the month before. -/
theorem daysFromCivil_month (year : Int) {month : Nat}
    (h : 1 ≤ month ∧ month ≤ 11) :
    daysFromCivil year (month + 1 : Nat) 1
      = daysFromCivil year month (daysInMonth year month) + 1 := by
  have hleap := isLeapYear_iff year
  rw [daysFromCivil_closed _ _ (by omega) (by omega),
    daysFromCivil_closed _ _ h.1 (by omega)]
  by_cases hfeb : month = 2
  · subst hfeb
    rw [show daysInMonth year 2 = if isLeapYear year then 29 else 28 from rfl]
    have hmarch : monthStart (2 + 1 - 3) = 0 := rfl
    have hstart : monthStart (2 + 9) = 337 := rfl
    simp only [hmarch, hstart, if_neg (show ¬2 + 1 ≤ 2 by decide),
      if_pos (show 2 ≤ 2 by decide)]
    by_cases hl : isLeapYear year = true
    · have := hleap.mp hl
      rw [if_pos hl]
      omega
    · have := mt hleap.mpr hl
      rw [if_neg hl]
      omega
  · unfold daysInMonth monthStart
    rcases month_cases ⟨h.1, show month ≤ 12 by omega⟩ with rfl | rfl | rfl | rfl
      | rfl | rfl | rfl | rfl | rfl | rfl | rfl | rfl <;> simp at * <;> omega

/-- The day after a date is a date, one day later. -/
theorem Valid.next {year : Int} {month day : Nat} (h : Valid year month day) :
    ∃ year' month' day', nextDay (year, month, day) = (year', month', day') ∧
      Valid year' month' day' ∧
      daysFromCivil year' month' day'
        = daysFromCivil year month day + 1 := by
  obtain ⟨hmonth, hfirst, hlast⟩ := h
  unfold nextDay
  dsimp only
  split
  next hlt =>
    refine ⟨_, _, _, rfl, ⟨hmonth, Nat.le_add_left 1 day, hlt⟩, ?_⟩
    unfold daysFromCivil
    dsimp only
    omega
  next hend =>
    obtain rfl : day = daysInMonth year month := by omega
    split
    next hlt =>
      have hmonth' : 1 ≤ month + 1 ∧ month + 1 ≤ 12 := ⟨by omega, hlt⟩
      exact ⟨_, _, _, rfl, ⟨hmonth', Nat.le_refl 1, daysInMonth_pos _ hmonth'⟩,
        daysFromCivil_month year ⟨hmonth.1, by omega⟩⟩
    next hge =>
      obtain rfl : month = 12 := by omega
      refine ⟨_, _, _, rfl,
        ⟨by decide, by decide, daysInMonth_pos _ (by decide)⟩, ?_⟩
      rw [daysFromCivil_closed _ _ (by decide) (by decide),
        daysFromCivil_closed _ _ (by decide) (by decide),
        show daysInMonth year 12 = 31 from rfl]
      have hjan : monthStart (1 + 9) = 306 := rfl
      have hdec : monthStart (12 - 3) = 275 := rfl
      simp only [hjan, hdec, if_neg (show ¬12 ≤ 2 by decide),
        if_pos (show 1 ≤ 2 by decide)]
      omega

theorem zeller (j k d m : Nat) (hk : k < 100) (hm : 3 ≤ m ∧ m ≤ 14)
    (hd : 1 ≤ d) :
    ((d + 13 * (m + 1) / 5 + k + k / 4 + j / 4 + 5 * j) % 7 + 6) % 7
      = ((365 * (100 * j + k : Int) + (100 * j + k : Int) / 4
        - (100 * j + k : Int) / 100 + (100 * j + k : Int) / 400
        + (monthStart (m - 3) : Int) + d - 719469 + 4) % 7).toNat := by
  have hfour : (100 * j + k : Int) / 4 = 25 * j + k / 4 := by omega
  have hcentury : (100 * j + k : Int) / 100 = j := by omega
  have hera : (100 * j + k : Int) / 400 = j / 4 := by omega
  have hmonth : 13 * (m + 1) / 5 + 28 * (m - 3) = monthStart (m - 3) + 10 := by
    unfold monthStart
    omega
  rw [hfour, hcentury, hera]
  generalize monthStart (m - 3) = start at hmonth
  generalize 13 * (m + 1) / 5 = q at hmonth
  clear hfour hcentury hera
  omega

theorem dayOfWeek_eq {y m d : Nat} (hy : 1 ≤ y) (hm : 1 ≤ m ∧ m ≤ 12)
    (hd : 1 ≤ d) :
    dayOfWeek y m d = ((daysFromCivil y m d + 4) % 7).toNat := by
  rw [daysFromCivil_closed _ _ hm.1 hm.2]
  unfold dayOfWeek
  dsimp only
  by_cases hearly : m ≤ 2
  · rw [if_pos hearly, if_pos hearly, if_pos (by omega), if_pos (by omega),
      zeller _ _ _ _ (Nat.mod_lt _ (by decide)) (by omega) hd,
      show m + 12 - 3 = m + 9 by omega]
    have hyear : (100 * ((y - 1) / 100 : Nat) + ((y - 1) % 100 : Nat) : Int)
        = y - 1 := by omega
    rw [hyear]
  · rw [if_neg hearly, if_neg hearly, if_neg (by omega), if_neg (by omega),
      zeller _ _ _ _ (Nat.mod_lt _ (by decide)) (by omega) hd]
    have hyear : (100 * (y / 100 : Nat) + (y % 100 : Nat) : Int) = y := by
      omega
    rw [hyear, Int.sub_zero]

/-- The three programs have one calendar: `date` finds the date that `cal`
finds, a valid one that `touch` takes back to the day number; every valid
date comes back from its day number; successive day numbers have successive
dates; and the weekdays agree from year 1 on. -/
theorem calendars_agree (secs : Int) :
    (let c := Calendar.fromUnix secs
     civilFromDays (secs / 86400) = (c.year, c.month, c.day) ∧
     Valid c.year c.month c.day ∧
     daysFromCivil c.year c.month c.day = secs / 86400 ∧
     (let next := Calendar.fromUnix (secs + 86400)
      (next.year, next.month, next.day) = nextDay (c.year, c.month, c.day)) ∧
     (1 ≤ c.year → dayOfWeek c.year.toNat c.month c.day = c.weekday)) ∧
    (∀ year month day, Valid year month day →
      civilFromDays (daysFromCivil year month day) = (year, month, day)) := by
  obtain ⟨hvalid, hdays⟩ := civilFromDays_valid (secs / 86400)
  refine ⟨⟨rfl, hvalid, hdays, ?_, fun hyear => ?_⟩,
    fun year month day h => civilFromDays_daysFromCivil h⟩
  · obtain ⟨year', month', day', hnext, hvalid', hdays'⟩ := hvalid.next
    rw [hdays, show secs / 86400 + 1 = (secs + 86400) / 86400 by omega]
      at hdays'
    have hback := civilFromDays_daysFromCivil hvalid'
    rw [hdays'] at hback
    exact hback.trans hnext.symm
  · have hzeller := dayOfWeek_eq (y := (civilFromDays (secs / 86400)).1.toNat)
      (show 1 ≤ _ by
        have : 1 ≤ (civilFromDays (secs / 86400)).1 := hyear
        omega) hvalid.inYear hvalid.inMonth.1
    have hcast : (((civilFromDays (secs / 86400)).1.toNat : Nat) : Int)
        = (civilFromDays (secs / 86400)).1 :=
      Int.toNat_of_nonneg (Int.le_trans (by decide) hyear)
    rw [hcast, hdays] at hzeller
    exact hzeller

/-- The epoch was a Thursday. -/
theorem calendars_agree_epoch :
    dayOfWeek 1970 1 1 = (Calendar.fromUnix 0).weekday :=
  (calendars_agree 0).1.2.2.2.2 (by decide)

end LinuxRs.Dates
