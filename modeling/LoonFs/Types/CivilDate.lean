import Mathlib.Tactic.IntervalCases
import Mathlib.Algebra.Order.Ring.Int
import Mathlib.Data.Int.ConditionallyCompleteOrder
import Mathlib.Data.Prod.Lex
import Mathlib.Order.SuccPred.Basic

/-! # Calendar dates of Unix day counts -/

namespace LoonFs.Types

/-- A proleptic Gregorian calendar date. -/
@[ext]
structure CivilDate where
  year : Int
  month : Int
  day : Int
deriving DecidableEq, Repr

/-- The result of an `i64` operation, which stops at an overflow. -/
def i64 (value : Int) : Option Int :=
  if -2 ^ 63 ≤ value ∧ value < 2 ^ 63 then some value else none

def civilFromDays (days : Int) : Option CivilDate := do
  let z ← i64 (days + 719468)
  let era ← i64 ((← i64 (if 0 ≤ z then z else z - 146096)).tdiv 146097)
  let doe ← i64 (z - (← i64 (era * 146097)))
  let yoe ← i64 ((← i64 ((← i64 ((← i64 (doe - doe.tdiv 1460)) + doe.tdiv 36524)) -
    doe.tdiv 146096)).tdiv 365)
  let y ← i64 (yoe + (← i64 (era * 400)))
  let doy ← i64 (doe - (← i64 ((← i64 ((← i64 (365 * yoe)) + yoe.tdiv 4)) - yoe.tdiv 100)))
  let mp ← i64 ((← i64 ((← i64 (5 * doy)) + 2)).tdiv 153)
  let d ← i64 ((← i64 (doy - (← i64 ((← i64 (153 * mp)) + 2)).tdiv 5)) + 1)
  let m ← i64 (mp + if mp < 10 then 3 else -9)
  return { year := ← i64 (y + if m ≤ 2 then 1 else 0), month := m, day := d }

namespace CivilDate

def IsLeap (year : Int) : Prop := year % 4 = 0 ∧ (year % 100 ≠ 0 ∨ year % 400 = 0)

instance : DecidablePred IsLeap := fun _ => inferInstanceAs (Decidable (_ ∧ _))

def monthDays (year month : Int) : Int :=
  if month = 2 then if IsLeap year then 29 else 28
  else if month = 4 ∨ month = 6 ∨ month = 9 ∨ month = 11 then 30 else 31

structure Valid (date : CivilDate) : Prop where
  month : 1 ≤ date.month ∧ date.month ≤ 12
  day : 1 ≤ date.day ∧ date.day ≤ monthDays date.year date.month

/-- The day after a date. -/
def successor (date : CivilDate) : CivilDate :=
  if date.day < monthDays date.year date.month then { date with day := date.day + 1 }
  else if date.month < 12 then { date with month := date.month + 1, day := 1 }
  else ⟨date.year + 1, 1, 1⟩

/-- Dates in order: by year, then by month, then by day. -/
instance : LinearOrder CivilDate :=
  LinearOrder.lift' (fun date => toLex (date.year, toLex (date.month, date.day)))
    fun _ _ same => CivilDate.ext (congrArg (·.1) same) (congrArg (·.2.1) same)
      (congrArg (·.2.2) same)

theorem lt_iff (date other : CivilDate) : date < other ↔ date.year < other.year ∨
    date.year = other.year ∧ (date.month < other.month ∨
      date.month = other.month ∧ date.day < other.day) := by
  change toLex (date.year, toLex (date.month, date.day)) <
    toLex (other.year, toLex (other.month, other.day)) ↔ _
  rw [Prod.Lex.toLex_lt_toLex, Prod.Lex.toLex_lt_toLex]

/-- The day number of a date, with the years counted from March. -/
def dayNumber (date : CivilDate) : Int :=
  let year := if date.month ≤ 2 then date.year - 1 else date.year
  let month := if date.month ≤ 2 then date.month + 9 else date.month - 3
  365 * year + year / 4 - year / 100 + year / 400 + (153 * month + 2) / 5 + date.day - 719469

theorem successor_valid (valid : Valid date) : (successor date).Valid := by
  rcases valid with ⟨month, day⟩
  simp only [successor]
  split
  next earlier => exact ⟨month, by simp only; omega⟩
  next last =>
    split
    next earlier => exact ⟨by simp only; omega, by simp only [monthDays]; grind⟩
    next december => exact ⟨by simp, by simp [monthDays]⟩

theorem dayNumber_successor (valid : Valid date) :
    (successor date).dayNumber = date.dayNumber + 1 := by
  rcases date with ⟨year, month, day⟩
  rcases valid with ⟨⟨lower, upper⟩, _, last⟩
  by_cases earlier : day < monthDays year month
  · simp only [successor, earlier, dayNumber, if_true]
    omega
  · have isLast : day = monthDays year month := by simp only at last; omega
    simp only [successor, dayNumber, isLast, monthDays, IsLeap] at *
    -- The day after the last one of February opens the next year of the count.
    interval_cases month <;> simp <;> omega

/-- The days before a year of an era, of the years that start in March. -/
def yearStart (yoe : Int) : Int := 365 * yoe + yoe / 4 - yoe / 100

def yearOfEra (doe : Int) : Int := (doe - doe / 1460 + doe / 36524 - doe / 146096) / 365

/-- Centuries of 36524 days and then cycles of 1461 days give the year. -/
theorem yearOfEra_cycle (century : 0 ≤ centuries ∧ centuries ≤ 3) (cycle : 0 ≤ cycles)
    (day : 0 ≤ days ∧ days < 1461) (inside : 1461 * cycles + days < 36524) :
    yearOfEra (36524 * centuries + 1461 * cycles + days) =
      100 * centuries + 4 * cycles + min (days / 365) 3 := by
  have early : (36524 * centuries + 1461 * cycles + days) / 1460 =
      25 * centuries + cycles + (24 * centuries + cycles + days) / 1460 := by omega
  have whole : (36524 * centuries + 1461 * cycles + days) / 36524 = centuries := by omega
  have last : (36524 * centuries + 1461 * cycles + days) / 146096 = 0 := by omega
  simp only [yearOfEra, early, whole, last]
  omega

theorem yearStart_cycle (cycle : 0 ≤ cycles ∧ cycles < 25) (year : 0 ≤ years ∧ years < 4) :
    yearStart (100 * centuries + 4 * cycles + years) =
      36524 * centuries + 1461 * cycles + 365 * years := by
  have fourths : (100 * centuries + 4 * cycles + years) / 4 = 25 * centuries + cycles := by omega
  have whole : (100 * centuries + 4 * cycles + years) / 100 = centuries := by omega
  simp only [yearStart, fourths, whole]
  omega

theorem yearStart_le (first : 0 ≤ yoe) (less : yoe < other) (last : other ≤ 400) :
    yearStart (yoe + 1) ≤ yearStart other := by
  rcases Int.lt_or_eq_of_le (Int.add_one_le_of_lt less) with less | same
  · have fourths : (yoe + 1) / 4 ≤ other / 4 := by omega
    have centuries : other / 100 ≤ 4 ∧ 0 ≤ (yoe + 1) / 100 := by omega
    simp only [yearStart]
    omega
  · rw [same]

theorem yearStart_succ (first : 0 ≤ yoe) (last : yoe < 399) :
    yearStart (yoe + 1) = yearStart yoe + if IsLeap (yoe + 1) then 366 else 365 := by
  simp only [yearStart, IsLeap]
  omega

structure InYear (yoe doy : Int) : Prop where
  year : 0 ≤ yoe ∧ yoe < 400
  first : 0 ≤ doy
  last : doy < if IsLeap (yoe + 1) then 366 else 365

theorem yearOfEra_inYear (lower : 0 ≤ doe) (upper : doe < 146097) :
    InYear (yearOfEra doe) (doe - yearStart (yearOfEra doe)) := by
  by_cases last : doe = 146096
  · subst last
    exact ⟨by decide, by decide, by decide⟩
  · have split : ∃ centuries cycles days, doe = 36524 * centuries + 1461 * cycles + days ∧
        (0 ≤ centuries ∧ centuries ≤ 3) ∧ 0 ≤ cycles ∧ (0 ≤ days ∧ days < 1461) ∧
        1461 * cycles + days < 36524 :=
      ⟨doe / 36524, doe % 36524 / 1461, doe % 36524 % 1461, by omega⟩
    rcases split with ⟨centuries, cycles, days, rfl, century, cycle, day, inside⟩
    rw [yearOfEra_cycle century cycle day inside, yearStart_cycle (by omega) (by omega)]
    exact ⟨by omega, by omega, by simp only [IsLeap]; omega⟩

theorem InYear.before (inYear : InYear yoe doy) (less : yoe < other) (last : other < 400) :
    yearStart yoe + doy < yearStart other := by
  have next := yearStart_succ inYear.year.1 (by omega)
  have starts := yearStart_le inYear.year.1 less
  have ends := inYear.last
  omega

theorem InYear.inEra (inYear : InYear yoe doy) :
    0 ≤ yearStart yoe + doy ∧ yearStart yoe + doy < 146097 := by
  have final : yearStart 399 = 145731 := by decide
  have starts : 0 ≤ yearStart yoe := by
    have := inYear.year
    simp only [yearStart]
    omega
  have first := inYear.first
  have last := inYear.last
  by_cases isFinal : yoe = 399
  · subst isFinal
    omega
  · have := inYear.before (show yoe < 399 by have := inYear.year; omega) (by decide)
    omega

theorem yearOfEra_eq (inYear : InYear yoe doy) : yearOfEra (yearStart yoe + doy) = yoe := by
  have other := yearOfEra_inYear inYear.inEra.1 inYear.inEra.2
  rcases Int.lt_trichotomy (yearOfEra (yearStart yoe + doy)) yoe with less | same | greater
  · have := other.before less inYear.year.2
    have := inYear.first
    omega
  · exact same
  · have := inYear.before greater other.year.2
    have := other.first
    omega

/-- The date of a day of a year that starts in March, in the given year of an era. -/
def ofParts (era yoe doy : Int) : CivilDate :=
  let mp := (5 * doy + 2) / 153
  ⟨yoe + era * 400 + (if mp < 10 then 0 else 1), mp + (if mp < 10 then 3 else -9),
    doy - (153 * mp + 2) / 5 + 1⟩

/-- The conversion over unbounded numbers, with floor divisions. -/
def ofDays (days : Int) : CivilDate :=
  let doe := (days + 719468) % 146097
  ofParts ((days + 719468) / 146097) (yearOfEra doe) (doe - yearStart (yearOfEra doe))

theorem InYear.month (inYear : InYear yoe doy) :
    0 ≤ (5 * doy + 2) / 153 ∧ (5 * doy + 2) / 153 ≤ 11 := by
  have first := inYear.first
  have last := inYear.last
  omega

theorem ofParts_valid (inYear : InYear yoe doy) : (ofParts era yoe doy).Valid := by
  rcases inYear.month with ⟨lower, upper⟩
  rcases inYear with ⟨year, first, last⟩
  simp only [ofParts]
  refine ⟨by simp only; omega, by simp only; omega, ?_⟩
  simp only [monthDays, IsLeap] at *
  generalize isMonth : (5 * doy + 2) / 153 = month at *
  interval_cases month <;> simp <;> omega

theorem dayNumber_ofParts (inYear : InYear yoe doy) :
    (ofParts era yoe doy).dayNumber = 146097 * era + yearStart yoe + doy - 719468 := by
  have month := inYear.month
  rcases inYear with ⟨year, first, last⟩
  simp only [ofParts, dayNumber, yearStart]
  by_cases spring : (5 * doy + 2) / 153 < 10
  · simp only [spring, if_true, show ¬(5 * doy + 2) / 153 + 3 ≤ 2 by omega, if_false]
    omega
  · simp only [spring, if_false, show (5 * doy + 2) / 153 + -9 ≤ 2 by omega, if_true]
    omega

theorem ofDays_parts (inYear : InYear yoe doy) :
    ofDays (146097 * era + yearStart yoe + doy - 719468) = ofParts era yoe doy := by
  have inEra := inYear.inEra
  have isDay : (146097 * era + yearStart yoe + doy - 719468 + 719468) % 146097 =
    yearStart yoe + doy := by omega
  have isEra : (146097 * era + yearStart yoe + doy - 719468 + 719468) / 146097 = era := by omega
  simp only [ofDays, isDay, isEra, yearOfEra_eq inYear, add_sub_cancel_left]

theorem ofDays_inYear (days : Int) : InYear (yearOfEra ((days + 719468) % 146097))
    ((days + 719468) % 146097 - yearStart (yearOfEra ((days + 719468) % 146097))) :=
  yearOfEra_inYear (Int.emod_nonneg _ (by decide)) (Int.emod_lt_of_pos _ (by decide))

theorem ofDays_valid (days : Int) : (ofDays days).Valid :=
  ofParts_valid (ofDays_inYear days)

theorem dayNumber_ofDays (days : Int) : (ofDays days).dayNumber = days := by
  rw [ofDays, dayNumber_ofParts (ofDays_inYear days)]
  omega

theorem ofDays_dayNumber (valid : Valid date) : ofDays date.dayNumber = date := by
  rcases date with ⟨year, month, day⟩
  rcases valid with ⟨⟨lower, upper⟩, first, last⟩
  dsimp only at lower upper first last
  -- The date's own parts: its year from March, and the day of that year.
  have parts : ∃ yearFromMarch mp, year = yearFromMarch + (if mp < 10 then 0 else 1) ∧
      month = mp + (if mp < 10 then 3 else -9) ∧ 0 ≤ mp ∧ mp ≤ 11 := by
    by_cases spring : month ≤ 2
    · exact ⟨year - 1, month + 9, by omega⟩
    · exact ⟨year, month - 3, by omega⟩
  rcases parts with ⟨yearFromMarch, mp, rfl, rfl, firstMonth, lastMonth⟩
  have inYear : InYear (yearFromMarch % 400) ((153 * mp + 2) / 5 + day - 1) := by
    refine ⟨by omega, by omega, ?_⟩
    simp only [monthDays, IsLeap] at *
    interval_cases mp <;> simp at * <;> omega
  have same : ofParts (yearFromMarch / 400) (yearFromMarch % 400) ((153 * mp + 2) / 5 + day - 1) =
      ⟨yearFromMarch + (if mp < 10 then 0 else 1), mp + (if mp < 10 then 3 else -9), day⟩ := by
    have isMonth : (5 * ((153 * mp + 2) / 5 + day - 1) + 2) / 153 = mp := by
      simp only [monthDays, IsLeap] at *
      interval_cases mp <;> simp at * <;> omega
    simp only [ofParts, isMonth, mk.injEq, true_and]
    omega
  rw [← same, dayNumber_ofParts inYear, ofDays_parts inYear]

theorem ofDays_succ (days : Int) : ofDays (days + 1) = (ofDays days).successor := by
  have valid := ofDays_valid days
  rw [← ofDays_dayNumber (successor_valid valid), dayNumber_successor valid, dayNumber_ofDays]

theorem lt_successor (date : CivilDate) : date < date.successor := by
  rw [lt_iff]
  simp only [successor]
  split
  next earlier => simp
  next last =>
    split
    next earlier => simp
    next december => simp

theorem ofDays_strictMono : StrictMono ofDays :=
  strictMono_int_of_lt_succ fun days => by
    rw [ofDays_succ]
    exact lt_successor _

end CivilDate

open CivilDate

theorem i64_bind {next : Int → Option CivilDate} (inside : -2 ^ 63 ≤ value ∧ value < 2 ^ 63) :
    (i64 value >>= next) = next value := by
  rw [i64, if_pos inside, Option.bind_eq_bind, Option.bind_some]

theorem tdiv_era (z : Int) :
    (if 0 ≤ z then z else z - 146096).tdiv 146097 = z / 146097 := by
  split
  next positive => exact Int.tdiv_eq_ediv_of_nonneg positive
  next negative =>
    rw [← Int.neg_sub, Int.neg_tdiv, Int.tdiv_eq_ediv_of_nonneg (by omega)]
    omega

theorem civilFromDays_eq (lower : -2 ^ 62 ≤ days) (upper : days ≤ 2 ^ 62) :
    civilFromDays days = some (ofDays days) := by
  have inYear := ofDays_inYear days
  have month := inYear.month
  rcases inYear with ⟨year, first, last⟩
  have whole : days + 719468 - (days + 719468) / 146097 * 146097 = (days + 719468) % 146097 := by
    omega
  have positive : 0 ≤ (days + 719468) % 146097 := by omega
  have small : (days + 719468) % 146097 < 146097 := by omega
  have inEra : -2 ^ 50 ≤ (days + 719468) / 146097 ∧ (days + 719468) / 146097 ≤ 2 ^ 50 := by omega
  rw [civilFromDays, i64_bind (by omega), i64_bind (by omega), tdiv_era, i64_bind (by omega),
    i64_bind (by omega), whole, i64_bind (by omega), ofDays]
  clear whole
  generalize (days + 719468) / 146097 = era, (days + 719468) % 146097 = doe at *
  simp only [Int.tdiv_eq_ediv_of_nonneg positive]
  rw [i64_bind (by omega), i64_bind (by omega), i64_bind (by omega),
    Int.tdiv_eq_ediv_of_nonneg (by omega), ← yearOfEra, i64_bind (by omega)]
  generalize yearOfEra doe = yoe at *
  simp only [Int.tdiv_eq_ediv_of_nonneg year.1]
  rw [i64_bind (by omega), i64_bind (by omega), i64_bind (by omega), i64_bind (by omega),
    i64_bind (by omega), ← yearStart, i64_bind (by omega), ofParts]
  generalize doe - yearStart yoe = doy at *
  rw [i64_bind (by omega), i64_bind (by omega), Int.tdiv_eq_ediv_of_nonneg (by omega),
    i64_bind (by omega)]
  generalize (5 * doy + 2) / 153 = mp at *
  rw [i64_bind (by omega), i64_bind (by omega), Int.tdiv_eq_ediv_of_nonneg (by omega),
    i64_bind (by omega), i64_bind (by omega), i64_bind (by omega), i64_bind (by omega)]
  congr 2
  omega

/-- Within the range of the day counts nothing overflows, and the date is that of the day. -/
theorem civilFromDays_exact : ∃ date : Int → CivilDate,
    (∀ days ∈ Set.Icc (-2 ^ 62) (2 ^ 62),
      civilFromDays days = some (date days) ∧ (date days).Valid) ∧
    date 0 = ⟨1970, 1, 1⟩ ∧ (∀ days, date (days + 1) = (date days).successor) ∧
    StrictMono date ∧ ∀ other : CivilDate, other.Valid → date (-2 ^ 62) ≤ other →
      other ≤ date (2 ^ 62) →
      ∃! days, days ∈ Set.Icc (-2 ^ 62) (2 ^ 62) ∧ civilFromDays days = some other := by
  refine ⟨ofDays, fun days inside => ⟨civilFromDays_eq inside.1 inside.2, ofDays_valid days⟩,
    by decide, ofDays_succ, ofDays_strictMono, fun other valid first last => ?_⟩
  rw [← ofDays_dayNumber valid, ofDays_strictMono.le_iff_le] at first last
  refine ⟨other.dayNumber, ⟨⟨first, last⟩, ?_⟩, fun days found => ?_⟩
  · rw [civilFromDays_eq first last, ofDays_dayNumber valid]
  · rcases found with ⟨inside, found⟩
    rw [civilFromDays_eq inside.1 inside.2, Option.some.injEq] at found
    rw [← found, dayNumber_ofDays]

end LoonFs.Types
