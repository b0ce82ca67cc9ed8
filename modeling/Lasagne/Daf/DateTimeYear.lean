import Lasagne.Daf.DateTimeDays

/-!
# Lasagne.Daf.DateTimeYear — the days of a year

* `jug_inverse` : `JUGDay` and the arithmetic of `JUGDate`, over all years from 1 on;
* `julianDay_eq` : `julianDay` by day numbers, and by the table of first days;
* `firstDay_next` : that table, and the one of the lengths of the months.
-/

namespace Lasagne.Daf.DateTime

open Lasagne.Cal

variable {dt : DateTime} {day : Day}

/-! ## The model -/

def firstDayOfEachMonth : List ℤ := [0, 1, 32, 60, 91, 121, 152, 182, 213, 244, 274, 305, 335]

/-- `Date_Time::julianDay`. -/
def julianDay (dt : DateTime) : ℤ := jugDay dt.day dt.month dt.year - jugDay 31 12 (dt.year - 1)

/-- `Date_Time::firstDayOfMonth`. -/
def firstDayOfMonth (dt : DateTime) (month : ℤ) : Except DateTimeException ℤ :=
  if assertMonthRange month then
    let dy := firstDayOfEachMonth.getD month.toNat 0
    .ok (if month > 2 ∧ isLeapYear dt.year then dy + 1 else dy)
  else .error .illegalArgument

/-! ## There and back -/

theorem marchYear_nonneg (h : 1 ≤ day.year) : 0 ≤ day.marchYear := by
  unfold Day.marchYear
  split <;> omega

/-- `JUGDate` is the inverse of `JUGDay`, and the days are numbered one after the other. -/
theorem jug_inverse (h : 1 ≤ day.year) :
    jugFields ((jugDay day.day day.month day.year - 1721119) * 4 - 1) = (day.day, day.month, day.year) ∧
      jugDay (Day.next day).day (Day.next day).month (Day.next day).year = jugDay day.day day.month day.year + 1 := by
  have hmarch := marchYear_nonneg h
  have hnext : 0 ≤ (Day.next day).marchYear := by
    rw [Day.marchYear_nonneg_iff, Day.ordinal_next]
    have hpos := Day.marchYear_nonneg_iff.mp hmarch
    omega
  constructor
  · rw [jugDay_eq hmarch, add_sub_cancel_right, mul_comm]
    exact jugFields_eq hmarch
  · rw [jugDay_eq hmarch, jugDay_eq hnext, Day.ordinal_next]
    ring

theorem jug_inverse_epoch :
    jugFields ((jugDay Day.epoch.day Day.epoch.month Day.epoch.year - 1721119) * 4 - 1) =
        (Day.epoch.day, Day.epoch.month, Day.epoch.year) ∧
      jugDay (Day.next Day.epoch).day (Day.next Day.epoch).month (Day.next Day.epoch).year =
        jugDay Day.epoch.day Day.epoch.month Day.epoch.year + 1 :=
  @jug_inverse Day.epoch (by decide)

/-! ## The days of a year -/

/-- The number in the table, for a month in it. -/
def firstDay (year month : ℤ) : ℤ :=
  firstDayOfEachMonth.getD month.toNat 0 + if month > 2 ∧ IsLeap year then 1 else 0

theorem firstDayOfMonth_eq {month : ℤ} (hmonth : 1 ≤ month ∧ month ≤ 12) :
    dt.firstDayOfMonth month = .ok (firstDay dt.year month) := by
  rw [firstDayOfMonth, if_pos (assertMonthRange_iff.mpr hmonth), firstDay]
  dsimp only
  simp only [isLeapYear_iff]
  split_ifs
  · rfl
  · rw [add_zero]

/-- One month after the other. -/
theorem firstDay_next (year : ℤ) {month : ℤ} (hmonth : 1 ≤ month ∧ month < 12) :
    firstDay year (month + 1) = firstDay year month + monthLength year month := by
  obtain ⟨hlo, hhi⟩ := hmonth
  unfold firstDay monthLength
  interval_cases month <;> simp [firstDayOfEachMonth]
  all_goals split_ifs <;> rfl

/-- The last day of the year before has the number that the calendar gives it. -/
theorem jugDay_yearEnd {year : ℤ} (h : 1 ≤ year) : jugDay 31 12 (year - 1) = Day.yearEnd year + 1721119 := by
  let last : Day := ⟨year - 1, 12, 31, by decide, le_rfl, by decide, le_rfl⟩
  have hmarch : 0 ≤ last.marchYear := by
    unfold Day.marchYear
    dsimp only [last]
    omega
  have hjug : jugDay 31 12 (year - 1) = last.ordinal + 1721119 := jugDay_eq hmarch
  rw [hjug]
  unfold Day.ordinal Day.marchYear Day.marchMonth Day.yearEnd
  dsimp only [last]
  norm_num
  omega

/-- A day by the days of its year. -/
theorem ordinal_sub_yearEnd (day : Day) : day.ordinal - Day.yearEnd day.year = firstDay day.year day.month + day.day - 1 := by
  obtain ⟨year, month, day, hlo, hhi, -, -⟩ := day
  unfold Day.ordinal Day.marchYear Day.marchMonth Day.yearEnd firstDay IsLeap
  dsimp only
  interval_cases month <;> simp [firstDayOfEachMonth] <;> try split_ifs
  all_goals omega

/-- `julianDay` is the number of the day in its year, by the tables too. -/
theorem julianDay_eq (h : Valid dt) :
    dt.firstDayOfMonth dt.month = .ok (dt.julianDay - dt.day + 1) ∧
      (1 ≤ dt.julianDay ∧ dt.julianDay ≤ if isLeapYear dt.year then 366 else 365) ∧
      ∀ month, 1 ≤ month ∧ month < 12 → ∃ first length, dt.firstDayOfMonth month = .ok first ∧
        daysInMonth dt.year month = .ok length ∧ dt.firstDayOfMonth (month + 1) = .ok (first + length) := by
  have hyear := h.inYears
  have hjulian : dt.julianDay = h.toDay.ordinal - Day.yearEnd h.toDay.year := by
    have hend : jugDay 31 12 (dt.year - 1) = Day.yearEnd h.toDay.year + 1721119 := jugDay_yearEnd hyear.1
    rw [julianDay, h.jugDay_eq, hend]
    ring
  refine ⟨?_, ?_, fun month hmonth => ?_⟩
  · rw [firstDayOfMonth_eq h.dated.month, hjulian, ordinal_sub_yearEnd]
    congr 1
    change _ = firstDay dt.year dt.month + dt.day - 1 - dt.day + 1
    ring
  · have hmem := h.toDay.ordinal_sub_yearEnd_mem
    simp only [hjulian, isLeapYear_iff]
    exact hmem
  · refine ⟨_, _, firstDayOfMonth_eq ⟨hmonth.1, hmonth.2.le⟩, daysInMonth_eq hyear ⟨hmonth.1, hmonth.2.le⟩, ?_⟩
    rw [firstDayOfMonth_eq ⟨by omega, by omega⟩, firstDay_next _ hmonth]

theorem julianDay_eq_leapDay :
    leapDay.firstDayOfMonth 2 = .ok (leapDay.julianDay - 29 + 1) ∧
      (1 ≤ leapDay.julianDay ∧ leapDay.julianDay ≤ if isLeapYear 2000 then 366 else 365) ∧
      ∀ month, 1 ≤ month ∧ month < 12 → ∃ first length, leapDay.firstDayOfMonth month = .ok first ∧
        daysInMonth 2000 month = .ok length ∧ leapDay.firstDayOfMonth (month + 1) = .ok (first + length) :=
  julianDay_eq leapDay_valid

end Lasagne.Daf.DateTime
