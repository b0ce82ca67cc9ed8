import Lasagne.Daf.DateTime

/-!
# Lasagne.Daf.DateTimeDays — `JUGDay`, `JUGDate` and the calendar

`JUGDay` is the number of a day in the calendar, and `JUGDate` finds the day of a number, as long as four times the
number fits 64 bits.  Beyond that it finds the day whose number agrees with it in the lower 62 bits.

* `jugDay_eq`, `weekDay_eq`, `jugFields_eq` : the three functions on days from 1 March of the year 0 on;
* `jugDate_ok_iff` : what `JUGDate` returns, and when, for every number.
-/

namespace Lasagne.Daf.DateTime

open Lasagne.Cal

variable {dt : DateTime} {day : Day}

/-! ## Day numbers -/

theorem century_days (ca : ℤ) : ca * 146097 / 4 = 36524 * ca + ca / 4 := by omega

theorem year_days (ya : ℤ) : ya * 1461 / 4 = 365 * ya + ya / 4 := by omega

theorem marchMonth_mem (day : Day) : 0 ≤ day.marchMonth ∧ day.marchMonth ≤ 11 := by
  have hpos := day.month_pos
  have hle := day.month_le
  unfold Day.marchMonth
  split <;> omega

/-- The number of a day by centuries and years, as `JUGDay` and `JUGDate` count them. -/
theorem ordinal_eq (day : Day) : day.ordinal = day.marchYear / 100 * 146097 / 4 + day.marchYear % 100 * 1461 / 4 +
    ((153 * day.marchMonth + 2) / 5 + day.day) := by
  unfold Day.ordinal
  rw [century_days, year_days]
  generalize (153 * day.marchMonth + 2) / 5 = m
  have h4 : day.marchYear / 4 = 25 * (day.marchYear / 100) + day.marchYear % 100 / 4 := by omega
  have h400 : day.marchYear / 400 = day.marchYear / 100 / 4 := by omega
  rw [h4, h400]
  omega

/-- `JUGDay` numbers the days as the calendar does. -/
theorem jugDay_eq (h : 0 ≤ day.marchYear) : jugDay day.day day.month day.year = day.ordinal + 1721119 := by
  have hmonth := (marchMonth_mem day).1
  have hfields : jugDay day.day day.month day.year = day.day + (day.marchYear.tdiv 100 * 146097).tdiv 4 +
      ((day.marchYear - day.marchYear.tdiv 100 * 100) * 1461).tdiv 4 + (day.marchMonth * 153 + 2).tdiv 5 + 1721119 := by
    unfold jugDay Day.marchYear Day.marchMonth
    split_ifs <;> rfl
  have hyear : day.marchYear - day.marchYear / 100 * 100 = day.marchYear % 100 := by omega
  rw [hfields, Int.tdiv_eq_ediv_of_nonneg h, hyear, Int.tdiv_eq_ediv_of_nonneg (by omega),
    Int.tdiv_eq_ediv_of_nonneg (by omega), Int.tdiv_eq_ediv_of_nonneg (by omega), ordinal_eq, mul_comm 153]
  ring

theorem weekDay_eq (h : 0 < day.ordinal) : weekDay (day.ordinal + 1721119) = day.weekday := by
  unfold weekDay Day.weekday
  dsimp only
  rw [if_pos (by omega), Int.tmod_eq_emod_of_nonneg (show 0 ≤ day.ordinal + 1721119 + 1 by omega),
    Int.tmod_eq_emod_of_nonneg (by omega)]
  omega

/-- The first divisions of `JUGDate`, down to the day of a year that begins in March. -/
theorem jugYear_eq {ca ya doy j : ℤ} (hca : 0 ≤ ca) (hya : 0 ≤ ya ∧ ya < 100) (hdoy : 0 < doy ∧ doy ≤ 366)
    (hleap : doy = 366 → ya % 4 = 3 ∧ (ya = 99 → ca % 4 = 3)) (hj : j = ca * 146097 / 4 + ya * 1461 / 4 + doy) :
    (4 * j - 1).tdiv 146097 = ca ∧ (4 * j - 1 - ca * 146097).tdiv 4 = ya * 1461 / 4 + doy - 1 ∧
      ((ya * 1461 / 4 + doy - 1) * 4 + 3).tdiv 1461 = ya ∧
      ((ya * 1461 / 4 + doy - 1) * 4 + 3 - ya * 1461 + 4).tdiv 4 = doy := by
  rw [century_days] at hj
  rw [year_days] at hj ⊢
  -- a century has 36524 days, and one more if its last year is a leap year
  have hcentury : 365 * ya + ya / 4 + doy ≤ 36524 ∨ 365 * ya + ya / 4 + doy = 36525 ∧ ca % 4 = 3 := by omega
  rw [Int.tdiv_eq_ediv_of_nonneg (by omega), Int.tdiv_eq_ediv_of_nonneg (by omega),
    Int.tdiv_eq_ediv_of_nonneg (by omega), Int.tdiv_eq_ediv_of_nonneg (by omega)]
  refine ⟨?_, ?_, ?_, ?_⟩
  · omega
  · omega
  · omega
  · omega

/-- The last divisions, which find the month and the day in it. -/
theorem jugMonth_eq (day : Day) : (((153 * day.marchMonth + 2) / 5 + day.day) * 5 - 3).tdiv 153 = day.marchMonth ∧
    (((153 * day.marchMonth + 2) / 5 + day.day) * 5 - 3 - day.marchMonth * 153 + 5).tdiv 5 = day.day := by
  have hpos := day.day_pos
  have hmonth := (marchMonth_mem day).1
  have hlength : (153 * day.marchMonth + 2) / 5 + day.day ≤ (153 * (day.marchMonth + 1) + 2) / 5 := by
    obtain ⟨year, month, day, hmonth, hmonth', hday, hday'⟩ := day
    unfold Day.marchMonth
    dsimp only
    unfold monthLength at hday'
    interval_cases month <;> norm_num at hday' ⊢ <;> omega
  rw [Int.tdiv_eq_ediv_of_nonneg (by omega), Int.tdiv_eq_ediv_of_nonneg (by omega)]
  generalize day.marchMonth = m at *
  constructor <;> omega

/-- `JUGDate` finds the day of a number. -/
theorem jugFields_eq (h : 0 ≤ day.marchYear) : jugFields (4 * day.ordinal - 1) = (day.day, day.month, day.year) := by
  have hdoy := Day.dayOfMarchYear_le day
  have hmonth := (marchMonth_mem day).1
  have hpos := day.day_pos
  have hleap : (153 * day.marchMonth + 2) / 5 + day.day = 366 →
      day.marchYear % 100 % 4 = 3 ∧ (day.marchYear % 100 = 99 → day.marchYear / 100 % 4 = 3) := by
    intro hlast
    have hleap := hdoy.2 hlast
    unfold IsLeap at hleap
    omega
  obtain ⟨hca, hrest, hya, hday⟩ := jugYear_eq (Int.ediv_nonneg h (by decide))
    ⟨Int.emod_nonneg _ (by decide), Int.emod_lt_of_pos _ (by decide)⟩ ⟨by omega, hdoy.1⟩ hleap (ordinal_eq day)
  obtain ⟨hm, hd⟩ := jugMonth_eq day
  unfold jugFields
  dsimp only
  rw [hca, hrest, hya, hday, hm, hd]
  have hyear : 100 * (day.marchYear / 100) + day.marchYear % 100 = day.marchYear := by omega
  rw [hyear]
  have hfirst := day.month_pos
  have hlast := day.month_le
  unfold Day.marchYear Day.marchMonth
  split_ifs
  · simp
  · omega
  · omega
  · simp

theorem tdiv_nonpos {a b : ℤ} (hb : 0 < b) (h : a < b) : a.tdiv b ≤ 0 := by
  rcases le_total 0 a with ha | ha
  · exact (Int.tdiv_eq_zero_of_lt ha h).le
  · rw [← Int.neg_nonneg, ← Int.neg_tdiv]
    exact Int.tdiv_nonneg (by omega) hb.le

theorem sub_tdiv_mul_le {a b c : ℤ} (hb : 0 < b) (hc : 0 ≤ c) (h : a ≤ c) : a - a.tdiv b * b ≤ c := by
  rcases le_total 0 a with ha | ha
  · have hpos := mul_nonneg (Int.tdiv_nonneg ha hb.le) hb.le
    omega
  · have hneg := Int.ediv_mul_le (-a) hb.ne'
    rw [← Int.tdiv_eq_ediv_of_nonneg (by omega), Int.neg_tdiv, neg_mul] at hneg
    omega

/-- Numbers before the first one come out in no year after 0: every quotient is rounded up. -/
theorem jugFields_year_le {j : ℤ} (h : j < 0) : (jugFields j).2.2 ≤ 0 := by
  unfold jugFields
  dsimp only
  have hy := tdiv_nonpos (a := j) (b := 146097) (by decide) (by omega)
  have hj := sub_tdiv_mul_le (a := j) (b := 146097) (by decide) le_rfl h.le
  generalize j - j.tdiv 146097 * 146097 = j' at hj ⊢
  generalize j.tdiv 146097 = y at hy ⊢
  have hd := tdiv_nonpos (a := j') (b := 4) (by decide) (by omega)
  generalize j'.tdiv 4 = d at hd ⊢
  have hyear := tdiv_nonpos (a := d * 4 + 3) (b := 1461) (by decide) (by omega)
  have hrest := sub_tdiv_mul_le (a := d * 4 + 3) (b := 1461) (c := 3) (by decide) (by decide) (by omega)
  generalize d * 4 + 3 - (d * 4 + 3).tdiv 1461 * 1461 = t at hrest ⊢
  generalize (d * 4 + 3).tdiv 1461 = ya at hyear ⊢
  have hmonth : ((t + 4).tdiv 4 * 5 - 3).tdiv 153 ≤ 0 := by
    refine tdiv_nonpos (by decide) ?_
    have hle : (t + 4).tdiv 4 ≤ Int.tdiv 7 4 := Int.tdiv_le_tdiv (by decide) (by omega)
    have hseven : Int.tdiv 7 4 = 1 := rfl
    omega
  rw [if_pos (by omega)]
  dsimp only
  omega

/-! ## Days with a time -/

/-- The day is in the years that the range check accepts. -/
theorem inYears_iff : InYears day.year ↔ 306 < day.ordinal ∧ day.ordinal ≤ 1096033 := by
  have hfirst : 1 ≤ day.year ↔ 306 < day.ordinal := Day.year_le_iff
  have hlast : 3001 ≤ day.year ↔ 1096033 < day.ordinal := Day.year_le_iff
  unfold InYears
  omega

theorem InYears.ordinal_pos (h : InYears day.year) : 0 < day.ordinal := by
  have := inYears_iff.mp h
  omega

theorem InYears.jugDay_eq (h : InYears day.year) : jugDay day.day day.month day.year = day.ordinal + 1721119 :=
  DateTime.jugDay_eq (Day.marchYear_nonneg_iff.mpr h.ordinal_pos)

/-- What the constructor makes of a day of the calendar and the time of `dt`. -/
theorem new_eq (ht : Timed dt) (h : InYears day.year) :
    new day.day day.month day.year dt.hour dt.minute dt.second dt.microsec = .ok (dt.on day) := by
  refine checked_ok_iff.mpr ⟨⟨h, ⟨⟨day.month_pos, day.month_le⟩, day.day_pos, day.day_le⟩,
    ⟨ht.hour, ht.minute, ht.second, ht.microsec⟩⟩, ?_⟩
  dsimp only
  rw [h.jugDay_eq, weekDay_eq h.ordinal_pos]
  rfl

theorem inYears_of_new {d m y hh mm sec usec : ℤ} {date : DateTime} (h : new d m y hh mm sec usec = .ok date) :
    InYears y := (checked_ok_iff.mp h).1.1

/-- What 64 bits leave of four times a number, less one. -/
theorem long_quarter (j : ℤ) : long (long (long j * 4) - 1) = long (j * 4 - 1) := by
  unfold long
  rw [Int.bmod_mul_bmod, Int.bmod_sub_bmod]

theorem long_modEq (z : ℤ) : long z ≡ z [ZMOD 2 ^ 64] := (Int.modEq_iff_dvd.mpr Int.dvd_bmod_sub_self).symm

theorem exists_ordinal (n : ℤ) : ∃ day : Day, day.ordinal = n := by
  refine ⟨(Day.next ^ (n - Day.epoch.ordinal)) Day.epoch, ?_⟩
  rw [Day.ordinal_zpow]
  ring

/-- **`JUGDate`.**  Every number that is a day of the years 1 to 3000 in its lower 62 bits comes out as that day, and
every other number is refused. -/
theorem jugDate_ok_iff (ht : Timed dt) {jj : ℤ} {date : DateTime} :
    jugDate jj dt.hour dt.minute dt.second dt.microsec = .ok date ↔
      ∃ day : Day, InYears day.year ∧ jj ≡ day.ordinal + 1721119 [ZMOD 2 ^ 62] ∧ date = dt.on day := by
  unfold jugDate
  dsimp only
  rw [long_quarter]
  constructor
  · intro h
    obtain ⟨k, hk⟩ := (long_modEq ((jj - 1721119) * 4 - 1)).dvd
    rcases lt_or_ge (long ((jj - 1721119) * 4 - 1)) 0 with hneg | hpos
    · have hyear := jugFields_year_le hneg
      exact absurd ((inYears_of_new h).1.trans hyear) (by decide)
    · obtain ⟨day, hday⟩ := exists_ordinal (jj - 1721119 - 2 ^ 62 * k)
      have hlong : long ((jj - 1721119) * 4 - 1) = 4 * day.ordinal - 1 := by omega
      rw [hlong, jugFields_eq (Day.marchYear_nonneg_iff.mpr (by omega))] at h
      have hin := inYears_of_new h
      rw [new_eq ht hin] at h
      refine ⟨day, hin, Int.modEq_iff_dvd.mpr ⟨-k, ?_⟩, (Except.ok.inj h).symm⟩
      omega
  · rintro ⟨day, hin, hmod, rfl⟩
    obtain ⟨k, hk⟩ := hmod.dvd
    have hrange := inYears_iff.mp hin
    have hlong : long ((jj - 1721119) * 4 - 1) = 4 * day.ordinal - 1 :=
      (Int.bmod_eq_iff (by decide)).mpr ⟨by omega, by omega, k, by omega⟩
    rw [hlong, jugFields_eq (Day.marchYear_nonneg_iff.mpr hin.ordinal_pos)]
    exact new_eq ht hin

/-! ## Adding days -/

theorem Valid.jugDay_eq (h : Valid dt) : jugDay dt.day dt.month dt.year = h.toDay.ordinal + 1721119 :=
  InYears.jugDay_eq (show InYears h.toDay.year from h.inYears)

theorem Valid.on (h : Valid dt) (hin : InYears day.year) : Valid (dt.on day) :=
  valid_of_checked (new_eq h.timed hin)

theorem Valid.toDay_on (h : Valid dt) (hin : InYears day.year) : (h.on hin).toDay = day := rfl

theorem Valid.weekDay_jugDay (h : Valid dt) : weekDay (jugDay dt.day dt.month dt.year) = h.toDay.weekday := by
  rw [h.jugDay_eq]
  exact weekDay_eq (InYears.ordinal_pos h.inYears)

theorem Valid.weekday (h : Valid dt) : dt.weekday = h.toDay.weekday := by
  rw [h.weekday_eq, h.weekDay_jugDay]

theorem Valid.on_toDay (h : Valid dt) : dt.on h.toDay = dt := by
  unfold DateTime.on
  rw [← h.weekday]
  rfl

theorem subAssign_eq (dt : DateTime) (days : ℤ) : dt.subAssign days = dt.addAssign (-days) := by
  rw [subAssign, addAssign, sub_eq_add_neg]

theorem assignDate_none_iff {r : Except DateTimeException DateTime} {date : DateTime} :
    dt.assignDate r = (date, none) ↔ r = .ok date := by
  cases r <;> simp [assignDate]

/-- `+=` comes to the days whose numbers agree with the right one in the lower 62 bits. -/
theorem addAssign_none_iff (h : Valid dt) {days : ℤ} {date : DateTime} : dt.addAssign days = (date, none) ↔
    ∃ k : ℤ, InYears ((Day.next ^ (days + 2 ^ 62 * k)) h.toDay).year ∧
      date = dt.on ((Day.next ^ (days + 2 ^ 62 * k)) h.toDay) := by
  rw [addAssign, assignDate_none_iff, jugDate_ok_iff h.timed, h.jugDay_eq]
  obtain ⟨q, hq⟩ := (long_modEq (h.toDay.ordinal + 1721119 + days)).dvd
  constructor
  · rintro ⟨day, hin, hmod, rfl⟩
    obtain ⟨k, hk⟩ := hmod.dvd
    have hday : (Day.next ^ (days + 2 ^ 62 * (k - 4 * q))) h.toDay = day := Day.zpow_next_eq_iff.mpr (by omega)
    exact ⟨k - 4 * q, by rwa [hday], by rw [hday]⟩
  · rintro ⟨k, hin, rfl⟩
    refine ⟨_, hin, Int.modEq_iff_dvd.mpr ⟨k + 4 * q, ?_⟩, rfl⟩
    rw [Day.ordinal_zpow]
    omega

/-- A day in the range is the one that `+=` comes to. -/
theorem addAssign_eq (h : Valid dt) {days : ℤ} (hin : InYears ((Day.next ^ days) h.toDay).year) :
    dt.addAssign days = (dt.on ((Day.next ^ days) h.toDay), none) := by
  refine (addAssign_none_iff h).mpr ⟨0, ?_⟩
  rw [mul_zero, add_zero]
  exact ⟨hin, rfl⟩

theorem zpow_add_apply (a b : ℤ) (day : Day) : (Day.next ^ b) ((Day.next ^ a) day) = (Day.next ^ (a + b)) day := by
  rw [add_comm, zpow_add, Equiv.Perm.mul_apply]

/-- **Day arithmetic.**  As long as the days are in the years 1 to 3000, `+=` and `-=` come to the day of the calendar
that is so many days later or earlier, at the same time and with its day of the week; so they add up, and one takes the
other back. -/
theorem day_arithmetic (h : Valid dt) :
    (∀ n, InYears ((Day.next ^ n) h.toDay).year → dt.addAssign n = (dt.on ((Day.next ^ n) h.toDay), none)) ∧
    (∀ n, InYears ((Day.next ^ (-n)) h.toDay).year → dt.subAssign n = (dt.on ((Day.next ^ (-n)) h.toDay), none)) ∧
    (∀ a b, InYears ((Day.next ^ a) h.toDay).year → InYears ((Day.next ^ (a + b)) h.toDay).year →
      (dt.addAssign a).1.addAssign b = dt.addAssign (a + b)) ∧
    ∀ n, InYears ((Day.next ^ n) h.toDay).year → (dt.addAssign n).1.subAssign n = (dt, none) := by
  refine ⟨fun n => addAssign_eq h, fun n hin => ?_, fun a b ha hab => ?_, fun n hin => ?_⟩
  · rw [subAssign_eq, addAssign_eq h hin]
  · have hday : (Day.next ^ b) (h.on ha).toDay = (Day.next ^ (a + b)) h.toDay := zpow_add_apply a b h.toDay
    rw [addAssign_eq h ha, addAssign_eq h hab, addAssign_eq (h.on ha) (by rwa [hday]), hday]
    rfl
  · have hday : (Day.next ^ (-n)) (h.on hin).toDay = h.toDay := by
      rw [h.toDay_on hin, zpow_add_apply, add_neg_cancel, zpow_zero, Equiv.Perm.one_apply]
    rw [addAssign_eq h hin, subAssign_eq, addAssign_eq (h.on hin) (by rw [hday]; exact h.inYears), hday]
    exact congrArg (·, none) h.on_toDay

/-- The leap day of the year 2000. -/
def leapDay : DateTime := ⟨29, 2, 2000, 13, 5, 9, 123456, 2⟩

theorem leapDay_valid : Valid leapDay := ⟨by decide, by decide⟩

theorem day_arithmetic_leapDay :
    (∀ n, InYears ((Day.next ^ n) leapDay_valid.toDay).year →
      leapDay.addAssign n = (leapDay.on ((Day.next ^ n) leapDay_valid.toDay), none)) ∧
    (∀ n, InYears ((Day.next ^ (-n)) leapDay_valid.toDay).year →
      leapDay.subAssign n = (leapDay.on ((Day.next ^ (-n)) leapDay_valid.toDay), none)) ∧
    (∀ a b, InYears ((Day.next ^ a) leapDay_valid.toDay).year →
      InYears ((Day.next ^ (a + b)) leapDay_valid.toDay).year →
      (leapDay.addAssign a).1.addAssign b = leapDay.addAssign (a + b)) ∧
    ∀ n, InYears ((Day.next ^ n) leapDay_valid.toDay).year → (leapDay.addAssign n).1.subAssign n = (leapDay, none) :=
  day_arithmetic leapDay_valid

example : leapDay.addAssign 366 = (⟨1, 3, 2001, 13, 5, 9, 123456, 4⟩, none) := by decide

/-! ## Days out of the range -/

/-- `+=` throws or not; where it throws nothing is assigned. -/
theorem addAssign_throws_iff (h : Valid dt) (n : ℤ) : (dt.addAssign n).1 = dt ∧ (dt.addAssign n).2 ≠ none ↔
    ∀ k : ℤ, ¬ InYears ((Day.next ^ (n + 2 ^ 62 * k)) h.toDay).year := by
  constructor
  · rintro ⟨-, hthrow⟩ k hin
    have hok := (addAssign_none_iff h).mpr ⟨k, hin, rfl⟩
    rw [hok] at hthrow
    exact hthrow rfl
  · intro hnone
    have hthrow : (dt.addAssign n).2 ≠ none := by
      intro hok
      obtain ⟨k, hin, -⟩ := (addAssign_none_iff h).mp (Prod.ext (y := ((dt.addAssign n).1, none)) rfl hok)
      exact hnone k hin
    refine ⟨?_, hthrow⟩
    unfold addAssign assignDate at hthrow ⊢
    split at hthrow
    · exact absurd rfl hthrow
    · rfl

/-- **Range errors.**  A day out of the years 1 to 3000 is refused, and nothing assigned, exactly when it is not a
multiple of `2 ^ 62` days away from one that is in them. -/
theorem range_error_iff (h : Valid dt) (n : ℤ) :
    (¬ InYears ((Day.next ^ n) h.toDay).year → ((dt.addAssign n).1 = dt ∧ (dt.addAssign n).2 ≠ none ↔
      ∀ k : ℤ, ¬ InYears ((Day.next ^ (n + 2 ^ 62 * k)) h.toDay).year)) ∧
    (¬ InYears ((Day.next ^ (-n)) h.toDay).year → ((dt.subAssign n).1 = dt ∧ (dt.subAssign n).2 ≠ none ↔
      ∀ k : ℤ, ¬ InYears ((Day.next ^ (-n + 2 ^ 62 * k)) h.toDay).year)) := by
  rw [subAssign_eq]
  exact ⟨fun _ => addAssign_throws_iff h n, fun _ => addAssign_throws_iff h (-n)⟩

theorem range_error_iff_leapDay :
    (¬ InYears ((Day.next ^ (10 ^ 9 : ℤ)) leapDay_valid.toDay).year →
      ((leapDay.addAssign (10 ^ 9)).1 = leapDay ∧ (leapDay.addAssign (10 ^ 9)).2 ≠ none ↔
        ∀ k : ℤ, ¬ InYears ((Day.next ^ (10 ^ 9 + 2 ^ 62 * k : ℤ)) leapDay_valid.toDay).year)) ∧
    (¬ InYears ((Day.next ^ (-10 ^ 9 : ℤ)) leapDay_valid.toDay).year →
      ((leapDay.subAssign (10 ^ 9)).1 = leapDay ∧ (leapDay.subAssign (10 ^ 9)).2 ≠ none ↔
        ∀ k : ℤ, ¬ InYears ((Day.next ^ (-10 ^ 9 + 2 ^ 62 * k : ℤ)) leapDay_valid.toDay).year)) :=
  range_error_iff leapDay_valid (10 ^ 9)

/-- `2 ^ 62 + 1` days after the leap day is the day after it. -/
theorem range_error_folds : ¬ ∀ (dt : DateTime) (h : Valid dt) (n : ℤ), -2 ^ 63 ≤ n → n < 2 ^ 63 →
    ¬ InYears ((Day.next ^ n) h.toDay).year → (dt.addAssign n).1 = dt ∧ (dt.addAssign n).2 ≠ none := by
  intro hall
  have hordinal : leapDay_valid.toDay.ordinal = 730485 := by decide
  have hout : ¬ InYears ((Day.next ^ (2 ^ 62 + 1 : ℤ)) leapDay_valid.toDay).year := by
    rw [inYears_iff, Day.ordinal_zpow, hordinal]
    omega
  have hfolds : (leapDay.addAssign (2 ^ 62 + 1)).2 = none := by decide
  exact (hall leapDay leapDay_valid (2 ^ 62 + 1) (by decide) (by decide) hout).2 hfolds

/-! ## Days of the week -/

/-- `JUGDate`, of a number that is a day of the years 1 to 3000. -/
theorem jugDate_eq (ht : Timed dt) (hin : InYears day.year) :
    jugDate (day.ordinal + 1721119) dt.hour dt.minute dt.second dt.microsec = .ok (dt.on day) :=
  (jugDate_ok_iff ht).mpr ⟨day, hin, Int.ModEq.refl _, rfl⟩

theorem next_eq (h : Valid dt) {w : ℤ} (hw : 0 ≤ w ∧ w ≤ 6)
    (hin : InYears ((Day.next ^ ((w - h.toDay.weekday - 1) % 7 + 1)) h.toDay).year) :
    dt.next w = .ok (dt.on ((Day.next ^ ((w - h.toDay.weekday - 1) % 7 + 1)) h.toDay)) := by
  have hweekday := Day.weekday_mem h.toDay
  unfold next
  dsimp only
  rw [if_pos (assertWeekDayRange_iff.mpr hw), h.weekDay_jugDay, h.jugDay_eq, ← jugDate_eq h.timed hin, Day.ordinal_zpow,
    Int.tmod_eq_emod_of_nonneg (by omega)]
  congr 1
  omega

theorem prev_eq (h : Valid dt) {w : ℤ} (hw : 0 ≤ w ∧ w ≤ 6)
    (hin : InYears ((Day.next ^ (-((h.toDay.weekday - w - 1) % 7) - 1)) h.toDay).year) :
    dt.prev w = .ok (dt.on ((Day.next ^ (-((h.toDay.weekday - w - 1) % 7) - 1)) h.toDay)) := by
  have hweekday := Day.weekday_mem h.toDay
  unfold prev
  dsimp only
  rw [if_pos (assertWeekDayRange_iff.mpr hw), h.weekDay_jugDay, h.jugDay_eq, ← jugDate_eq h.timed hin, Day.ordinal_zpow,
    Int.tmod_eq_emod_of_nonneg (by omega)]
  congr 1
  omega

/-- The dates that the constructors leave. -/
inductive Constructed (gmtime : ℤ → Option Tm) (beyond : ℤ → ℤ) : DateTime → Prop
  | fields {d m y hh mm sec usec : ℤ} {date : DateTime} (h : new d m y hh mm sec usec = .ok date) :
      Constructed gmtime beyond date
  | aceDateTime {dt date : DateTime} (h : ofAceDateTime dt = .ok date) : Constructed gmtime beyond date
  | tm {s : Tm} {microsec : ℤ} {date : DateTime} (h : ofTm s microsec = .ok date) : Constructed gmtime beyond date
  | timeValue {tv : TimeValue} {date : DateTime} (h : ofTimeValue gmtime tv = .ok date) : Constructed gmtime beyond date
  | string {y m d : ℤ} {s : List Char} {date : DateTime} (h : ofString beyond y m d s = .ok date) :
      Constructed gmtime beyond date

theorem Constructed.valid {gmtime : ℤ → Option Tm} {beyond : ℤ → ℤ} {date : DateTime}
    (h : Constructed gmtime beyond date) : Valid date := by
  cases h with
  | fields h => exact valid_of_checked h
  | aceDateTime h => exact valid_of_checked h
  | tm h => exact valid_of_checked h
  | timeValue h =>
    unfold ofTimeValue at h
    split at h
    · exact valid_of_checked h
    · cases h
  | string h =>
    unfold ofString at h
    dsimp only at h
    split_ifs at h
    exact valid_of_checked h

/-- **Days of the week.**  `next` comes to the first day after the date that has the given day of the week, and `prev`
to the last one before it, at the same time, if it is in the years 1 to 3000; and every date that is constructed has the
day of the week that the calendar gives it. -/
theorem next_prev (h : Valid dt) {w : ℤ} (hw : 0 ≤ w ∧ w ≤ 6) :
    (∃ day, IsLeast {e : Day | h.toDay < e ∧ e.weekday = w} day ∧
      (∃ k : ℤ, (1 ≤ k ∧ k ≤ 7) ∧ day = (Day.next ^ k) h.toDay) ∧ (InYears day.year → dt.next w = .ok (dt.on day))) ∧
    (∃ day, IsGreatest {e : Day | e < h.toDay ∧ e.weekday = w} day ∧
      (∃ k : ℤ, (1 ≤ k ∧ k ≤ 7) ∧ day = (Day.next ^ (-k)) h.toDay) ∧ (InYears day.year → dt.prev w = .ok (dt.on day))) ∧
    ∀ (gmtime : ℤ → Option Tm) (beyond : ℤ → ℤ) (date : DateTime), Constructed gmtime beyond date →
      ∃ hdate : Valid date, date.weekday = hdate.toDay.weekday := by
  refine ⟨⟨_, Day.isLeast_weekday (by omega), ⟨_, by omega, rfl⟩, next_eq h hw⟩,
    ⟨_, Day.isGreatest_weekday (by omega), ⟨(h.toDay.weekday - w - 1) % 7 + 1, by omega, ?_⟩, prev_eq h hw⟩,
    fun _ _ _ hdate => ⟨hdate.valid, hdate.valid.weekday⟩⟩
  rw [neg_add, ← sub_eq_add_neg]

/-- The Mondays before and after it. -/
theorem next_prev_leapDay :
    (∃ day, IsLeast {e : Day | leapDay_valid.toDay < e ∧ e.weekday = 1} day ∧
      (∃ k : ℤ, (1 ≤ k ∧ k ≤ 7) ∧ day = (Day.next ^ k) leapDay_valid.toDay) ∧
        (InYears day.year → leapDay.next 1 = .ok (leapDay.on day))) ∧
    (∃ day, IsGreatest {e : Day | e < leapDay_valid.toDay ∧ e.weekday = 1} day ∧
      (∃ k : ℤ, (1 ≤ k ∧ k ≤ 7) ∧ day = (Day.next ^ (-k)) leapDay_valid.toDay) ∧
        (InYears day.year → leapDay.prev 1 = .ok (leapDay.on day))) ∧
    ∀ (gmtime : ℤ → Option Tm) (beyond : ℤ → ℤ) (date : DateTime), Constructed gmtime beyond date →
      ∃ hdate : Valid date, date.weekday = hdate.toDay.weekday :=
  next_prev leapDay_valid ⟨by decide, by decide⟩

end Lasagne.Daf.DateTime
