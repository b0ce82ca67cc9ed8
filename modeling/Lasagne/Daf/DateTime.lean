import Lasagne.Cal.Gregorian
import Lasagne.Wire.Format
import Lasagne.Daf.Bitset

/-!
# Lasagne.Daf.DateTime — `DAF::Date_Time`

A `Date_Time` is the eight `long` fields of an `ACE_Date_Time`, with a range check wherever one is made or assigned.
Day arithmetic goes through a Julian day number and back.  The numbers of a date that has passed its check are small;
`long` stands where the arithmetic can leave the 64 bits all the same.

* `assertDateRange_ok_iff` : the check accepts the days of the years 1 to 3000 and the times of a day, and nothing else;
* `Valid.toDay` : so a checked date is a day of the calendar.
-/

namespace Lasagne.Daf

open Lasagne.Cal Lasagne.Wire

/-- What the members of `Date_Time` throw. -/
inductive DateTimeException where
  | dateTime
  | illegalArgument
deriving DecidableEq, Repr

/-- The fields of an `ACE_Date_Time`, to which `Date_Time` adds none. -/
structure DateTime where
  day : ℤ
  month : ℤ
  year : ℤ
  hour : ℤ
  minute : ℤ
  second : ℤ
  microsec : ℤ
  weekday : ℤ
deriving DecidableEq, Repr

/-- `struct tm`, as far as it is read. -/
structure Tm where
  tm_mday : ℤ
  tm_mon : ℤ
  tm_year : ℤ
  tm_hour : ℤ
  tm_min : ℤ
  tm_sec : ℤ
deriving DecidableEq, Repr

/-- An `ACE_Time_Value`. -/
structure TimeValue where
  sec : ℤ
  usec : ℤ
deriving DecidableEq, Repr

/-- What 64 bits of two's complement keep of a number. -/
def long (z : ℤ) : ℤ := Int.bmod z (2 ^ 64)

namespace DateTime

/-! ## The range checks -/

/-- `daysInCalanderMonth`. -/
def daysInCalanderMonth : List ℤ := [0, 31, 28, 31, 30, 31, 30, 31, 31, 30, 31, 30, 31]

/-- `MonthTy(m)` and `WeekDayTy(d)`: the enumerations have no negative member, and are stored as `unsigned int`. -/
def toEnum (m : ℤ) : ℤ := m % 2 ^ 32

def assertWeekDayRange (d : ℤ) : Bool := d = aceRange 0 6 (toEnum d)

def assertDayRange (d : ℤ) : Bool := d = aceRange 1 31 d

def assertMonthRange (m : ℤ) : Bool := m = aceRange 1 12 (toEnum m)

def assertYearRange (y : ℤ) : Bool := y = aceRange 1 3000 y

def assertHourRange (h : ℤ) : Bool := h = aceRange 0 23 h

def assertMinuteRange (m : ℤ) : Bool := m = aceRange 0 59 m

def assertSecondRange (s : ℤ) : Bool := s = aceRange 0 59 s

def assertMicrosecRange (m : ℤ) : Bool := m = aceRange 0 999999 m

/-- `Date_Time::isLeapYear`. -/
def isLeapYear (year : ℤ) : Bool :=
  if year.tmod 4 ≠ 0 then false else if year.tmod 400 ≠ 0 then year.tmod 100 ≠ 0 else true

/-- `Date_Time::daysInMonth`. -/
def daysInMonth (year month : ℤ) : Except DateTimeException ℤ :=
  if assertMonthRange month then
    if assertYearRange year then
      let dy := daysInCalanderMonth.getD month.toNat 0
      .ok (if month = 2 ∧ isLeapYear year then dy + 1 else dy)
    else .error .illegalArgument
  else .error .illegalArgument

/-- `Date_Time::isDayWithinMonth`. -/
def isDayWithinMonth (day month year : ℤ) : Except DateTimeException Bool :=
  if assertDayRange day then (daysInMonth year month).map fun dy => if 0 < dy then day ≤ dy else false else .ok false

def assertDateRange (dt : DateTime) : Except DateTimeException Bool :=
  (isDayWithinMonth dt.day dt.month dt.year).map fun within =>
    within && assertHourRange dt.hour && assertMinuteRange dt.minute && assertSecondRange dt.second &&
      assertMicrosecRange dt.microsec

/-! ## Julian days -/

/-- `JUGDay`. -/
def jugDay (d m y : ℤ) : ℤ :=
  let (ma, y) := if m > 2 then (m - 3, y) else (m + 9, y - 1)
  let ca := y.tdiv 100
  let ya := y - ca * 100
  d + (ca * 146097).tdiv 4 + (ya * 1461).tdiv 4 + (ma * 153 + 2).tdiv 5 + 1721119

/-- `WEEKDay`, of a day number. -/
def weekDay (d : ℤ) : ℤ :=
  let abs := if d + 1 > 0 then d + 1 else -(d + 1)
  (abs.tmod 7 + 7).tmod 7

/-- `JUGDate`, from `(j * 4) - 1` to the day, the month and the year. -/
def jugFields (j : ℤ) : ℤ × ℤ × ℤ :=
  let y := j.tdiv 146097
  let j := j - y * 146097
  let d := j.tdiv 4
  let j := (d * 4 + 3).tdiv 1461
  let d := d * 4 + 3 - j * 1461
  let d := (d + 4).tdiv 4
  let m := (d * 5 - 3).tdiv 153
  let d := d * 5 - 3 - m * 153
  let y := 100 * y + j
  let d := (d + 5).tdiv 5
  if m < 10 then (d, m + 3, y) else (d, m - 9, y + 1)

/-! ## The constructors -/

/-- What the constructors end with, once the fields are set. -/
def checked (dt : DateTime) : Except DateTimeException DateTime :=
  match assertDateRange dt with
  | .ok true => .ok { dt with weekday := weekDay (jugDay dt.day dt.month dt.year) }
  | .ok false => .error .dateTime
  | .error e => .error e

/-- `Date_Time::Date_Time(long, ...)`. -/
def new (d m y hh mm sec usec : ℤ) : Except DateTimeException DateTime := checked ⟨d, m, y, hh, mm, sec, usec, 0⟩

/-- `Date_Time::Date_Time(const ACE_Date_Time &)`. -/
def ofAceDateTime (dt : DateTime) : Except DateTimeException DateTime := checked dt

/-- `Date_Time::Date_Time(const struct tm &, long)`. -/
def ofTm (s : Tm) (microsec : ℤ) : Except DateTimeException DateTime :=
  checked ⟨s.tm_mday, s.tm_mon + 1, s.tm_year + 1900, s.tm_hour, s.tm_min, s.tm_sec, microsec, 0⟩

/-- `Date_Time::Date_Time(const ACE_Time_Value &)`; `gmtime` gives no `struct tm` for a time that it cannot convert. -/
def ofTimeValue (gmtime : ℤ → Option Tm) (tv : TimeValue) : Except DateTimeException DateTime :=
  match gmtime tv.sec with
  | some gmt =>
    checked ⟨gmt.tm_mday, gmt.tm_mon + 1, gmt.tm_year + 1900, gmt.tm_hour, gmt.tm_min, gmt.tm_sec, tv.usec, 0⟩
  | none => .error .dateTime

/-- `JUGDate`. -/
def jugDate (jj hh mm ss us : ℤ) : Except DateTimeException DateTime :=
  let j := long (jj - 1721119)
  let (d, m, y) := jugFields (long (long (j * 4) - 1))
  new d m y hh mm ss us

/-! ## The members -/

/-- `Date_Time::operator ACE_Time_Value`; `timeValue` is the constructor of `ACE_Time_Value`. -/
def toTimeValue (timeValue : ℤ → ℤ → TimeValue) (dt : DateTime) : TimeValue :=
  let jd := jugDay dt.day dt.month dt.year - 2440588
  timeValue (86400 * jd + 3600 * dt.hour + 60 * dt.minute + dt.second) dt.microsec

/-- `*this = JUGDate(..)`: nothing is assigned where `JUGDate` throws. -/
def assignDate (dt : DateTime) : Except DateTimeException DateTime → DateTime × Option DateTimeException
  | .ok date => (date, none)
  | .error e => (dt, some e)

/-- `Date_Time::operator +=`. -/
def addAssign (dt : DateTime) (days : ℤ) : DateTime × Option DateTimeException :=
  dt.assignDate (jugDate (long (jugDay dt.day dt.month dt.year + days)) dt.hour dt.minute dt.second dt.microsec)

/-- `Date_Time::operator -=`. -/
def subAssign (dt : DateTime) (days : ℤ) : DateTime × Option DateTimeException :=
  dt.assignDate (jugDate (long (jugDay dt.day dt.month dt.year - days)) dt.hour dt.minute dt.second dt.microsec)

/-- The fields in the order in which `compare_to` looks at them. -/
def compared (dt : DateTime) : List ℤ :=
  [dt.year, dt.month, dt.day, dt.hour, dt.minute, dt.second, dt.microsec]

/-- The loop of `compare_to`, over the pairs of fields. -/
def compareLoop : List (ℤ × ℤ) → ℤ
  | [] => 0
  | (a, b) :: fields =>
    let rtn := if a < b then -1 else if a > b then 1 else 0
    if rtn = 0 then compareLoop fields else rtn

/-- `Date_Time::compare_to`. -/
def compareTo (dt other : DateTime) : ℤ := compareLoop (dt.compared.zip other.compared)

/-- `Date_Time::next`. -/
def next (dt : DateTime) (d : ℤ) : Except DateTimeException DateTime :=
  let jDay := jugDay dt.day dt.month dt.year
  if assertWeekDayRange d then
    jugDate (jDay + (6 + d - weekDay jDay).tmod 7 + 1) dt.hour dt.minute dt.second dt.microsec
  else .error .illegalArgument

/-- `Date_Time::prev`. -/
def prev (dt : DateTime) (d : ℤ) : Except DateTimeException DateTime :=
  let jDay := jugDay dt.day dt.month dt.year
  if assertWeekDayRange d then
    jugDate (jDay - (6 + weekDay jDay - d).tmod 7 - 1) dt.hour dt.minute dt.second dt.microsec
  else .error .illegalArgument

/-! ## Texts -/

def monthNAME (m : ℤ) : String :=
  if assertMonthRange m then
    ["", "January", "February", "March", "April", "May", "June", "July", "August", "September", "October", "November",
      "December"].getD m.toNat ""
  else ""

def weekdayNAME (d : ℤ) : String :=
  if assertWeekDayRange d then
    ["Sunday", "Monday", "Tuesday", "Wednesday", "Thursday", "Friday", "Saturday"].getD d.toNat ""
  else ""

def dayACRONIUM (d : ℤ) : String :=
  if assertDayRange d then
    ["th", "st", "nd", "rd", "th", "th", "th", "th", "th", "th"].getD
      (if d < 11 ∨ d > 13 then d.tmod 10 else 0).toNat ""
  else ""

/-- `DAF_DATE_TIME_DEFAULT_FORMAT`. -/
def defaultFormat : List Item :=
  [.int (some 4), .char '-', .int (some 2), .char '-', .int (some 2), .char ' ',
    .int (some 2), .char ':', .int (some 2), .char ':', .int (some 2)]

/-- `DAF_DATE_TIME_VERBOSE_FORMAT`, applied. -/
def verboseText (dt : DateTime) : List Char :=
  (weekdayNAME dt.weekday).toList ++ [',', ' '] ++ printInt none dt.day ++ (dayACRONIUM dt.day).toList ++ [' '] ++
    (monthNAME dt.month).toList ++ [' '] ++ printInt (some 4) dt.year ++ [' '] ++
    printInt none (if dt.hour.tmod 12 ≠ 0 then dt.hour.tmod 12 else 12) ++ [':'] ++ printInt (some 2) dt.minute ++
    [':'] ++ printInt (some 2) dt.second ++ (if dt.hour ≥ 12 then "PM" else "AM").toList

/-- `toDateString`, and `Date_Time::toString`. -/
def toDateString (dt : DateTime) (verbose : Bool) : Except DateTimeException (List Char) :=
  match assertDateRange dt with
  | .ok true =>
    .ok (if verbose then verboseText dt
      else print defaultFormat [dt.year, dt.month, dt.day, dt.hour, dt.minute, dt.second])
  | .ok false => .error .illegalArgument
  | .error e => .error e

/-- What `%d` stores of a number; `beyond` is about the numbers that an `int` does not hold. -/
def storeInt (beyond : ℤ → ℤ) (z : ℤ) : ℤ := if -2 ^ 31 ≤ z ∧ z < 2 ^ 31 then z else beyond z

/-- The numbers that `sscanf` stores. -/
def scanned (beyond : ℤ → ℤ) (s : List Char) : List ℤ :=
  (scan (defaultFormat ++ [.char '.', .int none]) (s.takeWhile (· ≠ '\x00'))).map (storeInt beyond)

/-- `Date_Time::Date_Time(const std::string &)`; `y`, `m` and `d` are what the variables hold that are not set. -/
def ofString (beyond : ℤ → ℤ) (y m d : ℤ) (s : List Char) : Except DateTimeException DateTime :=
  if s.length > 0 then
    let read := scanned beyond s
    if read.length > 0 then
      checked ⟨read.getD 2 d, read.getD 1 m, read.getD 0 y, read.getD 3 0, read.getD 4 0, read.getD 5 0,
        read.getD 6 0 * 1000, 0⟩
    else .error .dateTime
  else .error .dateTime

/-! ## What passes the check -/

theorem eq_aceRange_iff {lo hi val : ℤ} (h : lo ≤ hi) : val = aceRange lo hi val ↔ lo ≤ val ∧ val ≤ hi := by
  unfold aceRange
  omega

/-- Whatever an enumeration makes of a number that is none of its members, it is not that number. -/
theorem eq_aceRange_toEnum_iff {lo hi val : ℤ} (h : lo ≤ hi) (hlo : 0 ≤ lo) (hhi : hi < 2 ^ 32) :
    val = aceRange lo hi (toEnum val) ↔ lo ≤ val ∧ val ≤ hi := by
  unfold aceRange toEnum
  omega

theorem assertMonthRange_iff {m : ℤ} : assertMonthRange m = true ↔ 1 ≤ m ∧ m ≤ 12 := by
  rw [assertMonthRange, decide_eq_true_eq]
  exact eq_aceRange_toEnum_iff (by decide) (by decide) (by decide)

theorem assertWeekDayRange_iff {d : ℤ} : assertWeekDayRange d = true ↔ 0 ≤ d ∧ d ≤ 6 := by
  rw [assertWeekDayRange, decide_eq_true_eq]
  exact eq_aceRange_toEnum_iff (by decide) (by decide) (by decide)

theorem isLeapYear_iff {year : ℤ} : isLeapYear year = true ↔ IsLeap year := by
  have htmod : ∀ k : ℤ, year.tmod k = 0 ↔ year % k = 0 := fun k =>
    Int.dvd_iff_tmod_eq_zero.symm.trans Int.dvd_iff_emod_eq_zero
  unfold isLeapYear IsLeap
  rw [← htmod 4, ne_eq (year % 100), ← htmod 100, ← htmod 400]
  split_ifs with h4 h400
  · simp [h4]
  · simp [not_not.mp h4, h400]
  · simp [not_not.mp h4, not_not.mp h400]

theorem daysInMonth_eq {year month : ℤ} (hyear : 1 ≤ year ∧ year ≤ 3000) (hmonth : 1 ≤ month ∧ month ≤ 12) :
    daysInMonth year month = .ok (monthLength year month) := by
  have hrange : assertYearRange year = true := decide_eq_true ((eq_aceRange_iff (by decide)).mpr hyear)
  rw [daysInMonth, if_pos (assertMonthRange_iff.mpr hmonth), if_pos hrange]
  obtain ⟨hlo, hhi⟩ := hmonth
  unfold monthLength
  interval_cases month <;> simp [daysInCalanderMonth, isLeapYear_iff]

/-- In the years 1 to 3000. -/
def InYears (year : ℤ) : Prop := 1 ≤ year ∧ year ≤ 3000

instance (year : ℤ) : Decidable (InYears year) := inferInstanceAs (Decidable (_ ∧ _))

/-- A time of the day. -/
structure Timed (dt : DateTime) : Prop where
  hour : 0 ≤ dt.hour ∧ dt.hour ≤ 23
  minute : 0 ≤ dt.minute ∧ dt.minute ≤ 59
  second : 0 ≤ dt.second ∧ dt.second ≤ 59
  microsec : 0 ≤ dt.microsec ∧ dt.microsec ≤ 999999

/-- The month and the day in it. -/
structure Dated (dt : DateTime) : Prop where
  month : 1 ≤ dt.month ∧ dt.month ≤ 12
  day : 1 ≤ dt.day ∧ dt.day ≤ monthLength dt.year dt.month

theorem isDayWithinMonth_ok_iff {day month year : ℤ} : isDayWithinMonth day month year = .ok true ↔
    InYears year ∧ (1 ≤ month ∧ month ≤ 12) ∧ 1 ≤ day ∧ day ≤ monthLength year month := by
  unfold isDayWithinMonth
  by_cases hday : 1 ≤ day ∧ day ≤ 31
  · have hday' : assertDayRange day = true := decide_eq_true ((eq_aceRange_iff (by decide)).mpr hday)
    rw [if_pos hday']
    by_cases hmonth : 1 ≤ month ∧ month ≤ 12
    · by_cases hyear : InYears year
      · have hpos := monthLength_pos year month
        rw [daysInMonth_eq hyear hmonth]
        simp only [Except.map, if_pos (show 0 < monthLength year month by omega), Except.ok.injEq, decide_eq_true_eq]
        exact ⟨fun h => ⟨hyear, hmonth, hday.1, h⟩, fun h => h.2.2.2⟩
      · have hrange : assertYearRange year = false :=
          decide_eq_false fun h => hyear ((eq_aceRange_iff (by decide)).mp h)
        rw [daysInMonth, if_pos (assertMonthRange_iff.mpr hmonth), hrange]
        simp [Except.map, hyear]
    · have hrange : assertMonthRange month = false := Bool.eq_false_iff.mpr fun h => hmonth (assertMonthRange_iff.mp h)
      rw [daysInMonth, hrange]
      simp [Except.map, hmonth]
  · have hrange : assertDayRange day = false := decide_eq_false fun h => hday ((eq_aceRange_iff (by decide)).mp h)
    have hle := monthLength_le year month
    rw [hrange]
    simp only [Bool.false_eq_true, if_false, Except.ok.injEq, false_iff]
    omega

/-- The check accepts the dates of the years 1 to 3000 with a time of the day, and nothing else. -/
theorem assertDateRange_ok_iff {dt : DateTime} :
    assertDateRange dt = .ok true ↔ InYears dt.year ∧ Dated dt ∧ Timed dt := by
  unfold assertDateRange
  have htime : (assertHourRange dt.hour && assertMinuteRange dt.minute && assertSecondRange dt.second &&
      assertMicrosecRange dt.microsec) = true ↔ Timed dt := by
    unfold assertHourRange assertMinuteRange assertSecondRange assertMicrosecRange
    simp only [Bool.and_eq_true, decide_eq_true_eq]
    rw [eq_aceRange_iff (by decide), eq_aceRange_iff (by decide), eq_aceRange_iff (by decide),
      eq_aceRange_iff (by decide)]
    exact ⟨fun h => ⟨h.1.1.1, h.1.1.2, h.1.2, h.2⟩, fun h => ⟨⟨⟨h.hour, h.minute⟩, h.second⟩, h.microsec⟩⟩
  have hday := @isDayWithinMonth_ok_iff dt.day dt.month dt.year
  cases hwithin : isDayWithinMonth dt.day dt.month dt.year with
  | error e =>
    rw [hwithin] at hday
    simp only [Except.map, reduceCtorEq, false_iff] at hday ⊢
    exact fun h => hday ⟨h.1, h.2.1.month, h.2.1.day⟩
  | ok within =>
    rw [hwithin, Except.ok.injEq] at hday
    simp only [Except.map, Except.ok.injEq, Bool.and_assoc] at htime ⊢
    rw [Bool.and_eq_true, htime, hday]
    exact ⟨fun h => ⟨h.1.1, ⟨h.1.2.1, h.1.2.2⟩, h.2⟩, fun h => ⟨⟨h.1, h.2.1.month, h.2.1.day⟩, h.2.2⟩⟩

/-- What the constructors leave: a date that passes the check, with the day of the week set. -/
structure Valid (dt : DateTime) : Prop where
  range : assertDateRange dt = .ok true
  weekday_eq : dt.weekday = weekDay (jugDay dt.day dt.month dt.year)

variable {dt : DateTime}

def Dated.toDay (h : Dated dt) : Day where
  year := dt.year
  month := dt.month
  day := dt.day
  month_pos := h.month.1
  month_le := h.month.2
  day_pos := h.day.1
  day_le := h.day.2

namespace Valid

theorem inYears (h : Valid dt) : InYears dt.year := (assertDateRange_ok_iff.mp h.range).1

theorem dated (h : Valid dt) : Dated dt := (assertDateRange_ok_iff.mp h.range).2.1

theorem timed (h : Valid dt) : Timed dt := (assertDateRange_ok_iff.mp h.range).2.2

/-- The day of the calendar. -/
def toDay (h : Valid dt) : Day := h.dated.toDay

end Valid

/-- The same time on another day. -/
def on (dt : DateTime) (day : Day) : DateTime :=
  { dt with day := day.day, month := day.month, year := day.year, weekday := day.weekday }

theorem checked_ok_iff {date : DateTime} : checked dt = .ok date ↔ (InYears dt.year ∧ Dated dt ∧ Timed dt) ∧
    date = { dt with weekday := weekDay (jugDay dt.day dt.month dt.year) } := by
  rw [← assertDateRange_ok_iff]
  unfold checked
  split
  · next h => simp [h, eq_comm]
  · next h => simp [h]
  · next h => simp [h]

/-- Every constructor leaves a valid date. -/
theorem valid_of_checked {date : DateTime} (h : checked dt = .ok date) : Valid date := by
  obtain ⟨hrange, rfl⟩ := checked_ok_iff.mp h
  exact ⟨assertDateRange_ok_iff.mpr ⟨hrange.1, ⟨hrange.2.1.month, hrange.2.1.day⟩,
    ⟨hrange.2.2.hour, hrange.2.2.minute, hrange.2.2.second, hrange.2.2.microsec⟩⟩, rfl⟩

end DateTime

end Lasagne.Daf
