import Lasagne.Daf.DateTimeInstant

/-!
# Lasagne.Daf.DateTimeText — `Date_Time` and its text

The text of a date has no microseconds.  A text is taken apart by `sscanf`, which is asked for seven numbers and may
find fewer; the constructor is content with one.

* `text_round_trip` : a date is read back from its text to the second, and the texts are in the order of the dates;
* `parses_iff` : which texts make a date or a `DateTimeException`;
* `validates_iff` : which fields do.
-/

namespace Lasagne.Daf.DateTime

open Lasagne.Cal Lasagne.Wire

variable {dt a b : DateTime} {beyond : ℤ → ℤ} {s : List Char}

/-! ## Dates as texts -/

/-- The date to the second. -/
def toSecond (dt : DateTime) : DateTime := { dt with microsec := 0 }

/-- What the text of a date is made of. -/
def printed (dt : DateTime) : List ℤ := [dt.year, dt.month, dt.day, dt.hour, dt.minute, dt.second]

theorem Valid.toDateString (h : Valid dt) : dt.toDateString false = .ok (print defaultFormat dt.printed) := by
  rw [DateTime.toDateString, h.range]
  rfl

theorem Valid.fits (h : Valid dt) : Fits defaultFormat dt.printed := by
  have ⟨hyear, hyear'⟩ := h.inYears
  have ⟨⟨hmonth, hmonth'⟩, hday, hday'⟩ := h.dated
  have ⟨hhour, hminute, hsecond, hmicrosec⟩ := h.timed
  have hle := monthLength_le dt.year dt.month
  unfold defaultFormat printed
  simp only [Fits]
  have hdash : isWhite '-' = false := by decide
  have hcolon : isWhite ':' = false := by decide
  rw [hdash, hcolon]
  refine ⟨by omega, nofun, by omega, nofun, by omega, fun _ => ⟨some 2, _, rfl⟩, by omega, nofun, by omega, nofun,
    by omega, trivial⟩

theorem storeInt_eq {z : ℤ} (h : -2 ^ 31 ≤ z ∧ z < 2 ^ 31) : storeInt beyond z = z := if_pos h

theorem Valid.scanned_print (h : Valid dt) : scanned beyond (print defaultFormat dt.printed) = dt.printed := by
  have hfits := h.fits
  have hnul : (print defaultFormat dt.printed).takeWhile (· ≠ '\x00') = print defaultFormat dt.printed := by
    refine List.takeWhile_eq_self_iff.mpr fun c hc => decide_eq_true ?_
    rintro rfl
    exact (mem_print hfits hc).elim (by decide) (by decide)
  have hscan := scan_print hfits [.char '.', .int none] []
  rw [List.append_nil, show scan [.char '.', .int none] [] = [] from rfl, List.append_nil] at hscan
  have hstore : dt.printed.map (storeInt beyond) = dt.printed := by
    refine (List.map_congr_left fun z hz => ?_).trans (List.map_id _)
    obtain ⟨w, hw, hnonneg, hlt⟩ := hfits.exists_width hz
    have hwidth : w ≤ 4 := by
      simp [defaultFormat] at hw
      omega
    have hsmall : (10 : ℤ) ^ w ≤ 10 ^ 4 := pow_le_pow_right₀ (by decide) hwidth
    exact storeInt_eq (by omega)
  rw [scanned, hnul, hscan, hstore]

theorem Valid.toSecond (h : Valid dt) : checked dt.toSecond = .ok dt.toSecond := by
  have ⟨hhour, hminute, hsecond, hmicrosec⟩ := h.timed
  have hzero : (0 : ℤ) ≤ 0 ∧ (0 : ℤ) ≤ 999999 := by decide
  refine checked_ok_iff.mpr ⟨⟨h.inYears, ⟨h.dated.month, h.dated.day⟩, hhour, hminute, hsecond, hzero⟩, ?_⟩
  exact congrArg (fun w => { dt.toSecond with weekday := w }) h.weekday_eq

/-- **Texts.**  A date is read back from its text to the second, whatever the variables hold, and texts compare as the
dates do to the second. -/
theorem text_round_trip (ha : Valid a) (hb : Valid b) : ∃ s t, a.toDateString false = .ok s ∧
    b.toDateString false = .ok t ∧ (∀ beyond y m d, ofString beyond y m d s = .ok a.toSecond) ∧
      (s < t ↔ a.toSecond.compareTo b.toSecond < 0) := by
  refine ⟨_, _, ha.toDateString, hb.toDateString, fun beyond y m d => ?_, ?_⟩
  · have hscanned : scanned beyond (print defaultFormat a.printed) = a.printed := ha.scanned_print
    have hpos : (print defaultFormat a.printed).length > 0 := by
      by_contra hnil
      rw [List.length_eq_zero_iff.mp (Nat.eq_zero_of_not_pos hnil)] at hscanned
      cases hscanned
    rw [ofString, if_pos hpos, hscanned]
    exact ha.toSecond
  · rw [print_lt_iff ha.fits hb.fits, compareTo_lt_zero]
    unfold printed compared toSecond
    simp only [List.cons_lt_cons_iff, lt_self_iff_false, and_false, or_false]

theorem text_round_trip_leapDay : ∃ s t, leapDay.toDateString false = .ok s ∧
    newYearsEve.toDateString false = .ok t ∧ (∀ beyond y m d, ofString beyond y m d s = .ok leapDay.toSecond) ∧
      (s < t ↔ leapDay.toSecond.compareTo newYearsEve.toSecond < 0) :=
  text_round_trip leapDay_valid newYearsEve_valid

example : leapDay.toDateString false = .ok "2000-02-29 13:05:09".toList := by decide

/-! ## Texts as dates -/

/-- The date that the numbers make, with zeros for those there are not. -/
def ofRead (read : List ℤ) : DateTime :=
  ⟨read.getD 2 0, read.getD 1 0, read.getD 0 0, read.getD 3 0, read.getD 4 0, read.getD 5 0, read.getD 6 0 * 1000, 0⟩

/-- What a constructor from a text should do, whatever the variables hold: it makes a date if the year, the month and
the day are there and all numbers are in range, and throws a `DateTimeException` else. -/
structure Parses (beyond : ℤ → ℤ) (s : List Char) : Prop where
  ok_iff : ∀ (y m d : ℤ) (dt : DateTime), ofString beyond y m d s = .ok dt ↔
    3 ≤ (scanned beyond s).length ∧ Valid dt ∧ dt.compared = (ofRead (scanned beyond s)).compared
  error : ∀ (y m d : ℤ) (e : DateTimeException), ofString beyond y m d s = .error e → e = .dateTime

theorem checked_eq_ok_iff : checked a = .ok dt ↔ Valid dt ∧ dt.compared = a.compared := by
  constructor
  · intro hok
    refine ⟨valid_of_checked hok, ?_⟩
    rw [(checked_ok_iff.mp hok).2]
    rfl
  · rintro ⟨hvalid, hfields⟩
    obtain ⟨day, month, year, hour, minute, second, microsec, weekday⟩ := a
    simp only [compared, List.cons.injEq, and_true] at hfields
    obtain ⟨rfl, rfl, rfl, rfl, rfl, rfl, rfl⟩ := hfields
    have ⟨hhour, hminute, hsecond, hmicrosec⟩ := hvalid.timed
    refine checked_ok_iff.mpr ⟨⟨hvalid.inYears, ⟨hvalid.dated.month, hvalid.dated.day⟩, hhour, hminute, hsecond,
      hmicrosec⟩, ?_⟩
    exact congrArg (fun w => { dt with weekday := w }) hvalid.weekday_eq

theorem daysInMonth_error {year month : ℤ} (h : ¬ ((1 ≤ month ∧ month ≤ 12) ∧ InYears year)) :
    daysInMonth year month = .error .illegalArgument := by
  unfold daysInMonth
  split_ifs with hmonth hyear
  · exact absurd ⟨assertMonthRange_iff.mp hmonth, (eq_aceRange_iff (by decide)).mp (of_decide_eq_true hyear)⟩ h
  · rfl
  · rfl

/-- The check of a day asks for the length of its month, and throws where there is none. -/
theorem checked_illegal_iff : checked dt = .error .illegalArgument ↔
    (1 ≤ dt.day ∧ dt.day ≤ 31) ∧ ¬ ((1 ≤ dt.month ∧ dt.month ≤ 12) ∧ InYears dt.year) := by
  unfold checked assertDateRange isDayWithinMonth
  by_cases hday : 1 ≤ dt.day ∧ dt.day ≤ 31
  · rw [assertDayRange, decide_eq_true ((eq_aceRange_iff (by decide)).mpr hday), if_pos rfl, and_iff_right hday]
    by_cases hmonth : (1 ≤ dt.month ∧ dt.month ≤ 12) ∧ InYears dt.year
    · rw [daysInMonth_eq hmonth.2 hmonth.1]
      refine iff_of_false ?_ (not_not.mpr hmonth)
      dsimp only [Except.map]
      split
      · nofun
      · nofun
      · next herror => cases herror
    · rw [daysInMonth_error hmonth]
      exact iff_of_true rfl hmonth
  · rw [assertDayRange, decide_eq_false fun h => hday ((eq_aceRange_iff (by decide)).mp h), if_neg Bool.false_ne_true]
    refine iff_of_false ?_ fun h => hday h.1
    nofun

/-- A text that begins with a number makes a date of the numbers and the variables. -/
theorem ofString_eq {y m d : ℤ} (h : scanned beyond s ≠ []) : ofString beyond y m d s =
    checked { ofRead (scanned beyond s) with
      day := (scanned beyond s).getD 2 d,
      month := (scanned beyond s).getD 1 m,
      year := (scanned beyond s).getD 0 y } := by
  have hs : s.length > 0 := by
    rw [gt_iff_lt, List.length_pos_iff]
    rintro rfl
    exact h rfl
  rw [ofString, if_pos hs]
  exact if_pos (List.length_pos_iff.mpr h)

theorem ofString_error {y m d : ℤ} (h : scanned beyond s = []) : ofString beyond y m d s = .error .dateTime := by
  unfold ofString
  dsimp only
  rw [h]
  split
  · exact if_neg (by decide)
  · rfl

/-- The first of a month of the years 1 to 3000, at midnight. -/
theorem new_first {month year : ℤ} (hmonth : 1 ≤ month ∧ month ≤ 12) (hyear : InYears year) :
    ∃ date, new 1 month year 0 0 0 0 = .ok date := by
  have hday : (1 : ℤ) ≤ 1 ∧ 1 ≤ monthLength year month := ⟨le_refl _, monthLength_pos year month⟩
  have hzero : (0 : ℤ) ≤ 0 ∧ (0 : ℤ) ≤ 23 ∧ (0 : ℤ) ≤ 59 ∧ (0 : ℤ) ≤ 999999 := by decide
  have htimed : Timed ⟨1, month, year, 0, 0, 0, 0, 0⟩ :=
    ⟨⟨hzero.1, hzero.2.1⟩, ⟨hzero.1, hzero.2.2.1⟩, ⟨hzero.1, hzero.2.2.1⟩, ⟨hzero.1, hzero.2.2.2⟩⟩
  exact ⟨_, checked_ok_iff.mpr ⟨⟨hyear, ⟨hmonth, hday⟩, htimed⟩, rfl⟩⟩

/-- Of one or two numbers a date of the variables is made, or a month is asked for that there is not. -/
theorem not_parses (hpos : scanned beyond s ≠ []) (hfew : (scanned beyond s).length < 3) : ¬ Parses beyond s := by
  rintro ⟨hok, herror⟩
  have hzero : ∀ i ≥ 3, (scanned beyond s).getD i 0 = 0 := fun i hi => List.getD_eq_default _ _ (by omega)
  have hday : (scanned beyond s).getD 2 1 = 1 := List.getD_eq_default _ _ (by omega)
  have hof : ofString beyond 1 1 1 s = new 1 ((scanned beyond s).getD 1 1) ((scanned beyond s).getD 0 1) 0 0 0 0 := by
    rw [ofString_eq hpos, ofRead, hday, hzero 3 (by decide), hzero 4 (by decide), hzero 5 (by decide),
      hzero 6 (by decide)]
    rfl
  generalize (scanned beyond s).getD 1 1 = month at hof
  generalize (scanned beyond s).getD 0 1 = year at hof
  by_cases hmonth : (1 ≤ month ∧ month ≤ 12) ∧ InYears year
  · obtain ⟨date, hdate⟩ := new_first hmonth.1 hmonth.2
    have hread := ((hok _ _ _ _).mp (hof.trans hdate)).1
    omega
  · have hfirst : (1 : ℤ) ≤ 1 ∧ (1 : ℤ) ≤ 31 := by decide
    cases herror _ _ _ _ (hof.trans (checked_illegal_iff.mpr ⟨hfirst, hmonth⟩))

/-- **Texts as dates.**  A text does what it should, whatever the variables hold, exactly if it begins with no number or
with three or more, of which the day is out of range in any month or the month and the year are in range. -/
theorem parses_iff (beyond : ℤ → ℤ) (s : List Char) : Parses beyond s ↔
    (scanned beyond s).length ≠ 1 ∧ (scanned beyond s).length ≠ 2 ∧
      (3 ≤ (scanned beyond s).length → (1 ≤ (ofRead (scanned beyond s)).day ∧ (ofRead (scanned beyond s)).day ≤ 31) →
        (1 ≤ (ofRead (scanned beyond s)).month ∧ (ofRead (scanned beyond s)).month ≤ 12) ∧
          InYears (ofRead (scanned beyond s)).year) := by
  rcases Nat.eq_zero_or_pos (scanned beyond s).length with hnone | hpos
  · have hnil := List.length_eq_zero_iff.mp hnone
    refine iff_of_true ⟨fun y m d dt => ?_, fun y m d e herror => ?_⟩ ⟨by omega, by omega, by omega⟩
    · rw [ofString_error hnil, hnone]
      exact iff_of_false nofun (by omega)
    · rw [ofString_error hnil] at herror
      exact (Except.error.inj herror).symm
  · have hne := List.length_pos_iff.mp hpos
    rcases lt_or_ge (scanned beyond s).length 3 with hfew | hmany
    · exact iff_of_false (not_parses hne hfew) (by omega)
    · have hof : ∀ y m d, ofString beyond y m d s = checked (ofRead (scanned beyond s)) := by
        intro y m d
        obtain ⟨year, month, day, rest, hread⟩ :
            ∃ year month day rest, scanned beyond s = year :: month :: day :: rest := by
          match scanned beyond s, hmany with
          | year :: month :: day :: rest, _ => exact ⟨year, month, day, rest, rfl⟩
        rw [ofString_eq hne, hread]
        rfl
      constructor
      · rintro ⟨-, herror⟩
        refine ⟨by omega, by omega, fun _ hday => ?_⟩
        by_contra hmonth
        cases herror 0 0 0 _ ((hof 0 0 0).trans (checked_illegal_iff.mpr ⟨hday, hmonth⟩))
      · rintro ⟨-, -, hmonth⟩
        refine ⟨fun y m d dt => ?_, fun y m d e herror => ?_⟩
        · rw [hof, checked_eq_ok_iff, and_iff_right hmany]
        · cases e with
          | dateTime => rfl
          | illegalArgument =>
            rw [hof, checked_illegal_iff] at herror
            exact absurd (hmonth hmany herror.1) herror.2

/-- A year alone makes a date of whatever the variables hold, and there is no thirteenth month. -/
theorem parses_fails : ¬ Parses id "2000".toList ∧ ¬ Parses id "2000-13-01".toList := by
  constructor
  · rintro ⟨hok, -⟩
    have hread := ((hok 0 7 7 ⟨7, 7, 2000, 0, 0, 0, 0, 5⟩).mp (by decide)).1
    exact absurd hread (by decide)
  · rintro ⟨-, herror⟩
    cases herror 0 0 0 .illegalArgument (by decide)

/-! ## Validation -/

/-- What the constructor from the fields should do: it makes a date of the calendar with a time of the day in the
years 1 to 3000, and throws a `DateTimeException` for anything else. -/
structure Validates (d m y hh mm sec usec : ℤ) : Prop where
  ok_iff : (∃ dt, new d m y hh mm sec usec = .ok dt) ↔
    InYears y ∧ Dated ⟨d, m, y, hh, mm, sec, usec, 0⟩ ∧ Timed ⟨d, m, y, hh, mm, sec, usec, 0⟩
  error : ∀ e, new d m y hh mm sec usec = .error e → e = .dateTime

/-- **Validation.**  The constructor does so exactly if there is a month for the day, if the day is one of any month at
all. -/
theorem validates_iff (d m y hh mm sec usec : ℤ) : Validates d m y hh mm sec usec ↔
    (1 ≤ d ∧ d ≤ 31 → (1 ≤ m ∧ m ≤ 12) ∧ InYears y) := by
  have hillegal := @checked_illegal_iff ⟨d, m, y, hh, mm, sec, usec, 0⟩
  constructor
  · rintro ⟨-, herror⟩ hday
    by_contra hmonth
    have he := herror .illegalArgument (hillegal.mpr ⟨hday, hmonth⟩)
    cases he
  · intro hmonth
    refine ⟨⟨?_, fun h => ⟨_, checked_ok_iff.mpr ⟨h, rfl⟩⟩⟩, fun e he => ?_⟩
    · rintro ⟨dt, hdt⟩
      exact (checked_ok_iff.mp hdt).1
    · cases e with
      | dateTime => rfl
      | illegalArgument =>
        obtain ⟨hday, hno⟩ := hillegal.mp he
        exact absurd (hmonth hday) hno

/-- The first day of a thirteenth month. -/
theorem validates_fails : ¬ ∀ d m y hh mm sec usec : ℤ, Validates d m y hh mm sec usec := by
  intro h
  have he := (h 1 13 2000 0 0 0 0).error .illegalArgument (by decide)
  cases he

end Lasagne.Daf.DateTime
