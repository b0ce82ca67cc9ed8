import Lasagne.Daf.DateTimeDays

/-!
# Lasagne.Daf.DateTimeInstant — `Date_Time` and `ACE_Time_Value`

A date becomes a time by its day number, and a time a date by `gmtime`.  The two parts of an `ACE_Time_Value` never have
opposite signs, so before 1970 the microseconds come back negative.

* `round_trip_iff` : which dates are got back from their time;
* `compare_instants` : `compare_to` is the order of the times.
-/

namespace Lasagne.Daf

open Lasagne.Cal

/-- A time in microseconds. -/
def TimeValue.instant (tv : TimeValue) : ℤ := tv.sec * 10 ^ 6 + tv.usec

namespace DateTime

/-! ## What the platform does -/

/-- The constructor of `ACE_Time_Value` keeps the time, and leaves no opposite signs. -/
structure Normalises (timeValue : ℤ → ℤ → TimeValue) : Prop where
  instant : ∀ sec usec : ℤ, |sec| < 2 ^ 62 → |usec| < 2 ^ 62 → (timeValue sec usec).instant = sec * 10 ^ 6 + usec
  usec_lt : ∀ sec usec : ℤ, |sec| < 2 ^ 62 → |usec| < 2 ^ 62 → |(timeValue sec usec).usec| < 10 ^ 6
  same_sign : ∀ sec usec : ℤ, |sec| < 2 ^ 62 → |usec| < 2 ^ 62 →
    ¬ ((timeValue sec usec).sec < 0 ∧ 0 < (timeValue sec usec).usec) ∧
      ¬ (0 < (timeValue sec usec).sec ∧ (timeValue sec usec).usec < 0)

/-- The day of a time that is given in seconds. -/
noncomputable def dayOf (t : ℤ) : Day := (Day.next ^ (t / 86400)) Day.epoch

/-- `gmtime` is the Gregorian calendar, in the years 1 to 3000 at least. -/
def Gregorian (gmtime : ℤ → Option Tm) : Prop :=
  ∀ t : ℤ, InYears (dayOf t).year → gmtime t =
    some ⟨(dayOf t).day, (dayOf t).month - 1, (dayOf t).year - 1900, t % 86400 / 3600, t % 3600 / 60, t % 60⟩

/-! ## Dates and times -/

variable {dt a b : DateTime} {timeValue : ℤ → ℤ → TimeValue} {gmtime : ℤ → Option Tm}

/-- The seconds that the conversion comes to. -/
def seconds (dt : DateTime) : ℤ :=
  86400 * (jugDay dt.day dt.month dt.year - 2440588) + 3600 * dt.hour + 60 * dt.minute + dt.second

theorem Valid.seconds_eq (h : Valid dt) :
    dt.seconds = 86400 * (h.toDay.ordinal - 719469) + 3600 * dt.hour + 60 * dt.minute + dt.second := by
  rw [seconds, h.jugDay_eq]
  ring

theorem Valid.seconds_small (h : Valid dt) : |dt.seconds| < 2 ^ 62 ∧ |dt.microsec| < 2 ^ 62 := by
  have hday := inYears_iff.mp (show InYears h.toDay.year from h.inYears)
  have ⟨hhour, hminute, hsecond, hmicrosec⟩ := h.timed
  have heq := h.seconds_eq
  constructor <;> rw [abs_lt] <;> omega

theorem Valid.dayOf_seconds (h : Valid dt) : dayOf dt.seconds = h.toDay := by
  have ⟨hhour, hminute, hsecond, hmicrosec⟩ := h.timed
  have hepoch : Day.epoch.ordinal = 719469 := by decide
  rw [dayOf, Day.zpow_next_eq_iff, hepoch, h.seconds_eq]
  omega

/-- A time whose parts are those of the date is read as the date. -/
theorem Valid.ofTimeValue_seconds (h : Valid dt) (hg : Gregorian gmtime) :
    ofTimeValue gmtime ⟨dt.seconds, dt.microsec⟩ = .ok dt := by
  have ⟨hhour, hminute, hsecond, hmicrosec⟩ := h.timed
  have heq := h.seconds_eq
  unfold ofTimeValue
  dsimp only
  rw [hg _ (by rw [h.dayOf_seconds]; exact h.inYears), h.dayOf_seconds]
  dsimp only
  have hhour' : dt.seconds % 86400 / 3600 = dt.hour := by omega
  have hminute' : dt.seconds % 3600 / 60 = dt.minute := by omega
  have hsecond' : dt.seconds % 60 = dt.second := by omega
  rw [sub_add_cancel, sub_add_cancel, hhour', hminute', hsecond']
  have hnew := new_eq h.timed (show InYears h.toDay.year from h.inYears)
  rwa [h.on_toDay] at hnew

/-- Negative microseconds are out of range. -/
theorem ofTimeValue_of_neg {tv : TimeValue} (h : tv.usec < 0) : ofTimeValue gmtime tv ≠ .ok dt := by
  intro hok
  unfold ofTimeValue at hok
  split at hok
  · have hrange := (checked_ok_iff.mp hok).1.2.2.microsec.1
    dsimp only at hrange
    omega
  · cases hok

/-- **Round trip.**  A date is got back from its time unless it is before 1970 and has microseconds. -/
theorem round_trip_iff (h : Valid dt) (hg : Gregorian gmtime) (hn : Normalises timeValue) :
    ofTimeValue gmtime (dt.toTimeValue timeValue) = .ok dt ↔ Day.epoch ≤ h.toDay ∨ dt.microsec = 0 := by
  have ⟨hhour, hminute, hsecond, hmicrosec⟩ := h.timed
  obtain ⟨hsec, husec⟩ := h.seconds_small
  have heq := h.seconds_eq
  have hinstant := hn.instant _ _ hsec husec
  have husec' := abs_lt.mp (hn.usec_lt _ _ hsec husec)
  have hsign := hn.same_sign _ _ hsec husec
  have hepoch : Day.epoch ≤ h.toDay ↔ 0 ≤ dt.seconds := by
    have hordinal : Day.epoch.ordinal = 719469 := by decide
    rw [← Day.ordinal_le_iff, hordinal]
    omega
  have htime : dt.toTimeValue timeValue = timeValue dt.seconds dt.microsec := rfl
  rw [hepoch, htime]
  generalize timeValue dt.seconds dt.microsec = tv at hinstant husec' hsign ⊢
  obtain ⟨sec, usec⟩ := tv
  unfold TimeValue.instant at hinstant
  dsimp only at hinstant husec' hsign
  constructor
  · intro hok
    by_contra hbefore
    -- the microseconds come out negative
    have hneg : usec < 0 := by omega
    exact ofTimeValue_of_neg hneg hok
  · intro hafter
    obtain ⟨rfl, rfl⟩ : sec = dt.seconds ∧ usec = dt.microsec := by omega
    exact h.ofTimeValue_seconds hg

/-- A constructor of `ACE_Time_Value`: the seconds are what is left of the time, cut off towards zero. -/
def truncated (sec usec : ℤ) : TimeValue :=
  ⟨(sec * 10 ^ 6 + usec).tdiv (10 ^ 6), (sec * 10 ^ 6 + usec).tmod (10 ^ 6)⟩

theorem normalises_truncated : Normalises truncated where
  instant sec usec _ _ := by
    unfold TimeValue.instant truncated
    exact Int.tdiv_mul_add_tmod _ _
  usec_lt sec usec _ _ := by
    have hpos : (0 : ℤ) < 10 ^ 6 := by decide
    exact abs_lt.mpr ⟨Int.lt_tmod_of_pos _ hpos, Int.tmod_lt_of_pos _ hpos⟩
  same_sign sec usec _ _ := by
    unfold truncated
    dsimp only
    generalize sec * 10 ^ 6 + usec = t
    rcases le_or_gt 0 t with ht | ht
    · have hsec := Int.tdiv_nonneg ht (show (0 : ℤ) ≤ 10 ^ 6 by decide)
      have husec := Int.tmod_nonneg (10 ^ 6) ht
      omega
    · have hsec := tdiv_nonpos (show (0 : ℤ) < 10 ^ 6 by decide) (ht.trans (by decide))
      have husec := Int.tmod_nonneg (10 ^ 6) (show 0 ≤ -t by omega)
      rw [Int.neg_tmod] at husec
      omega

/-- The Gregorian calendar, as a `gmtime`. -/
noncomputable def calendar (t : ℤ) : Option Tm :=
  some ⟨(dayOf t).day, (dayOf t).month - 1, (dayOf t).year - 1900, t % 86400 / 3600, t % 3600 / 60, t % 60⟩

theorem gregorian_calendar : Gregorian calendar := fun _ _ => rfl

theorem round_trip_leapDay : ofTimeValue calendar (leapDay.toTimeValue truncated) = .ok leapDay ↔
    Day.epoch ≤ leapDay_valid.toDay ∨ (123456 : ℤ) = 0 :=
  round_trip_iff leapDay_valid gregorian_calendar normalises_truncated

/-- Half a second before the year 1970. -/
def newYearsEve : DateTime := ⟨31, 12, 1969, 23, 59, 59, 500000, 3⟩

theorem newYearsEve_valid : Valid newYearsEve := ⟨by decide, by decide⟩

/-- Its time is minus half a second, which is no date. -/
theorem round_trip_newYearsEve : ¬ ∀ (gmtime : ℤ → Option Tm) (timeValue : ℤ → ℤ → TimeValue), Gregorian gmtime →
    Normalises timeValue → ∀ dt, Valid dt → ofTimeValue gmtime (dt.toTimeValue timeValue) = .ok dt := by
  intro hall
  have htime : newYearsEve.toTimeValue truncated = ⟨0, -500000⟩ := by decide
  have hok := hall calendar truncated gregorian_calendar normalises_truncated newYearsEve newYearsEve_valid
  rw [htime] at hok
  exact ofTimeValue_of_neg (by decide) hok

/-! ## The order -/

theorem compareLoop_lt_zero {xs ys : List ℤ} (h : xs.length = ys.length) : compareLoop (xs.zip ys) < 0 ↔ xs < ys := by
  induction xs generalizing ys with
  | nil =>
    obtain rfl : ys = [] := List.length_eq_zero_iff.mp h.symm
    simp [compareLoop]
  | cons x xs ih =>
    obtain _ | ⟨y, ys⟩ := ys
    · simp at h
    · rw [List.zip_cons_cons, compareLoop, List.cons_lt_cons_iff, ← ih (Nat.succ_injective h)]
      rcases lt_trichotomy x y with hxy | rfl | hxy
      · simp [hxy]
      · simp
      · simp [hxy, hxy.not_gt, hxy.ne']

theorem compareLoop_swap {xs ys : List ℤ} (h : xs.length = ys.length) :
    compareLoop (ys.zip xs) = -compareLoop (xs.zip ys) := by
  induction xs generalizing ys with
  | nil =>
    obtain rfl : ys = [] := List.length_eq_zero_iff.mp h.symm
    rfl
  | cons x xs ih =>
    obtain _ | ⟨y, ys⟩ := ys
    · simp at h
    · rw [List.zip_cons_cons, List.zip_cons_cons, compareLoop, compareLoop, ih (Nat.succ_injective h)]
      rcases lt_trichotomy x y with hxy | rfl | hxy
      · simp [hxy, hxy.not_gt]
      · simp
      · simp [hxy, hxy.not_gt]

/-- `compare_to` goes by the first field that differs. -/
theorem compareTo_lt_zero : a.compareTo b < 0 ↔ a.compared < b.compared := compareLoop_lt_zero rfl

theorem compareTo_swap : b.compareTo a = -a.compareTo b := compareLoop_swap rfl

theorem Valid.compared_lt_iff (ha : Valid a) (hb : Valid b) : a.compared < b.compared ↔
    a.seconds * 10 ^ 6 + a.microsec < b.seconds * 10 ^ 6 + b.microsec := by
  have hlt : ha.toDay.ordinal < hb.toDay.ordinal ↔ _ := Day.ordinal_lt_iff.trans Day.lt_iff
  have heq : ha.toDay.ordinal = hb.toDay.ordinal ↔ _ := Day.ordinal_inj.trans Day.ext_iff
  have ⟨hhour, hminute, hsecond, hmicrosec⟩ := ha.timed
  have ⟨hhour', hminute', hsecond', hmicrosec'⟩ := hb.timed
  have hsec := ha.seconds_eq
  have hsec' := hb.seconds_eq
  have hyear : ha.toDay.year = a.year ∧ hb.toDay.year = b.year := ⟨rfl, rfl⟩
  have hmonth : ha.toDay.month = a.month ∧ hb.toDay.month = b.month := ⟨rfl, rfl⟩
  have hday : ha.toDay.day = a.day ∧ hb.toDay.day = b.day := ⟨rfl, rfl⟩
  rw [hyear.1, hyear.2, hmonth.1, hmonth.2, hday.1, hday.2] at hlt heq
  unfold compared
  simp only [List.cons_lt_cons_iff, List.not_lt_nil, and_false, or_false]
  omega

theorem Valid.instant_eq (h : Valid dt) (hn : Normalises timeValue) :
    (dt.toTimeValue timeValue).instant = dt.seconds * 10 ^ 6 + dt.microsec :=
  hn.instant _ _ h.seconds_small.1 h.seconds_small.2

/-- **Order.**  `compare_to` says which of two times is the earlier one. -/
theorem compare_instants (ha : Valid a) (hb : Valid b) (hn : Normalises timeValue) :
    (a.compareTo b).sign = ((a.toTimeValue timeValue).instant - (b.toTimeValue timeValue).instant).sign := by
  have hlt : a.compareTo b < 0 ↔ _ := compareTo_lt_zero.trans (ha.compared_lt_iff hb)
  have hgt : b.compareTo a < 0 ↔ _ := compareTo_lt_zero.trans (hb.compared_lt_iff ha)
  rw [compareTo_swap] at hgt
  rw [← ha.instant_eq hn, ← hb.instant_eq hn] at hlt hgt
  rcases lt_trichotomy (a.toTimeValue timeValue).instant (b.toTimeValue timeValue).instant with h | h | h
  · rw [Int.sign_eq_neg_one_of_neg (hlt.mpr h), Int.sign_eq_neg_one_of_neg (by omega)]
  · have hzero : a.compareTo b = 0 := by omega
    rw [hzero, h, sub_self]
  · have hpos : 0 < a.compareTo b := by omega
    rw [Int.sign_eq_one_of_pos hpos, Int.sign_eq_one_of_pos (by omega)]

/-- The leap day and the eve of 1970. -/
theorem compare_instants_leapDay : (leapDay.compareTo newYearsEve).sign =
    ((leapDay.toTimeValue truncated).instant - (newYearsEve.toTimeValue truncated).instant).sign :=
  compare_instants leapDay_valid newYearsEve_valid normalises_truncated

end DateTime

end Lasagne.Daf
