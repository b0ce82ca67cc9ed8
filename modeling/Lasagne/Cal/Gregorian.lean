import Mathlib

/-!
# Lasagne.Cal.Gregorian — the proleptic Gregorian calendar

A day of the calendar is a year, any integer, a month and a day that the month has.  `next` goes from a day to the
one after it, and is a permutation, so the day that is `n` days after `d` is `(next ^ n) d`, for negative `n` too.

* `ordinal_next` : the days are numbered one after the other;
* `ordinal_lt_iff` : in the order of year, month and day;
* `weekday_zpow` : the days of the week follow each other, from 1 January 1970 on, which was a Thursday.
-/

namespace Lasagne.Cal

def IsLeap (year : ℤ) : Prop := year % 4 = 0 ∧ (year % 100 ≠ 0 ∨ year % 400 = 0)

instance (year : ℤ) : Decidable (IsLeap year) := inferInstanceAs (Decidable (_ ∧ _))

/-- How many days a month has. -/
def monthLength (year month : ℤ) : ℤ :=
  if month = 2 then if IsLeap year then 29 else 28
  else if month = 4 ∨ month = 6 ∨ month = 9 ∨ month = 11 then 30 else 31

theorem monthLength_pos (year month : ℤ) : 1 ≤ monthLength year month := by
  unfold monthLength
  split_ifs <;> omega

theorem monthLength_le (year month : ℤ) : monthLength year month ≤ 31 := by
  unfold monthLength
  split_ifs <;> omega

theorem monthLength_december (year : ℤ) : monthLength year 12 = 31 := rfl

/-- A day of the calendar. -/
@[ext]
structure Day where
  year : ℤ
  month : ℤ
  day : ℤ
  month_pos : 1 ≤ month
  month_le : month ≤ 12
  day_pos : 1 ≤ day
  day_le : day ≤ monthLength year month
deriving DecidableEq

namespace Day

variable {d e : Day}

/-! ## One day after the other -/

def tomorrow (d : Day) : Day :=
  if hday : d.day < monthLength d.year d.month then
    { d with day := d.day + 1, day_pos := by have := d.day_pos; omega, day_le := hday }
  else if hmonth : d.month < 12 then
    { year := d.year, month := d.month + 1, day := 1, month_pos := by have := d.month_pos; omega, month_le := hmonth,
      day_pos := le_rfl, day_le := monthLength_pos _ _ }
  else
    { year := d.year + 1, month := 1, day := 1, month_pos := le_rfl, month_le := by decide, day_pos := le_rfl,
      day_le := monthLength_pos _ _ }

def yesterday (d : Day) : Day :=
  if hday : 1 < d.day then
    { d with day := d.day - 1, day_pos := by omega, day_le := by have := d.day_le; omega }
  else if hmonth : 1 < d.month then
    { year := d.year, month := d.month - 1, day := monthLength d.year (d.month - 1), month_pos := by omega,
      month_le := by have := d.month_le; omega, day_pos := monthLength_pos _ _, day_le := le_rfl }
  else
    { year := d.year - 1, month := 12, day := 31, month_pos := by decide, month_le := le_rfl, day_pos := by decide,
      day_le := (monthLength_december _).ge }

theorem yesterday_tomorrow (d : Day) : d.tomorrow.yesterday = d := by
  obtain ⟨year, month, day, hmonth, hmonth', hday, hday'⟩ := d
  unfold tomorrow
  dsimp only
  split_ifs with h h'
  · have hback : 1 < day + 1 := by omega
    unfold yesterday
    ext <;> simp [hback]
  · obtain rfl : day = monthLength year month := by omega
    have hback : 1 < month + 1 := by omega
    unfold yesterday
    ext <;> simp [hback]
  · obtain rfl : month = 12 := by omega
    obtain rfl : day = 31 := by
      rw [monthLength_december] at h hday'
      omega
    unfold yesterday
    ext <;> simp

theorem tomorrow_yesterday (d : Day) : d.yesterday.tomorrow = d := by
  obtain ⟨year, month, day, hmonth, hmonth', hday, hday'⟩ := d
  unfold yesterday
  dsimp only
  split_ifs with h h'
  · have hahead : day - 1 < monthLength year month := by omega
    unfold tomorrow
    ext <;> simp [hahead]
  · obtain rfl : day = 1 := by omega
    have hahead : month - 1 < 12 := by omega
    unfold tomorrow
    ext <;> simp [hahead]
  · obtain rfl : day = 1 := by omega
    obtain rfl : month = 1 := by omega
    unfold tomorrow
    ext <;> simp [monthLength_december]

/-- The day after. -/
def next : Equiv.Perm Day where
  toFun := tomorrow
  invFun := yesterday
  left_inv := yesterday_tomorrow
  right_inv := tomorrow_yesterday

theorem next_apply (d : Day) : next d = d.tomorrow := rfl

/-! ## Numbers of days -/

/-- Years are counted from March on here, so that the leap day is the last one. -/
def marchYear (d : Day) : ℤ := if 2 < d.month then d.year else d.year - 1

def marchMonth (d : Day) : ℤ := if 2 < d.month then d.month - 3 else d.month + 9

/-- The number of a day; 1 March of the year 0 has the number 1. -/
def ordinal (d : Day) : ℤ :=
  365 * d.marchYear + d.marchYear / 4 - d.marchYear / 100 + d.marchYear / 400 + (153 * d.marchMonth + 2) / 5 + d.day

theorem ordinal_next (d : Day) : (next d).ordinal = d.ordinal + 1 := by
  obtain ⟨year, month, day, hmonth, hmonth', hday, hday'⟩ := d
  rw [next_apply, tomorrow]
  dsimp only
  split_ifs with h h'
  · unfold ordinal marchYear marchMonth
    dsimp only
    ring
  · obtain rfl : day = monthLength year month := by omega
    unfold ordinal marchYear marchMonth monthLength IsLeap
    dsimp only
    interval_cases month <;> norm_num <;> try split_ifs
    all_goals omega
  · obtain rfl : month = 12 := by omega
    obtain rfl : day = 31 := by
      rw [monthLength_december] at h hday'
      omega
    unfold ordinal marchYear marchMonth
    dsimp only
    norm_num
    ring

theorem ordinal_zpow (n : ℤ) (d : Day) : ((next ^ n) d).ordinal = d.ordinal + n := by
  induction n using Int.induction_on generalizing d with
  | zero => simp
  | succ i ih =>
    rw [zpow_add_one, Equiv.Perm.mul_apply, ih, ordinal_next]
    ring
  | pred i ih =>
    have hback : d.ordinal = (next⁻¹ d).ordinal + 1 := by
      rw [← ordinal_next, Equiv.Perm.inv_def, Equiv.apply_symm_apply]
    rw [zpow_sub_one, Equiv.Perm.mul_apply, ih, hback]
    ring

/-- A year that begins in March has 366 days if the next February has 29. -/
theorem dayOfMarchYear_le (d : Day) : (153 * d.marchMonth + 2) / 5 + d.day ≤ 366 ∧
    ((153 * d.marchMonth + 2) / 5 + d.day = 366 → IsLeap (d.marchYear + 1)) := by
  obtain ⟨year, month, day, hmonth, hmonth', hday, hday'⟩ := d
  unfold marchMonth marchYear
  dsimp only
  unfold monthLength at hday'
  interval_cases month <;> norm_num at hday' ⊢ <;> try omega
  split_ifs at hday' with hleap
  · exact ⟨by omega, fun _ => hleap⟩
  · exact ⟨by omega, by omega⟩

theorem marchYear_nonneg_iff {d : Day} : 0 ≤ d.marchYear ↔ 0 < d.ordinal := by
  have hle := (dayOfMarchYear_le d).1
  have hmonth : 0 ≤ d.marchMonth := by
    have := d.month_pos
    unfold marchMonth
    split <;> omega
  have hday := d.day_pos
  unfold ordinal
  omega

/-! ## The order of the days -/

instance : LinearOrder Day :=
  LinearOrder.lift' (fun d => toLex (d.year, toLex (d.month, d.day))) fun d e h => by
    have hd := toLex.injective h
    ext
    · exact congrArg Prod.fst hd
    · exact congrArg Prod.fst (toLex.injective (congrArg Prod.snd hd))
    · exact congrArg Prod.snd (toLex.injective (congrArg Prod.snd hd))

theorem lt_iff : d < e ↔
    d.year < e.year ∨ d.year = e.year ∧ (d.month < e.month ∨ d.month = e.month ∧ d.day < e.day) := by
  change toLex (d.year, toLex (d.month, d.day)) < toLex (e.year, toLex (e.month, e.day)) ↔ _
  rw [Prod.Lex.toLex_lt_toLex, Prod.Lex.toLex_lt_toLex]

/-- The number of the last day of the year before. -/
def yearEnd (year : ℤ) : ℤ := 365 * year + (year - 1) / 4 - (year - 1) / 100 + (year - 1) / 400 - 59

theorem yearEnd_add_one_le (year : ℤ) : yearEnd year + 365 ≤ yearEnd (year + 1) := by
  unfold yearEnd
  omega

theorem yearEnd_mono : Monotone yearEnd := by
  refine monotone_int_of_le_succ fun year => ?_
  have hstep := yearEnd_add_one_le year
  omega

theorem yearEnd_lt_ordinal (d : Day) : yearEnd d.year < d.ordinal := by
  obtain ⟨year, month, day, hmonth, hmonth', hday, hday'⟩ := d
  unfold yearEnd ordinal marchYear marchMonth
  dsimp only
  split_ifs <;> omega

theorem ordinal_le_yearEnd (d : Day) : d.ordinal ≤ yearEnd (d.year + 1) := by
  obtain ⟨year, month, day, hmonth, hmonth', hday, hday'⟩ := d
  have hle := hday'.trans (monthLength_le year month)
  unfold yearEnd ordinal marchYear marchMonth
  dsimp only
  split_ifs <;> omega

theorem year_le_iff {year : ℤ} : year ≤ d.year ↔ yearEnd year < d.ordinal := by
  constructor
  · exact fun h => (yearEnd_mono h).trans_lt (yearEnd_lt_ordinal d)
  · intro h
    by_contra hlt
    have hmono := yearEnd_mono (show d.year + 1 ≤ year by omega)
    have hle := ordinal_le_yearEnd d
    omega

/-- The days of a year are numbered from 1 to its last one. -/
theorem ordinal_sub_yearEnd_mem (d : Day) : 1 ≤ d.ordinal - yearEnd d.year ∧
    d.ordinal - yearEnd d.year ≤ if IsLeap d.year then 366 else 365 := by
  have hfirst := yearEnd_lt_ordinal d
  have hlast := ordinal_le_yearEnd d
  refine ⟨by omega, ?_⟩
  unfold yearEnd at *
  unfold IsLeap
  split_ifs <;> omega

theorem ordinal_lt_of_month_lt (hyear : d.year = e.year) (hmonth : d.month < e.month) : d.ordinal < e.ordinal := by
  obtain ⟨year, month, day, hpos, hle, hday, hday'⟩ := d
  obtain ⟨year', month', day', hpos', hle', hday₁, hday₁'⟩ := e
  dsimp only at hyear hmonth
  subst hyear
  unfold ordinal marchYear marchMonth
  dsimp only
  unfold monthLength IsLeap at hday'
  interval_cases month <;> norm_num at hday' ⊢ <;> split_ifs at hday' ⊢ <;> omega

theorem ordinal_lt_of_lt (h : d < e) : d.ordinal < e.ordinal := by
  rcases lt_iff.mp h with hyear | ⟨hyear, hmonth | ⟨hmonth, hday⟩⟩
  · calc d.ordinal ≤ yearEnd (d.year + 1) := ordinal_le_yearEnd d
      _ ≤ yearEnd e.year := yearEnd_mono hyear
      _ < e.ordinal := yearEnd_lt_ordinal e
  · exact ordinal_lt_of_month_lt hyear hmonth
  · unfold ordinal marchYear marchMonth
    rw [hyear, hmonth]
    omega

theorem ordinal_strictMono : StrictMono ordinal := fun _ _ => ordinal_lt_of_lt

theorem ordinal_lt_iff : d.ordinal < e.ordinal ↔ d < e := ordinal_strictMono.lt_iff_lt

theorem ordinal_le_iff : d.ordinal ≤ e.ordinal ↔ d ≤ e := ordinal_strictMono.le_iff_le

theorem ordinal_inj : d.ordinal = e.ordinal ↔ d = e := ordinal_strictMono.injective.eq_iff

/-- `e` is `n` days after `d`. -/
theorem zpow_next_eq_iff {n : ℤ} : (next ^ n) d = e ↔ d.ordinal + n = e.ordinal := by
  rw [← ordinal_inj, ordinal_zpow]

/-! ## The days of the week -/

/-- Sunday is `0`. -/
def weekday (d : Day) : ℤ := (d.ordinal + 2) % 7

/-- 1 January 1970. -/
def epoch : Day where
  year := 1970
  month := 1
  day := 1
  month_pos := by decide
  month_le := by decide
  day_pos := by decide
  day_le := by decide

example : epoch.weekday = 4 := by decide

theorem weekday_mem (d : Day) : 0 ≤ d.weekday ∧ d.weekday < 7 :=
  ⟨Int.emod_nonneg _ (by decide), Int.emod_lt_of_pos _ (by decide)⟩

theorem weekday_zpow (n : ℤ) (d : Day) : ((next ^ n) d).weekday = (d.weekday + n) % 7 := by
  unfold weekday
  rw [ordinal_zpow]
  omega

/-- The first day after `d` with a given day of the week. -/
theorem isLeast_weekday {w : ℤ} (hw : 0 ≤ w ∧ w < 7) :
    IsLeast {e : Day | d < e ∧ e.weekday = w} ((next ^ ((w - d.weekday - 1) % 7 + 1)) d) := by
  refine ⟨⟨?_, ?_⟩, fun e he => ?_⟩
  · rw [← ordinal_lt_iff, ordinal_zpow]
    omega
  · rw [weekday_zpow]
    omega
  · obtain ⟨hlt, hweekday⟩ := he
    rw [← ordinal_lt_iff] at hlt
    rw [← ordinal_le_iff, ordinal_zpow]
    unfold weekday at hweekday ⊢
    omega

/-- The last day before `d` with a given day of the week. -/
theorem isGreatest_weekday {w : ℤ} (hw : 0 ≤ w ∧ w < 7) :
    IsGreatest {e : Day | e < d ∧ e.weekday = w} ((next ^ (-((d.weekday - w - 1) % 7) - 1)) d) := by
  refine ⟨⟨?_, ?_⟩, fun e he => ?_⟩
  · rw [← ordinal_lt_iff, ordinal_zpow]
    omega
  · rw [weekday_zpow]
    omega
  · obtain ⟨hlt, hweekday⟩ := he
    rw [← ordinal_lt_iff] at hlt
    rw [← ordinal_le_iff, ordinal_zpow]
    unfold weekday at hweekday ⊢
    omega

end Day

end Lasagne.Cal
