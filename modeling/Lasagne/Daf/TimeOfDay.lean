import Mathlib

/-!
# Lasagne.Daf.TimeOfDay — `DAF_OS::gettimeofday(msec)`

Every timed call builds its deadline by it, and compares the clock with the deadline before it waits.  The offset has the
sign of `msec` and is taken off for a negative one, so the deadline is ahead by as much as it should be past.

* `usecs_gettimeofday` : the deadline, by the absolute value of `msec`;
* `timedLoop_gettimeofday` : how often a timed call waits that nothing happens to.
-/

namespace Lasagne.Daf

/-! ## The model -/

/-- `ACE_Time_Value`: an amount of microseconds, with operations that are exact. -/
structure TimeValues (τ : Type*) where
  usecs : τ → ℤ
  /-- `ACE_Time_Value(sec, usec)`, of any signs -/
  make : ℤ → ℤ → τ
  /-- `+=` -/
  add : τ → τ → τ
  /-- `-=` -/
  sub : τ → τ → τ
  /-- `a > b` -/
  gt : τ → τ → Bool
  usecs_make : ∀ sec usec, usecs (make sec usec) = sec * 1000000 + usec
  usecs_add : ∀ a b, usecs (add a b) = usecs a + usecs b
  usecs_sub : ∀ a b, usecs (sub a b) = usecs a - usecs b
  gt_iff : ∀ a b, gt a b = true ↔ usecs b < usecs a

variable {τ : Type*} (T : TimeValues τ)

/-- `DAF_OS::gettimeofday(msec)`, with `now` being the time of day.  `/` and `%` go towards zero. -/
def gettimeofday (now : τ) (msec : ℤ) : τ :=
  let c_time := now
  if msec ≠ 0 then
    let offset := T.make (msec.tdiv 1000) (msec.tmod 1000 * 1000)
    if msec > 0 then T.add c_time offset else T.sub c_time offset
  else c_time

/-- The loops of the timed calls while nothing happens that they wait for, with what the clock says each time: how often
they wait, and whether they give up. -/
def timedLoop (end_time : τ) : List τ → ℕ × Bool
  | [] => (0, false)
  | clock :: later =>
    if T.gt end_time clock then ((timedLoop end_time later).1 + 1, (timedLoop end_time later).2) else (0, true)

/-! ## Deadlines -/

variable {T} {now : τ} {msec : ℤ}

theorem usecs_gettimeofday : T.usecs (gettimeofday T now msec) = T.usecs now + |msec| * 1000 := by
  have hsplit : msec.tdiv 1000 * 1000 + msec.tmod 1000 = msec := Int.tdiv_mul_add_tmod msec 1000
  have hoffset : T.usecs (T.make (msec.tdiv 1000) (msec.tmod 1000 * 1000)) = msec * 1000 := by
    rw [T.usecs_make]
    omega
  unfold gettimeofday
  dsimp only
  split_ifs with hne hpos
  · rw [T.usecs_add, hoffset, abs_of_pos hpos]
  · rw [T.usecs_sub, hoffset, abs_of_nonpos (not_lt.mp hpos)]
    ring
  · rw [not_not.mp hne, abs_zero, zero_mul, add_zero]

/-- A loop waits for as long as the clock is before the deadline. -/
theorem timedLoop_eq (end_time : τ) (clocks : List τ) : timedLoop T end_time clocks =
    ((clocks.takeWhile fun clock => T.gt end_time clock).length, clocks.any fun clock => !T.gt end_time clock) := by
  induction clocks with
  | nil => rfl
  | cons clock later ih =>
    rw [timedLoop, ih]
    cases h : T.gt end_time clock with
    | true => simp [h]
    | false => simp [h]

/-- With a negative `msec` a timed call waits as long as with a positive one. -/
theorem timedLoop_gettimeofday (T : TimeValues τ) (now : τ) (msec : ℤ) (clocks : List τ) :
    timedLoop T (gettimeofday T now msec) clocks =
      ((clocks.takeWhile fun clock => T.usecs clock < T.usecs now + |msec| * 1000).length,
        clocks.any fun clock => T.usecs now + |msec| * 1000 ≤ T.usecs clock) := by
  have hgt : ∀ clock, T.gt (gettimeofday T now msec) clock = decide (T.usecs clock < T.usecs now + |msec| * 1000) := by
    intro clock
    rw [Bool.eq_iff_iff, T.gt_iff, usecs_gettimeofday, decide_eq_true_eq]
  have hnot : ∀ clock, (!decide (T.usecs clock < T.usecs now + |msec| * 1000)) =
      decide (T.usecs now + |msec| * 1000 ≤ T.usecs clock) := by
    intro clock
    rw [← decide_not, decide_eq_decide, not_lt]
  rw [timedLoop_eq]
  simp only [hgt, hnot]

/-- What the timed calls rely on: the deadline is that many milliseconds ahead, and one that is in the past is never waited
for. -/
structure Timely (T : TimeValues τ) (now : τ) (msec : ℤ) (end_time : τ) : Prop where
  usecs_eq : T.usecs end_time = T.usecs now + msec * 1000
  past : msec < 0 → T.gt end_time now = false ∧
    ∀ clock later, T.usecs now ≤ T.usecs clock → timedLoop T end_time (clock :: later) = (0, true)

/-- **Deadlines.**  The time of day and `msec` milliseconds is what is made of a `msec` that is not negative, and only of
such a one. -/
theorem gettimeofday_iff (T : TimeValues τ) (now : τ) (msec : ℤ) :
    Timely T now msec (gettimeofday T now msec) ↔ 0 ≤ msec := by
  have husecs : T.usecs (gettimeofday T now msec) = T.usecs now + |msec| * 1000 := usecs_gettimeofday
  constructor
  · rintro ⟨heq, -⟩
    have habs : |msec| = msec := by omega
    exact abs_eq_self.mp habs
  · intro h
    rw [abs_of_nonneg h] at husecs
    exact ⟨husecs, fun hneg => absurd hneg (not_lt.mpr h)⟩

/-- Microseconds as they are. -/
def micros : TimeValues ℤ where
  usecs := id
  make sec usec := sec * 1000000 + usec
  add := (· + ·)
  sub := (· - ·)
  gt a b := decide (b < a)
  usecs_make _ _ := rfl
  usecs_add _ _ := rfl
  usecs_sub _ _ := rfl
  gt_iff _ _ := decide_eq_true_iff

/-- A deadline of one second ago is one second ahead. -/
theorem gettimeofday_ahead : gettimeofday micros 1500000000000000 (-1000) = 1500000001000000 ∧
    ¬ Timely micros 1500000000000000 (-1000) (gettimeofday micros 1500000000000000 (-1000)) := by
  have hahead : gettimeofday micros 1500000000000000 (-1000) = 1500000001000000 := by decide
  refine ⟨hahead, fun h => ?_⟩
  rw [hahead] at h
  exact absurd h.usecs_eq (by decide)

end Lasagne.Daf
