import Mathlib

/-!
# Lasagne.Daf.Semaphore — `DAF::Semaphore`, by its lock-protected sections

`Semaphore::acquire` is a loop of sections under the semaphore's own lock: the first one takes a
permit or blocks in the condition, and every return of the condition wait runs another one.  Each
section is a function here; who runs them and when is left to the machines that use them.
-/

namespace Lasagne.Daf

/-! ## `int`s -/

/-- What is left of `i` in an `int`: two's complement, 32 bits. -/
def asInt (i : ℤ) : ℤ := Int.bmod i (2 ^ 32)

theorem asInt_eq_iff {i : ℤ} : asInt i = i ↔ -2 ^ 31 ≤ i ∧ i < 2 ^ 31 := by
  unfold asInt Int.bmod
  dsimp only
  split <;> omega

theorem asInt_mem (i : ℤ) : -2 ^ 31 ≤ asInt i ∧ asInt i < 2 ^ 31 := by
  unfold asInt Int.bmod
  dsimp only
  split <;> omega

@[simp] theorem asInt_asInt (i : ℤ) : asInt (asInt i) = asInt i := asInt_eq_iff.mpr (asInt_mem i)

theorem asInt_le {i : ℤ} (h : -2 ^ 31 ≤ i) : asInt i ≤ i := by
  unfold asInt Int.bmod
  dsimp only
  split <;> omega

/-- The sum of two `int`s that is too large comes out below zero. -/
theorem asInt_neg {i : ℤ} (h : 2 ^ 31 ≤ i) (hlt : i < 2 ^ 32) : asInt i < 0 := by
  unfold asInt Int.bmod
  dsimp only
  split <;> omega

/-- `int(n)` for a `size_t` value `n`. -/
def toInt (n : ℕ) : ℤ := Int.bmod n (2 ^ 32)

theorem toInt_lt (n : ℕ) : toInt n < 2 ^ 31 := by
  unfold toInt Int.bmod
  dsimp only
  split <;> omega

theorem toInt_le (n : ℕ) : toInt n ≤ n := by
  unfold toInt Int.bmod
  dsimp only
  split <;> omega

theorem toInt_eq_iff {n : ℕ} : toInt n = n ↔ n < 2 ^ 31 := by
  unfold toInt Int.bmod
  dsimp only
  split <;> omega

/-- `size_t(i)`: of an `int`, or of a difference of two `size_t` values. -/
def toSize (i : ℤ) : ℕ := (i % 2 ^ 64).toNat

theorem toSize_toInt {n : ℕ} (h : n < 2 ^ 31) : toSize (toInt n) = n := by
  rw [toInt_eq_iff.mpr h, toSize]
  omega

/-! ## The semaphore -/

/-- How a condition wait returns: `0` (signalled, or woken for no reason) or `-1` with `ETIME`. -/
inductive WaitResult where
  | woken
  | timedOut
deriving DecidableEq, Repr

/-- The semaphore's own state: `permits_` and the number of threads blocked in its condition. -/
structure Semaphore where
  permits_ : ℤ
  waiters : ℕ
deriving DecidableEq, Repr

/-- How a section of `acquire` ends. -/
inductive Acquire where
  /-- `return 0`, with a permit -/
  | acquired
  /-- blocked in the condition -/
  | blocked
  /-- the condition returned but no permit is free: round the loop again -/
  | retry
  /-- `return -1` -/
  | failed
deriving DecidableEq, Repr

namespace Semaphore

/-- The section that `acquire` starts a round of its loop with: a permit is taken only where there
are more of them than waiters. -/
def acquire (g : Semaphore) : Semaphore × Acquire :=
  if g.permits_ > g.waiters then ({ g with permits_ := g.permits_ - 1 }, .acquired)
  else ({ g with waiters := g.waiters + 1 }, .blocked)

/-- The section that runs when the condition wait of `acquire` returns `r`. -/
def resume (g : Semaphore) (r : WaitResult) : Semaphore × Acquire :=
  let g' := { g with waiters := g.waiters - 1 }
  match r with
  | .timedOut =>
    if g'.permits_ > 0 then ({ g' with permits_ := g'.permits_ - 1 }, .acquired) else (g', .failed)
  | .woken =>
    if g'.permits_ > 0 then ({ g' with permits_ := g'.permits_ - 1 }, .acquired) else (g', .retry)

/-- `release(permits)`: one permit and one signal at a time, nothing for `permits ≤ 0`.  `permits_` is an `int`, and
`++permits_` at the greatest one is taken to wrap. -/
def release (g : Semaphore) (permits : ℤ) : Semaphore :=
  if permits > 0 then { g with permits_ := asInt (g.permits_ + permits) } else g

@[simp] theorem release_waiters (g : Semaphore) (n : ℤ) : (g.release n).waiters = g.waiters := by
  unfold release
  split <;> rfl

/-- As long as they are an `int`, the permits are those there were and those released. -/
theorem release_permits {g : Semaphore} {n : ℤ} (hlow : -2 ^ 31 ≤ g.permits_) (h : g.permits_ + n.toNat < 2 ^ 31) :
    (g.release n).permits_ = g.permits_ + n.toNat := by
  unfold release
  split
  · show asInt (g.permits_ + n) = _
    rw [asInt_eq_iff.mpr (by omega)]
    omega
  · show g.permits_ = _
    omega

theorem release_one {g : Semaphore} (hlow : -2 ^ 31 ≤ g.permits_) (h : g.permits_ + 1 < 2 ^ 31) :
    (g.release 1).permits_ = g.permits_ + 1 := release_permits hlow h

/-- And never more than that. -/
theorem release_permits_le {g : Semaphore} (hlow : -2 ^ 31 ≤ g.permits_) (n : ℤ) :
    (g.release n).permits_ ≤ g.permits_ + n.toNat := by
  unfold release
  split
  · show asInt (g.permits_ + n) ≤ _
    have hle := asInt_le (i := g.permits_ + n) (by omega)
    omega
  · omega

theorem release_isInt {g : Semaphore} (h : asInt g.permits_ = g.permits_) (n : ℤ) :
    asInt (g.release n).permits_ = (g.release n).permits_ := by
  unfold release
  split
  · exact asInt_asInt _
  · exact h

/-- One `int` more than there is room for. -/
theorem release_permits_neg {g : Semaphore} {n : ℤ} (hg : g.permits_ < 2 ^ 31) (hn : n < 2 ^ 31)
    (h : 2 ^ 31 ≤ g.permits_ + n.toNat) : (g.release n).permits_ < 0 := by
  have hpos : n > 0 := by omega
  unfold release
  rw [if_pos hpos]
  exact asInt_neg (by omega) (by omega)

/-- A section of `acquire` takes exactly one permit, a free one, or none. -/
def Took (g g' : Semaphore) (r : Acquire) : Prop :=
  (r = .acquired ∧ 0 < g.permits_ ∧ g'.permits_ = g.permits_ - 1) ∨
  (r ≠ .acquired ∧ g'.permits_ = g.permits_)

theorem acquire_took (g : Semaphore) : Took g g.acquire.1 g.acquire.2 := by
  unfold Took acquire
  split_ifs with h
  · exact Or.inl ⟨rfl, by omega, rfl⟩
  · exact Or.inr ⟨by simp, rfl⟩

theorem resume_took (g : Semaphore) (r : WaitResult) : Took g (g.resume r).1 (g.resume r).2 := by
  unfold Took resume
  cases r <;> dsimp only <;> split_ifs with h
  · exact Or.inl ⟨rfl, h, rfl⟩
  · exact Or.inr ⟨by simp, rfl⟩
  · exact Or.inl ⟨rfl, h, rfl⟩
  · exact Or.inr ⟨by simp, rfl⟩

/-- The first section of a round. -/
theorem acquire_cases (g : Semaphore) :
    (g.permits_ > g.waiters ∧ g.acquire = ({ g with permits_ := g.permits_ - 1 }, .acquired)) ∨
      (g.permits_ ≤ g.waiters ∧ g.acquire = ({ g with waiters := g.waiters + 1 }, .blocked)) := by
  unfold acquire
  split_ifs with h
  · exact Or.inl ⟨h, rfl⟩
  · exact Or.inr ⟨by omega, rfl⟩

/-- The section after a wait. -/
theorem resume_cases (g : Semaphore) (r : WaitResult) :
    (0 < g.permits_ ∧ g.resume r = (⟨g.permits_ - 1, g.waiters - 1⟩, .acquired)) ∨
      (g.permits_ ≤ 0 ∧ g.resume r = (⟨g.permits_, g.waiters - 1⟩,
        match r with
        | .woken => .retry
        | .timedOut => .failed)) := by
  unfold resume
  cases r <;> dsimp only <;> split_ifs with h
  · exact Or.inl ⟨h, rfl⟩
  · exact Or.inr ⟨by omega, rfl⟩
  · exact Or.inl ⟨h, rfl⟩
  · exact Or.inr ⟨by omega, rfl⟩

end Semaphore

end Lasagne.Daf
