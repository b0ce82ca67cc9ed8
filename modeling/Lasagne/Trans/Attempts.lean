import Mathlib.Data.List.Basic

/-!
# Lasagne.Trans.Attempts — calls of foreign code, one after the other

A call comes back with what it is to be counted as, and with the state that it leaves.  The calls of a list are made in its
order, and all of them whatever becomes of the ones before.
-/

namespace Lasagne.Trans

/-- What a call of foreign code comes to: it returns 0, or something else, or it throws. -/
inductive Outcome
  | ok
  | failed
  | threw
  deriving DecidableEq, Repr

variable {α σ : Type*}

/-- What the calls came to, and the state after them. -/
def attempts (call : α → σ → Outcome × σ) : List α → σ → List (α × Outcome) × σ
  | [], s => ([], s)
  | a :: as, s =>
    let (outcome, s) := call a s
    let (made, s) := attempts call as s
    ((a, outcome) :: made, s)

/-- The number of calls that did not come to 0. -/
def failures (made : List (α × Outcome)) : ℕ := made.countP (·.2 ≠ .ok)

/-- What the calls were made on that came to 0. -/
def successes (made : List (α × Outcome)) : List α := (made.filter (·.2 = .ok)).map Prod.fst

variable {call : α → σ → Outcome × σ} {a : α} {as : List α} {s : σ}

theorem attempts_cons : attempts call (a :: as) s =
    ((a, (call a s).1) :: (attempts call as (call a s).2).1, (attempts call as (call a s).2).2) := rfl

/-- Every call is made once, in order. -/
@[simp]
theorem map_fst_attempts (call : α → σ → Outcome × σ) (as : List α) (s : σ) :
    (attempts call as s).1.map Prod.fst = as := by
  induction as generalizing s with
  | nil => rfl
  | cons a as ih => rw [attempts_cons, List.map_cons, ih]

@[simp]
theorem failures_nil : failures ([] : List (α × Outcome)) = 0 := rfl

theorem failures_cons (x : α × Outcome) (made : List (α × Outcome)) :
    failures (x :: made) = failures made + if x.2 = .ok then 0 else 1 := by
  unfold failures
  rw [List.countP_cons]
  by_cases h : x.2 = .ok <;> simp [h]

theorem successes_cons (x : α × Outcome) (made : List (α × Outcome)) :
    successes (x :: made) = if x.2 = .ok then x.1 :: successes made else successes made := by
  unfold successes
  by_cases h : x.2 = .ok <;> simp [h]

end Lasagne.Trans
