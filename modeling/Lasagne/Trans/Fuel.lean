import Mathlib.Order.Lattice

/-!
# Lasagne.Trans.Fuel — computations on fuel

A computation that need not end is run on fuel, and has no result where the fuel is used up.  In a steady one more fuel
changes no result, so there is one result at most.
-/

namespace Lasagne.Trans

variable {α : Type*} {run : ℕ → Option α} {fuel fuel' : ℕ} {r r' : α}

/-- What `run` has come to it comes to with more fuel too. -/
def Steady (run : ℕ → Option α) : Prop :=
  ∀ fuel fuel' : ℕ, fuel ≤ fuel' → ∀ r, run fuel = some r → run fuel' = some r

namespace Steady

/-- It is enough to look at one unit more. -/
theorem of_succ (h : ∀ fuel r, run fuel = some r → run (fuel + 1) = some r) : Steady run := by
  intro fuel fuel' hle r hr
  induction hle with
  | refl => exact hr
  | step _ ih => exact h _ r ih

theorem unique (h : Steady run) (hr : run fuel = some r) (hr' : run fuel' = some r') : r = r' := by
  have hmax := h fuel (max fuel fuel') (le_max_left _ _) r hr
  have hmax' := h fuel' (max fuel fuel') (le_max_right _ _) r' hr'
  exact Option.some.inj (hmax.symm.trans hmax')

end Steady

end Lasagne.Trans
