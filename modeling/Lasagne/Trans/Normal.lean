import Mathlib.Logic.Relation
import Mathlib.Order.WellFounded

/-!
# Lasagne.Trans.Normal — steps until none can be made

What a relation leads to in the end.  Where it always comes to an end, and no choice between two steps matters for long,
there is exactly one such thing.
-/

namespace Lasagne.Trans

open Relation

variable {α : Type*} {r : α → α → Prop} {a b c : α}

/-- No step can be made. -/
def Settled (r : α → α → Prop) (a : α) : Prop := ∀ b, ¬ r a b

/-- `a` leads to `b`, and no further. -/
structure Ends (r : α → α → Prop) (a b : α) : Prop where
  reach : ReflTransGen r a b
  settled : Settled r b

/-- Two steps from one place can be brought together again, one of them with one step at most. -/
def Meet (r : α → α → Prop) : Prop :=
  ∀ a b c, r a b → r a c → ∃ d, ReflGen r b d ∧ ReflTransGen r c d

theorem Settled.eq (h : Settled r a) (hab : ReflTransGen r a b) : b = a := by
  cases hab.cases_head with
  | inl heq => exact heq.symm
  | inr hstep =>
    obtain ⟨c, hac, -⟩ := hstep
    exact absurd hac (h c)

namespace Ends

theorem refl (h : Settled r a) : Ends r a a := ⟨ReflTransGen.refl, h⟩

theorem head (hab : r a b) (h : Ends r b c) : Ends r a c := ⟨ReflTransGen.head hab h.reach, h.settled⟩

/-- With a measure that goes down, everything comes to an end. -/
theorem exists_of_measure (μ : α → ℕ) (hμ : ∀ a b, r a b → μ b < μ a) (a : α) : ∃ b, Ends r a b := by
  induction hn : μ a using Nat.strong_induction_on generalizing a with
  | _ n ih =>
    by_cases h : Settled r a
    · exact ⟨a, refl h⟩
    · obtain ⟨b, hab⟩ : ∃ b, r a b := by simpa [Settled] using h
      obtain ⟨c, hc⟩ := ih (μ b) (hn ▸ hμ a b hab) b rfl
      exact ⟨c, head hab hc⟩

theorem unique (hmeet : Meet r) (hb : Ends r a b) (hc : Ends r a c) : b = c := by
  obtain ⟨d, hbd, hcd⟩ := church_rosser hmeet hb.reach hc.reach
  rw [← hb.settled.eq hbd, ← hc.settled.eq hcd]

end Ends

end Lasagne.Trans
