import Mathlib.Logic.Relation
import Mathlib.Data.Set.Finite.Basic
import Mathlib.Order.WellFounded
import Mathlib.Data.Fintype.EquivFin
import Mathlib.Data.Fintype.Card

/-!
# Lasagne.Trans.Acyclic — descents that end, and the cycles that keep them from it

A relation `R a b` is read as "`a` leads to `b`".  Every descent from `a` ends exactly when no node that `a` leads to
leads back to itself, as long as the nodes fall into stages that are finite and are never gone back to.
-/

namespace Lasagne.Trans

open Relation

variable {α σ : Type*} {R : α → α → Prop}

/-- `a` leads to a node that leads back to itself. -/
def Circular (R : α → α → Prop) (a : α) : Prop := ∃ b, ReflTransGen R a b ∧ TransGen R b b

/-- Every descent from `a` ends. -/
abbrev Descends (R : α → α → Prop) (a : α) : Prop := Acc (fun b a => R a b) a

theorem Circular.of_step {a b : α} (h : R a b) (hb : Circular R b) : Circular R a := by
  obtain ⟨c, hbc, hc⟩ := hb
  exact ⟨c, hbc.head h, hc⟩

theorem Descends.not_circular {a : α} (h : Descends R a) : ¬ Circular R a := by
  induction h with
  | intro a _ ih =>
    rintro ⟨b, hab, hb⟩
    obtain rfl | ⟨c, hac, hcb⟩ := hab.cases_head
    · -- the cycle goes through `a` itself, and so through its first successor
      obtain ⟨c, hac, hca⟩ := TransGen.head'_iff.mp hb
      exact ih c hac ⟨a, hca, hb⟩
    · exact ih c hac ⟨b, hcb, hb⟩

/-- Within one stage there is nowhere to go for ever without coming back, and stages are only ever gone down. -/
theorem descends_of_not_circular (stage : α → σ) (rank : σ → ℕ)
    (hstage : ∀ a b, R a b → stage b = stage a ∨ rank (stage b) < rank (stage a))
    (hfinite : ∀ s, {a | stage a = s ∧ ∃ b, R a b}.Finite) {a : α} (h : ¬ Circular R a) : Descends R a := by
  induction hn : rank (stage a) using Nat.strong_induction_on generalizing a with
  | _ n ih =>
    -- the nodes of this stage that have a successor and lead to no cycle
    let S : Set α := {b | (stage b = stage a ∧ ∃ c, R b c) ∧ ¬ Circular R b}
    have hS : S.Finite := (hfinite (stage a)).subset fun b hb => hb.1
    have : Finite S := hS
    let below : S → S → Prop := fun c b => TransGen R b.1 c.1
    have : IsTrans S below := ⟨fun _ _ _ hcb hba => hba.trans hcb⟩
    have : Std.Irrefl below := ⟨fun b hb => b.2.2 ⟨b.1, .refl, hb⟩⟩
    have hwf : WellFounded below := Finite.wellFounded_of_trans_of_irrefl below
    have hdescends : ∀ b : S, Descends R b.1 := by
      intro b
      induction b using hwf.induction with
      | _ b ihb =>
        refine Acc.intro b.1 fun c hbc => ?_
        have hc : ¬ Circular R c := fun hc => b.2.2 (hc.of_step hbc)
        rcases hstage b.1 c hbc with hcb | hcb
        · by_cases hnext : ∃ d, R c d
          · exact ihb ⟨c, ⟨hcb.trans b.2.1.1, hnext⟩, hc⟩ (TransGen.single hbc)
          · exact Acc.intro c fun d hcd => absurd ⟨d, hcd⟩ hnext
        · rw [b.2.1.1, hn] at hcb
          exact ih (rank (stage c)) hcb hc rfl
    by_cases hnext : ∃ c, R a c
    · exact hdescends ⟨a, ⟨rfl, hnext⟩, h⟩
    · exact Acc.intro a fun c hac => absurd ⟨c, hac⟩ hnext

end Lasagne.Trans
