import Mathlib.Data.List.Nodup
import Mathlib.Data.List.Perm.Basic

/-!
# Lasagne.Lang.Guards — functions that are a chain of guards

`if (k₁ == x) return v₁; … last`: the first key that the argument equals decides.

* `call_eq_result_iff` : what a call returns, by the first arm with the key;
* `call_of_mem`, `call_eq_last_iff` : the same where no key occurs twice, and the calls that no arm answers;
* `call_flip_iff` : a chain and the chain with keys and results exchanged are inverse to each other.
-/

namespace Lasagne.Lang

variable {κ ν β γ : Type*}

/-- The arms in order, and what the function comes to behind them. -/
structure Guards (κ β γ : Type*) where
  arms : List (κ × β)
  last : γ

/-- What a call comes to: the result of an arm, or the end of the chain. -/
inductive Answer (β γ : Type*)
  | result (b : β)
  | last (c : γ)
deriving DecidableEq

namespace Guards

section Call

variable [DecidableEq κ]

/-- A call of the function. -/
def call (g : Guards κ β γ) (x : κ) : Answer β γ :=
  match g.arms.lookup x with
  | some b => .result b
  | none => .last g.last

theorem call_eq_result_iff {g : Guards κ β γ} {x : κ} {b : β} :
    g.call x = .result b ↔ ∃ before behind, g.arms = before ++ (x, b) :: behind ∧ ∀ arm ∈ before, arm.1 ≠ x := by
  have hlookup : g.call x = .result b ↔ g.arms.lookup x = some b := by
    unfold call
    cases g.arms.lookup x <;> simp
  rw [hlookup, List.lookup_eq_some_iff]
  constructor
  · rintro ⟨before, behind, harms, hne⟩
    exact ⟨before, behind, harms, fun arm harm => (bne_iff_ne.mp (hne arm harm)).symm⟩
  · rintro ⟨before, behind, harms, hne⟩
    exact ⟨before, behind, harms, fun arm harm => bne_iff_ne.mpr (hne arm harm).symm⟩

theorem call_eq_last_iff {g : Guards κ β γ} {x : κ} :
    g.call x = .last g.last ↔ x ∉ g.arms.map Prod.fst := by
  have hlookup : g.call x = .last g.last ↔ g.arms.lookup x = none := by
    unfold call
    cases g.arms.lookup x <;> simp
  rw [hlookup, List.lookup_eq_none_iff]
  constructor
  · rintro h hx
    obtain ⟨arm, harm, rfl⟩ := List.mem_map.mp hx
    simpa using h arm harm
  · intro h arm harm
    simp only [bne_iff_ne, ne_eq]
    rintro rfl
    exact h (List.mem_map_of_mem harm)

theorem exists_call_iff {g : Guards κ β γ} {x : κ} : (∃ b, g.call x = .result b) ↔ x ∈ g.arms.map Prod.fst := by
  rw [← not_iff_not, ← call_eq_last_iff]
  unfold call
  cases g.arms.lookup x <;> simp

/-- Where no key occurs twice, every arm answers its own key. -/
theorem call_of_mem {g : Guards κ β γ} (hnodup : (g.arms.map Prod.fst).Nodup) {x : κ} {b : β}
    (hmem : (x, b) ∈ g.arms) : g.call x = .result b := by
  obtain ⟨before, behind, harms⟩ := List.append_of_mem hmem
  refine call_eq_result_iff.mpr ⟨before, behind, harms, ?_⟩
  rintro arm harm rfl
  rw [harms, List.map_append, List.map_cons] at hnodup
  exact List.disjoint_of_nodup_append hnodup (List.mem_map_of_mem harm) (List.mem_cons_self ..)

theorem mem_of_call {g : Guards κ β γ} {x : κ} {b : β} (h : g.call x = .result b) : (x, b) ∈ g.arms := by
  obtain ⟨before, behind, harms, -⟩ := call_eq_result_iff.mp h
  rw [harms]
  exact List.mem_append_right _ (List.mem_cons_self ..)

end Call

/-- The chain with the value that `f` gives a key in its place. -/
def mapKeys (f : κ → ν) (g : Guards κ β γ) : Guards ν β γ := ⟨g.arms.map fun arm => (f arm.1, arm.2), g.last⟩

/-- The chain with the value that `f` gives a result in its place. -/
def mapResults (f : β → ν) (g : Guards κ β γ) : Guards κ ν γ := ⟨g.arms.map fun arm => (arm.1, f arm.2), g.last⟩

/-- The chain with keys and results exchanged. -/
def flip (g : Guards κ β γ) (last : ν) : Guards β κ ν := ⟨g.arms.map Prod.swap, last⟩

@[simp] theorem keys_mapResults (f : β → ν) (g : Guards κ β γ) :
    (g.mapResults f).arms.map Prod.fst = g.arms.map Prod.fst := by
  simp [mapResults, Function.comp_def]

/-- A chain of distinct keys and distinct results and the chain the other way round undo each other. -/
theorem call_flip_iff [DecidableEq κ] [DecidableEq β] {g : Guards κ β γ} {last : ν}
    (hkeys : (g.arms.map Prod.fst).Nodup) (hresults : (g.arms.map Prod.snd).Nodup) {x : κ} {b : β} :
    (g.flip last).call b = .result x ↔ g.call x = .result b := by
  have hflip : ((g.flip last).arms.map Prod.fst).Nodup := by
    rwa [flip, List.map_map, show Prod.fst ∘ Prod.swap = (Prod.snd : κ × β → β) from rfl]
  have hmem : (b, x) ∈ (g.flip last).arms ↔ (x, b) ∈ g.arms := by
    simp [flip]
  exact ⟨fun h => call_of_mem hkeys (hmem.mp (mem_of_call h)), fun h => call_of_mem hflip (hmem.mpr (mem_of_call h))⟩

end Guards

end Lasagne.Lang
