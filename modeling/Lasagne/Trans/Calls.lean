import Mathlib.Data.List.Nodup
import Lasagne.Trans.Run

/-!
# Lasagne.Trans.Calls — numbered calls

The processes of a machine make calls, which are numbered in the order in which they start.  `call` says which
call a control point is in and `ends` which call an event ends.  `Numbered` says that a call has one process, and
ends once.
-/

namespace Lasagne.Trans

variable {ι κ ε : Type*} {call : κ → Option ℕ} {ends : ε → Option ℕ} {tr es : List ε} {pc : ι → κ}
  {n : ℕ}

/-- Every call has one process and ends at most once; `n` is the number of the next one. -/
structure Numbered (call : κ → Option ℕ) (ends : ε → Option ℕ) (tr : List ε) (pc : ι → κ) (n : ℕ) : Prop where
  inj : ∀ p q c, call (pc p) = some c → call (pc q) = some c → p = q
  lt : ∀ p c, call (pc p) = some c → c < n
  ended : ∀ e ∈ tr, ∀ c, ends e = some c → c < n ∧ ∀ p, call (pc p) ≠ some c
  once : (tr.filterMap ends).Nodup

namespace Numbered

theorem new (h : ∀ p, call (pc p) = none) : Numbered call ends [] pc 0 where
  inj p q c hp := by
    rw [h p] at hp
    cases hp
  lt p c hp := by
    rw [h p] at hp
    cases hp
  ended := nofun
  once := List.nodup_nil

/-- The event that ends a call is the only one. -/
theorem eq_of_ends (h : Numbered call ends tr pc n) {e e' : ε} (he : e ∈ tr) (he' : e' ∈ tr) {c : ℕ}
    (hc : ends e = some c) (hc' : ends e' = some c) : e = e' :=
  eq_of_nodup_filterMap h.once he he' hc hc'

/-- No call starts or ends. -/
theorem keep (h : Numbered call ends tr pc n) {pc' : ι → κ} (hpc : ∀ p, call (pc' p) = call (pc p))
    (hes : es.filterMap ends = []) : Numbered call ends (tr ++ es) pc' n where
  inj p q c hp hq := h.inj p q c (by rwa [← hpc]) (by rwa [← hpc])
  lt p c hp := h.lt p c (by rwa [← hpc])
  ended e he c hc := by
    rcases List.mem_append.mp he with he | he
    · obtain ⟨hlt, hno⟩ := h.ended e he c hc
      exact ⟨hlt, fun p => by rw [hpc]; exact hno p⟩
    · rw [List.filterMap_eq_nil_iff.mp hes e he] at hc
      cases hc
  once := by
    rw [List.filterMap_append, hes, List.append_nil]
    exact h.once

variable [DecidableEq ι] {p : ι} {x : κ}

/-- A process goes on in its call. -/
theorem goOn (h : Numbered call ends tr pc n) (hx : call x = call (pc p)) (hes : es.filterMap ends = []) :
    Numbered call ends (tr ++ es) (Function.update pc p x) n := by
  refine h.keep (fun q => ?_) hes
  by_cases hq : q = p
  · rw [hq, Function.update_self, hx]
  · rw [Function.update_of_ne hq]

/-- A call starts. -/
theorem start (h : Numbered call ends tr pc n) (hx : call x = some n) (hes : es.filterMap ends = []) :
    Numbered call ends (tr ++ es) (Function.update pc p x) (n + 1) := by
  have hcases : ∀ q c, call (Function.update pc p x q) = some c →
      (q = p ∧ c = n) ∨ (q ≠ p ∧ call (pc q) = some c ∧ c < n) := by
    intro q c hq
    by_cases hqp : q = p
    · rw [hqp, Function.update_self, hx] at hq
      exact Or.inl ⟨hqp, (Option.some.inj hq).symm⟩
    · rw [Function.update_of_ne hqp] at hq
      exact Or.inr ⟨hqp, hq, h.lt q c hq⟩
  refine ⟨?_, ?_, ?_, ?_⟩
  · intro q r c hq hr
    rcases hcases q c hq with ⟨rfl, rfl⟩ | ⟨-, hq, hlt⟩ <;> rcases hcases r c hr with ⟨rfl, hc⟩ | ⟨-, hr, hlt'⟩
    · rfl
    · omega
    · omega
    · exact h.inj q r c hq hr
  · intro q c hq
    rcases hcases q c hq with ⟨-, rfl⟩ | ⟨-, -, hlt⟩ <;> omega
  · intro e he c hc
    rcases List.mem_append.mp he with he | he
    · obtain ⟨hlt, hno⟩ := h.ended e he c hc
      refine ⟨by omega, fun q hq => ?_⟩
      rcases hcases q c hq with ⟨-, rfl⟩ | ⟨-, hq, -⟩
      · omega
      · exact hno q hq
    · rw [List.filterMap_eq_nil_iff.mp hes e he] at hc
      cases hc
  · rw [List.filterMap_append, hes, List.append_nil]
    exact h.once

/-- A call ends. -/
theorem finish (h : Numbered call ends tr pc n) {c : ℕ} (hp : call (pc p) = some c) (hx : call x = none)
    (hes : es.filterMap ends = [c]) : Numbered call ends (tr ++ es) (Function.update pc p x) n := by
  have hother : ∀ q d, call (Function.update pc p x q) = some d → q ≠ p ∧ call (pc q) = some d := by
    intro q d hq
    by_cases hqp : q = p
    · rw [hqp, Function.update_self, hx] at hq
      cases hq
    · rw [Function.update_of_ne hqp] at hq
      exact ⟨hqp, hq⟩
  refine ⟨?_, ?_, ?_, ?_⟩
  · exact fun q r d hq hr => h.inj q r d (hother q d hq).2 (hother r d hr).2
  · exact fun q d hq => h.lt q d (hother q d hq).2
  · intro e he d hd
    rcases List.mem_append.mp he with he | he
    · obtain ⟨hlt, hno⟩ := h.ended e he d hd
      exact ⟨hlt, fun q hq => hno q (hother q d hq).2⟩
    · have hdc : d ∈ es.filterMap ends := List.mem_filterMap.mpr ⟨e, he, hd⟩
      rw [hes] at hdc
      obtain rfl := List.mem_singleton.mp hdc
      refine ⟨h.lt p d hp, fun q hq => ?_⟩
      obtain ⟨hqp, hq⟩ := hother q d hq
      exact hqp (h.inj q p d hq hp)
  · rw [List.filterMap_append, hes, List.nodup_append]
    refine ⟨h.once, List.nodup_singleton c, ?_⟩
    rintro d hd _ hc rfl
    obtain rfl := List.mem_singleton.mp hc
    obtain ⟨e, he, hed⟩ := List.mem_filterMap.mp hd
    exact (h.ended e he d hed).2 p hp

end Numbered

end Lasagne.Trans
