import Mathlib.Data.List.Basic
import Mathlib.Data.List.Induction
import Mathlib.Data.List.Pairwise

/-!
# Lasagne.Trans.Run — guarded machines and their runs

A `Machine` is an executable step function that is `none` where an action is not enabled, and that
emits events.  `Run M π s` says that `M` can take the steps `π` and end in `s`; every step taken
keeps the state it started from, so that conditions on steps, on visited states and on emitted
events are all statements about `π`.  One definition serves proofs (`Run.inv`, and `Run.project` for a
machine that is part of another one) and replays of concrete schedules (`exists_run_of_replay`).
-/

namespace Lasagne.Trans

variable {σ α ε : Type*}

/-- A machine: `step s a` is `none` where `a` is not enabled in `s`, and else the state after the
step with the events it emits. -/
structure Machine (σ α ε : Type*) where
  init : σ
  step : σ → α → Option (σ × List ε)

/-- One step taken: the state before it, the action and the events emitted. -/
structure Taken (σ α ε : Type*) where
  pre : σ
  act : α
  out : List ε

/-- `M` can take the steps `π`, in order, and end in `s`. -/
inductive Run (M : Machine σ α ε) : List (Taken σ α ε) → σ → Prop
  | start : Run M [] M.init
  | snoc {π : List (Taken σ α ε)} {s s' : σ} {a : α} {es : List ε} :
      Run M π s → M.step s a = some (s', es) → Run M (π ++ [⟨s, a, es⟩]) s'

/-- The events emitted along `π`, in order. -/
def events (π : List (Taken σ α ε)) : List ε := π.flatMap Taken.out

/-- Every step of `π` satisfies `C`. -/
def Meets (C : σ → α → Prop) (π : List (Taken σ α ε)) : Prop := ∀ x ∈ π, C x.pre x.act

@[simp] theorem events_nil : events ([] : List (Taken σ α ε)) = [] := rfl

@[simp] theorem events_snoc (π : List (Taken σ α ε)) (x : Taken σ α ε) :
    events (π ++ [x]) = events π ++ x.out := by
  simp [events]

@[simp] theorem meets_nil (C : σ → α → Prop) : Meets (ε := ε) C [] := by
  simp [Meets]

@[simp] theorem meets_snoc {C : σ → α → Prop} {π : List (Taken σ α ε)} {x : Taken σ α ε} :
    Meets C (π ++ [x]) ↔ Meets C π ∧ C x.pre x.act := by
  simp [Meets, or_imp, forall_and]

instance {C : σ → α → Prop} [∀ s a, Decidable (C s a)] (π : List (Taken σ α ε)) :
    Decidable (Meets C π) :=
  inferInstanceAs (Decidable (∀ x ∈ π, C x.pre x.act))

theorem Meets.mono {C D : σ → α → Prop} {π : List (Taken σ α ε)} (h : Meets C π)
    (hCD : ∀ s a, C s a → D s a) : Meets D π :=
  fun x hx => hCD _ _ (h x hx)

/-- Where no key occurs twice, an event is determined by its key. -/
theorem eq_of_nodup_filterMap {κ : Type*} {key : ε → Option κ} {tr : List ε}
    (h : (tr.filterMap key).Nodup) {e e' : ε} (he : e ∈ tr) (he' : e' ∈ tr) {c : κ} (hc : key e = some c)
    (hc' : key e' = some c) : e = e' := by
  by_contra hne
  have hsymm : Std.Symm fun a a' : ε => ∀ b, key a = some b → ∀ b', key a' = some b' → b ≠ b' :=
    ⟨fun a a' haa' b hb b' hb' => (haa' b' hb' b hb).symm⟩
  exact (List.pairwise_filterMap.mp h).forall he he' hne c hc c hc' rfl

/-- Where a list and one more element are at the front of two others. -/
theorem prefix_snoc_append {l l₁ l₂ : List α} {x : α} (h : l ++ [x] <+: l₁ ++ l₂) :
    l ++ [x] <+: l₁ ∨ ∃ l', l' ++ [x] <+: l₂ ∧ l = l₁ ++ l' := by
  by_cases hlen : (l ++ [x]).length ≤ l₁.length
  · exact .inl (List.prefix_of_prefix_length_le h (List.prefix_append l₁ l₂) hlen)
  · have hle : l₁.length ≤ l.length := by
      rw [List.length_append, List.length_singleton] at hlen
      omega
    obtain ⟨l', rfl⟩ := List.prefix_of_prefix_length_le (List.prefix_append l₁ l₂)
      ((List.prefix_append l [x]).trans h) hle
    rw [List.append_assoc] at h
    exact .inr ⟨l', (List.prefix_append_right_inj l₁).mp h, rfl⟩

/-- The invariant rule: what holds at the start and is kept by every step that satisfies `C` holds
at the end of every run whose steps all satisfy `C`.  `P` may speak of the events emitted. -/
theorem Run.inv {M : Machine σ α ε} {C : σ → α → Prop} {P : List ε → σ → Prop}
    (h0 : P [] M.init)
    (hs : ∀ tr s a s' es, C s a → P tr s → M.step s a = some (s', es) → P (tr ++ es) s')
    {π : List (Taken σ α ε)} {s : σ} (hr : Run M π s) (hC : Meets C π) : P (events π) s := by
  induction hr with
  | start => exact h0
  | snoc _ hstep ih =>
    obtain ⟨hπ, ha⟩ := meets_snoc.mp hC
    rw [events_snoc]
    exact hs _ _ _ _ _ ha (ih hπ) hstep

/-- Every step of a run starts where a run ends. -/
theorem Run.pre_run {M : Machine σ α ε} {π : List (Taken σ α ε)} {s : σ} (hr : Run M π s)
    {x : Taken σ α ε} (hx : x ∈ π) : ∃ ρ, ρ <+: π ∧ Run M ρ x.pre := by
  induction hr with
  | start => simp at hx
  | @snoc π s s' a es hr hstep ih =>
    rcases List.mem_append.mp hx with hx | hx
    · obtain ⟨ρ, hρ, hrun⟩ := ih hx
      exact ⟨ρ, hρ.trans (List.prefix_append _ _), hrun⟩
    · obtain rfl := List.mem_singleton.mp hx
      exact ⟨π, List.prefix_append _ _, hr⟩

/-- The last step of a run. -/
theorem Run.snoc_inv {M : Machine σ α ε} {π : List (Taken σ α ε)} {x : Taken σ α ε} {s : σ}
    (hr : Run M (π ++ [x]) s) : Run M π x.pre ∧ M.step x.pre x.act = some (s, x.out) := by
  generalize hρ : π ++ [x] = ρ at hr
  cases hr with
  | start => simp at hρ
  | snoc hr hstep =>
    obtain ⟨rfl, hx⟩ := List.append_inj' hρ rfl
    obtain rfl := List.singleton_inj.mp hx
    exact ⟨hr, hstep⟩

/-- The steps taken determine where a run ends. -/
theorem Run.unique {M : Machine σ α ε} {π : List (Taken σ α ε)} {s s' : σ} (hr : Run M π s) (hr' : Run M π s') :
    s = s' := by
  cases hr with
  | start =>
    generalize hρ : ([] : List (Taken σ α ε)) = ρ at hr'
    cases hr' with
    | start => rfl
    | snoc => simp at hρ
  | snoc hr hstep =>
    obtain ⟨-, hstep'⟩ := hr'.snoc_inv
    rw [hstep] at hstep'
    exact congrArg Prod.fst (Option.some.inj hstep')

/-- A run up to one of its steps. -/
theorem Run.split {M : Machine σ α ε} {π : List (Taken σ α ε)} {x : Taken σ α ε} (ρ : List (Taken σ α ε))
    {s : σ} (hr : Run M (π ++ x :: ρ) s) : ∃ s', Run M (π ++ [x]) s' := by
  induction ρ using List.reverseRecOn generalizing s with
  | nil => exact ⟨s, hr⟩
  | append_singleton ρ y ih =>
    rw [← List.cons_append, ← List.append_assoc] at hr
    exact ih hr.snoc_inv.1

/-- The rule for parts: where every step of `M` is, in the part `f` of its state and the part `g` of its
events, a step of `N` or nothing, every run of `M` is a run of `N` there. -/
theorem Run.project {τ β δ : Type*} {M : Machine σ α ε} {N : Machine τ β δ} {f : σ → τ}
    {g : ε → Option δ} {C : σ → α → Prop} {D : τ → β → Prop} (h0 : f M.init = N.init)
    (hs : ∀ s a s' es, M.step s a = some (s', es) →
      (f s' = f s ∧ es.filterMap g = []) ∨
        ∃ b, N.step (f s) b = some (f s', es.filterMap g) ∧ (C s a → D (f s) b))
    {π : List (Taken σ α ε)} {s : σ} (hr : Run M π s) :
    ∃ ρ, Run N ρ (f s) ∧ events ρ = (events π).filterMap g ∧ (Meets C π → Meets D ρ) := by
  induction hr with
  | start => exact ⟨[], h0 ▸ Run.start, rfl, fun _ => meets_nil D⟩
  | @snoc π s s' a es hr hstep ih =>
    obtain ⟨ρ, hρ, hev, hD⟩ := ih
    rw [events_snoc, List.filterMap_append]
    rcases hs s a s' es hstep with ⟨hf, hnil⟩ | ⟨b, hb, hCD⟩
    · refine ⟨ρ, hf ▸ hρ, by rw [hnil, hev, List.append_nil], fun hC => ?_⟩
      exact hD (meets_snoc.mp hC).1
    · refine ⟨_, hρ.snoc hb, by rw [events_snoc, hev], fun hC => ?_⟩
      exact meets_snoc.mpr ⟨hD (meets_snoc.mp hC).1, hCD (meets_snoc.mp hC).2⟩

/-! ## Replays of concrete schedules -/

/-- Take the actions `as` from `s`, having taken `π`. -/
def Machine.replayFrom (M : Machine σ α ε) (π : List (Taken σ α ε)) (s : σ) :
    List α → Option (List (Taken σ α ε) × σ)
  | [] => some (π, s)
  | a :: as =>
    match M.step s a with
    | none => none
    | some (s', es) => M.replayFrom (π ++ [⟨s, a, es⟩]) s' as

/-- Take the actions `as` from the initial state. -/
def Machine.replay (M : Machine σ α ε) (as : List α) : Option (List (Taken σ α ε) × σ) :=
  M.replayFrom [] M.init as

theorem run_of_replayFrom {M : Machine σ α ε} :
    ∀ (as : List α) {π π' : List (Taken σ α ε)} {s s' : σ}, Run M π s →
      M.replayFrom π s as = some (π', s') → Run M π' s'
  | [], π, π', s, s', hr, h => by
    simp only [Machine.replayFrom, Option.some.injEq, Prod.mk.injEq] at h
    obtain ⟨rfl, rfl⟩ := h
    exact hr
  | a :: as, π, π', s, s', hr, h => by
    simp only [Machine.replayFrom] at h
    split at h
    · cases h
    · next t es hstep => exact run_of_replayFrom as (hr.snoc hstep) h

/-- A schedule that replays and ends as `p` says is a run that does. -/
theorem exists_run_of_replay {M : Machine σ α ε} {p : List (Taken σ α ε) → σ → Bool} (as : List α)
    (h : (M.replay as).any (fun r => p r.1 r.2) = true) : ∃ π s, Run M π s ∧ p π s = true := by
  cases hrep : M.replay as with
  | none => simp [hrep] at h
  | some r =>
    obtain ⟨π, s⟩ := r
    exact ⟨π, s, run_of_replayFrom as .start hrep, by simpa [hrep] using h⟩

/-- A list around two of its elements. -/
theorem eq_around {l : List α} {i k : ℕ} {x y : α} (hx : (l.drop i).head? = some x)
    (hy : ((l.drop (i + 1)).drop k).head? = some y) :
    l = l.take i ++ x :: ((l.drop (i + 1)).take k ++ y :: (l.drop (i + 1)).drop (k + 1)) := by
  have hcut : ∀ {m : List α} {j : ℕ} {z : α}, (m.drop j).head? = some z →
      m = m.take j ++ z :: m.drop (j + 1) := by
    intro m j z hz
    rw [List.head?_drop] at hz
    obtain ⟨hj, rfl⟩ := List.getElem?_eq_some_iff.mp hz
    rw [← List.drop_eq_getElem_cons hj, List.take_append_drop]
  rw [← hcut hy]
  exact hcut hx

end Lasagne.Trans
