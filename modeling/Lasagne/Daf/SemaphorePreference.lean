import Lasagne.Daf.SemaphoreRuns

/-!
# Lasagne.Daf.SemaphorePreference — waiters before newcomers

A thread that was signalled holds no permit until it has the lock again, and others may get the lock before it.  The
test `permits() > waiters()` counts it as a waiter until then, so nobody else takes the permit it was signalled for.

* `preference_iff`: without time limits, interruption and wakeups for no reason, there is a permit for everybody that
  has a signal, as long as the permits are an `int`.
-/

namespace Lasagne.Daf.Semaphore

open Lasagne.Trans

section Preference

variable {ι : Type*} [DecidableEq ι] [Fintype ι] {s s' : World ι} {a : Act ι} {es : List Event}

/-- `acquire()` without a time limit, no `interrupt()`, and nobody returns from the condition without a signal. -/
def Undisturbed (s : World ι) : Act ι → Prop
  | .acquire _ timed => timed = false
  | .wake p _ => (s.pc p).isSignalled = true
  | .interrupt => False
  | _ => True

instance (s : World ι) (a : Act ι) : Decidable (Undisturbed s a) :=
  match a with
  | .acquire _ timed => instDecidableEqBool timed false
  | .wake p _ => instDecidableEqBool (s.pc p).isSignalled true
  | .interrupt => isFalse not_false
  | .run _ | .noGuard _ | .release _ _ => isTrue trivial

omit [DecidableEq ι] [Fintype ι] in
theorem Undisturbed.noInterrupt (h : Undisturbed s a) : a.noInterrupt = true := by
  cases a <;> first | rfl | exact h.elim

/-- There is a permit for everybody that has a signal. -/
structure Covered (s : World ι) : Prop extends Wakeful s where
  promised : pending s ≤ s.sem.permits_

namespace Covered

variable {p : ι} {x : Pc}

omit [DecidableEq ι] in
theorem pending_le (h : Wakeful s) : pending s ≤ s.sem.waiters := by
  rw [h.waiters]
  refine Finset.card_le_card fun q hq => ?_
  obtain ⟨-, hq⟩ := Finset.mem_filter.mp hq
  refine Finset.mem_filter.mpr ⟨Finset.mem_univ q, ?_⟩
  cases hp : s.pc q <;> rw [hp] at hq <;> first | rfl | cases hq

theorem pending_one (hpc : s'.pc = Function.update s.pc p x) :
    pending s' + (s.pc p).isSignalled.toNat = pending s + x.isSignalled.toNat := by
  unfold pending
  rw [hpc]
  exact count_update Pc.isSignalled s.pc p x

/-- A newcomer leaves as many permits as there are waiters. -/
theorem lock (h : Covered s) {timed : Bool} {c : ℕ} (hp : s.pc p = .lock timed c)
    (he : (s', es) = ends s p timed c s.sem.acquire) : pending s' ≤ s'.sem.permits_ := by
  obtain ⟨hsem, -, -, x, hpc, hx⟩ := of_ends he
  have hone := pending_one hpc
  rw [hp] at hone
  have hle := pending_le h.toWakeful
  have hpromised := h.promised
  rcases s.sem.acquire_cases with ⟨hlt, hr⟩ | ⟨-, hr⟩ <;> rw [hr] at hsem hx
  · obtain ⟨rfl, -⟩ : x = .idle ∧ _ := by simpa using hx
    have hsame : pending s' = pending s := hone
    rw [hsem]
    dsimp only
    omega
  · obtain ⟨rfl, -⟩ : x = .waiting timed c false ∧ _ := by simpa using hx
    have hsame : pending s' = pending s := hone
    rw [hsem, hsame]
    exact hpromised

/-- Who has a signal finds a permit. -/
theorem wake (h : Covered s) {timed : Bool} {c : ℕ} {r : WaitResult} (hb : (s.pc p).isSignalled = true)
    (he : (s', es) = ends s p timed c (s.sem.resume r)) :
    es = [.acquired c] ∧ s'.pc p = .idle ∧ pending s' ≤ s'.sem.permits_ := by
  have hpos : 0 < pending s := count_pos (i := p) hb
  have hpromised := h.promised
  obtain ⟨hsem, -, -, x, hpc, hx⟩ := of_ends he
  have hone := pending_one hpc
  rcases s.sem.resume_cases r with ⟨-, hr⟩ | ⟨hle, -⟩
  · rw [hr] at hsem hx
    obtain ⟨rfl, rfl⟩ : x = .idle ∧ es = [.acquired c] := by simpa using hx
    rw [hb] at hone
    have hless : pending s' + 1 = pending s := hone
    refine ⟨rfl, by rw [hpc, Function.update_self], ?_⟩
    rw [hsem]
    dsimp only
    omega
  · omega

theorem move (h : Covered s) (hint : asInt s.sem.permits_ = s.sem.permits_) (hm : Move s s' a es)
    (ha : Undisturbed s a) (hfit : Fits s a) : Covered s' := by
  refine ⟨h.toWakeful.move hint hm ha.noInterrupt, ?_⟩
  have hpromised := h.promised
  have houtside : ∀ {q y}, s'.pc = Function.update s.pc q y → s'.sem = s.sem → (s.pc q).isSignalled = false →
      y.isSignalled = false → pending s' ≤ s'.sem.permits_ := by
    intro q y hpc hsem hq hy
    have hone := pending_one hpc
    rw [hq, hy] at hone
    have hsame : pending s' = pending s := hone
    rw [hsem, hsame]
    exact hpromised
  cases hm with
  | @start p timed hp hs' =>
    rw [hs'] at houtside ⊢
    exact houtside (q := p) rfl rfl (by rw [hp]; rfl) rfl
  | @top p timed c hp hs' =>
    rw [hs'] at houtside ⊢
    exact houtside (q := p) rfl rfl (by rw [hp]; rfl) rfl
  | @throws _ p timed c e hp hs' =>
    rw [hs'] at houtside ⊢
    exact houtside (q := p) rfl rfl (by rcases hp with hp | hp <;> rw [hp] <;> rfl) rfl
  | interrupted _ hi =>
    rw [h.calm] at hi
    cases hi
  | lock hp he => exact h.lock hp he
  | wake _ he => exact (h.wake ha he).2.2
  | release _ hw hs' =>
    have hpc := congrArg World.pc hs'
    obtain ⟨hmore, hlen⟩ := pending_release hw hpc
    have hperm := congrArg (fun t : World ι => t.sem.permits_) hs'
    dsimp only at hperm
    rw [release_permits (asInt_eq_iff.mp hint).1 hfit] at hperm
    omega
  | interrupt => exact ha.elim

end Covered

variable {initial : ℤ} {π : List (Taken (World ι) (Act ι) Event)}

theorem run_covered (h0 : 0 ≤ initial) (hint : asInt initial = initial) (hr : Run (machine initial) π s)
    (hC : Meets Undisturbed π) (hfit : Meets Fits π) : Covered s := by
  induction hr with
  | start =>
    have hnone : pending (machine (ι := ι) initial).init = 0 := count_eq_zero.mpr fun _ => rfl
    refine ⟨⟨(count_eq_zero.mpr fun _ => rfl).symm, rfl, fun _ => ?_⟩, ?_⟩
    · simp [machine]
    · rw [hnone]
      show 0 ≤ asInt initial
      rwa [hint]
  | snoc hr hstep ih =>
    obtain ⟨hπ, ha⟩ := meets_snoc.mp hC
    obtain ⟨hfits, hfit⟩ := meets_snoc.mp hfit
    exact (ih hπ hfits).move (run_isInt hr) (step_move hstep) ha hfit

/-- The step of a thread that has a signal. -/
theorem step_wake {p : ι} {r : WaitResult} (hs : step s (.wake p r) = some (s', es))
    (hb : (s.pc p).isSignalled = true) (hcalm : s.interrupted_ = false) :
    ∃ timed c, s.pc p = .waiting timed c true ∧ (s', es) = ends s p timed c (s.sem.resume r) := by
  simp only [step] at hs
  split at hs
  · next timed c b hp =>
    obtain rfl : b = true := by rw [hp] at hb; exact hb
    split_ifs at hs
    rw [woke, hcalm, if_neg Bool.false_ne_true] at hs
    exact ⟨timed, c, hp, (Option.some.inj hs).symm⟩
  · cases hs

/-- The step of a thread that takes a permit without waiting. -/
theorem step_acquired {p : ι} {c : ℕ} (hs : step s (.run p) = some (s', es)) (hc : .acquired c ∈ es) :
    ∃ timed, s.pc p = .lock timed c ∧ s.sem.waiters < s.sem.permits_ ∧
      s' = { s with sem := { s.sem with permits_ := s.sem.permits_ - 1 } }.goto p .idle := by
  simp only [step] at hs
  split at hs
  · split_ifs at hs <;> obtain ⟨-, rfl⟩ := by simpa using hs
    · simp at hc
    · simp at hc
  · next timed d hp =>
    unfold locked at hs
    split_ifs at hs
    · obtain ⟨-, rfl⟩ := by simpa using hs
      simp at hc
    · rcases s.sem.acquire_cases with ⟨hlt, hr⟩ | ⟨-, hr⟩ <;> rw [hr] at hs <;>
        obtain ⟨rfl, rfl⟩ := by simpa [ends] using hs
      · obtain rfl : c = d := by simpa using hc
        exact ⟨timed, hp, hlt, rfl⟩
      · simp at hc
  · cases hs

/-- There is a permit for everybody that has a signal: who resumes from one has a permit at once and is done, and who
takes one without having waited for it leaves one for each of the others. -/
structure Preferred (s : World ι) : Prop where
  promised : pending s ≤ s.sem.permits_
  resumes : ∀ p r s' es, step s (.wake p r) = some (s', es) → (s.pc p).isSignalled = true →
    ∃ c, (s.pc p).call = some c ∧ es = [.acquired c] ∧ s'.pc p = .idle
  enters : ∀ p c s' es, step s (.run p) = some (s', es) → .acquired c ∈ es →
    s'.sem.permits_ = s.sem.permits_ - 1 ∧ pending s ≤ s'.sem.permits_ ∧
      ∀ q, (s.pc q).isSignalled = true → s'.pc q = s.pc q

theorem Covered.preferred (h : Covered s) : Preferred s := by
  refine ⟨h.promised, ?_, ?_⟩
  · intro p r s' es hs hsignal
    obtain ⟨timed, c, hp, he⟩ := step_wake hs hsignal h.calm
    obtain ⟨hes, hidle, -⟩ := h.wake hsignal he
    exact ⟨c, by rw [hp]; rfl, hes, hidle⟩
  · intro p c s' es hs hc
    obtain ⟨timed, hp, hlt, rfl⟩ := step_acquired hs hc
    have hle := Covered.pending_le h.toWakeful
    refine ⟨rfl, ?_, fun q hq => ?_⟩
    · show (pending s : ℤ) ≤ s.sem.permits_ - 1
      omega
    · refine Function.update_of_ne ?_ _ _
      rintro rfl
      rw [hp] at hq
      cases hq

/-- **Waiter preference.**  All along a run without time limits, interruption and wakeups for no reason, there is a
permit for everybody that has a signal: exactly if no `release` takes the permits beyond an `int`. -/
theorem preference_iff (h0 : 0 ≤ initial) (hint : asInt initial = initial) (hr : Run (machine initial) π s)
    (hC : Meets Undisturbed π) :
    (∀ ρ t, ρ <+: π → Run (machine initial) ρ t → Preferred t) ↔ Meets Fits π := by
  constructor
  · intro h x hx
    by_contra hover
    obtain ⟨ρ, hρ, hpre⟩ := hr.pre_run hx
    obtain ⟨ρ₁, ρ₂, rfl⟩ := List.append_of_mem hx
    obtain ⟨t, ht⟩ := hr.split
    obtain ⟨-, hstep⟩ := ht.snoc_inv
    have hneg := (step_neg hstep (run_isInt hpre) hover).1
    have hpromised := (h _ t ⟨ρ₂, by simp⟩ ht).promised
    omega
  · rintro hfit ρ t ⟨ρ', rfl⟩ hrun
    exact (run_covered h0 hint hrun (fun x hx => hC x (List.mem_append_left _ hx))
      fun x hx => hfit x (List.mem_append_left _ hx)).preferred

/-- Two threads wait and are given a permit each.  A third one comes in between and waits, and one of the two has
resumed. -/
theorem preference_iff_three :
    ∃ (π : _) (s : World (Fin 3)), Run (machine 0) π s ∧ pending s = 1 ∧ Preferred s := by
  obtain ⟨π, s, hr, hp⟩ := exists_run_of_replay (M := machine 0)
    (p := fun (π : List (Taken (World (Fin 3)) (Act (Fin 3)) Event)) s =>
      decide (pending s = 1 ∧ Meets Undisturbed π ∧ Meets Fits π))
    [.acquire 0 false, .run 0, .run 0, .acquire 1 false, .run 1, .run 1, .release 2 [0, 1], .acquire 2 false, .run 2,
      .run 2, .wake 1 .woken] (by decide)
  obtain ⟨hone, hC, hfit⟩ := of_decide_eq_true hp
  exact ⟨π, s, hr, hone, (preference_iff le_rfl (by decide) hr hC).mpr hfit π s (List.prefix_refl π) hr⟩

/-- Thread 0 waits, the greatest `int` of permits is released, and then one more: thread 0 has a signal, and there is
no permit for it. -/
theorem preference_fails_one :
    ¬ ∀ (π : _) (s : World (Fin 1)), Run (machine 0) π s → Meets Undisturbed π → Preferred s := by
  intro h
  obtain ⟨π, s, hr, hp⟩ := exists_run_of_replay (M := machine 0)
    (p := fun (π : List (Taken (World (Fin 1)) (Act (Fin 1)) Event)) s =>
      decide (s.sem.permits_ = -2 ^ 31 ∧ Meets Undisturbed π))
    [.acquire 0 false, .run 0, .run 0, .release (2 ^ 31 - 1) [0], .release 1 []] (by decide)
  obtain ⟨hperm, hC⟩ := of_decide_eq_true hp
  have hpromised := (h π s hr hC).promised
  rw [hperm] at hpromised
  have hpending : (0 : ℤ) ≤ pending s := Int.natCast_nonneg _
  omega

end Preference

end Lasagne.Daf.Semaphore
