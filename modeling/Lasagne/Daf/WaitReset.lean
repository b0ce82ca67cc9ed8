import Lasagne.Daf.Rendezvous

/-!
# Lasagne.Daf.WaitReset — which cycle a `waitReset` breaks

`Barrier::waitReset` and `Rendezvous::waitReset` read `synch_` on entry and stop waiting once it has
changed.  A wait that times out does not look: it sets `broken_` in whatever cycle it finds.

* `waitReset_breaks_own_iff`: each timed-out call breaks the cycle it waited for, and an idle object is not left
  broken, exactly when no reset came in between; where the account is kept exact, there is a thread in that cycle.
-/

namespace Lasagne.Daf

open Lasagne.Trans

section WaitReset

variable {ι T Ω : Type*} [Fintype ι] [DecidableEq ι] {parties : ℕ}

/-- **`waitReset`.**  Every timed-out call finds the cycle it read, which was entered, and no object with
`count_ = 0` is broken, exactly when every timed-out call finds `synch_` as it read it; for a rendezvous, unless its
functor throws in a party of one.  Where nobody enters a broken cycle and no command throws in a party of one, there is
a thread in that cycle. -/
theorem waitReset_breaks_own_iff :
    (∀ (cmd : Option (Command Ω)) (π : _) (s : World ι Unit Barrier),
      Run (Barrier.machine cmd parties) π s →
      (Meets (Barrier.party cmd).breaksEntered π ∧ (s.obj.count_ = 0 → s.obj.broken_ = false) ↔
        Meets (fun s a => (Barrier.party cmd).sameCycle s a) π) ∧
      (Meets (fun s a => (Barrier.party cmd).unbroken s a) π →
        (Party.aborts (events π) = 0 ∨ 2 ≤ parties) →
        (Meets (Barrier.party cmd).breaksOwn π ↔ Meets (fun s a => (Barrier.party cmd).sameCycle s a) π))) ∧
    (∀ (fn : RendezvousCommand T Ω) (π : _) (s : World ι T (Rendezvous T)),
      Run (Rendezvous.machine fn parties) π s →
      (Party.aborts (events π) = 0 ∨ 2 ≤ parties) →
      (Meets (Rendezvous.party fn).breaksEntered π ∧ (s.obj.count_ = 0 → s.obj.broken_ = false) ↔
        Meets (fun s a => (Rendezvous.party fn).sameCycle s a) π) ∧
      (Meets (fun s a => (Rendezvous.party fn).unbroken s a) π →
        (Meets (Rendezvous.party fn).breaksOwn π ↔
          Meets (fun s a => (Rendezvous.party fn).sameCycle s a) π))) := by
  constructor
  · intro cmd π s hr
    refine ⟨⟨fun h => h.1.mono fun _ _ => Party.sameCycle_of_breaksEntered, fun hsc => ?_⟩, fun hub hth =>
      ⟨fun h => h.mono fun _ _ => Party.sameCycle_of_breaksOwn, fun hsc => ?_⟩⟩
    · exact Party.run_breaksEntered (o := Core.new parties) (Barrier.lawful cmd) (Barrier.vacates cmd)
        (Nat.zero_le 1) rfl rfl hr hsc (Or.inl (Nat.zero_mul _))
    · exact Party.run_breaksOwn (o := Core.new parties) (Barrier.lawful cmd) (Barrier.vacates cmd)
        (Nat.zero_le 1) rfl rfl hr hub hsc hth
  · intro fn π s hr hth
    refine ⟨⟨fun h => h.1.mono fun _ _ => Party.sameCycle_of_breaksEntered, fun hsc => ?_⟩, fun hub =>
      ⟨fun h => h.mono fun _ _ => Party.sameCycle_of_breaksOwn, fun hsc => ?_⟩⟩
    · exact Party.run_breaksEntered (o := Rendezvous.init parties) (Rendezvous.lawful fn) (Rendezvous.vacates fn)
        le_rfl rfl rfl hr hsc (hth.imp_left fun h => by rw [h])
    · exact Party.run_breaksOwn (o := Rendezvous.init parties) (Rendezvous.lawful fn) (Rendezvous.vacates fn)
        le_rfl rfl rfl hr hub hsc hth

/-- Thread 0 is inside, and the `waitReset` of thread 2 times out; thread 0 leaves, and the object is idle again. -/
theorem waitReset_breaks_own_iff_two :
    (∃ (π : _) (s : World (Fin 3) Unit Barrier), Run (Barrier.machine (none : Option (Command Unit)) 2) π s ∧
      .waitedReset 2 (some false) ∈ events π ∧ s.obj.count_ = 0 ∧
      Meets (Barrier.party (none : Option (Command Unit))).breaksOwn π ∧ s.obj.broken_ = false) ∧
    ∃ (π : _) (s : World (Fin 3) ℕ (Rendezvous ℕ)),
      Run (Rendezvous.machine (fun (_ : Unit) v => .ok (rotator v)) 2) π s ∧
      .waitedReset 2 (some false) ∈ events π ∧ s.obj.count_ = 0 ∧
      Meets (Rendezvous.party (fun (_ : Unit) v => .ok (rotator v))).breaksOwn π ∧ s.obj.broken_ = false := by
  constructor
  · obtain ⟨π, s, hr, hp⟩ := exists_run_of_replay (M := Barrier.machine (none : Option (Command Unit)) 2)
      (p := fun π s => decide ((.waitedReset 2 (some false) : Event (Fin 3) Unit ℤ) ∈ events π ∧ s.obj.count_ = 0 ∧
        Meets (fun s (a : Act (Fin 3) Unit Unit) => (Barrier.party none).unbroken s a) π ∧
        Meets (fun s (a : Act (Fin 3) Unit Unit) => (Barrier.party none).sameCycle s a) π))
      [.call (0 : Fin 3) false (), .acquire 0, .enter 0 false (), .waitReset 2, .wakeReset 2 .timedOut,
        .wake 0 false ()] (by decide)
    obtain ⟨hret, h0, hub, hsc⟩ := of_decide_eq_true hp
    obtain ⟨hentered, hown⟩ := (waitReset_breaks_own_iff (T := ℕ)).1 none π s hr
    exact ⟨π, s, hr, hret, h0, (hown hub (Or.inr (by decide))).mpr hsc, (hentered.mpr hsc).2 h0⟩
  · obtain ⟨π, s, hr, hp⟩ := exists_run_of_replay
      (M := Rendezvous.machine (T := ℕ) (fun (_ : Unit) v => .ok (rotator v)) 2)
      (p := fun π s => decide ((.waitedReset 2 (some false) : Event (Fin 3) ℕ ℕ) ∈ events π ∧ s.obj.count_ = 0 ∧
        Meets (fun s (a : Act (Fin 3) ℕ Unit) =>
          (Rendezvous.party (fun (_ : Unit) v => .ok (rotator v))).unbroken s a) π ∧
        Meets (fun s (a : Act (Fin 3) ℕ Unit) =>
          (Rendezvous.party (fun (_ : Unit) v => .ok (rotator v))).sameCycle s a) π))
      [.call (0 : Fin 3) false 10, .acquire 0, .enter 0 false (), .waitReset 2, .wakeReset 2 .timedOut,
        .wake 0 false ()] (by decide)
    obtain ⟨hret, h0, hub, hsc⟩ := of_decide_eq_true hp
    obtain ⟨hentered, hown⟩ := (waitReset_breaks_own_iff (Ω := Unit)).2 _ π s hr (Or.inr (by decide))
    exact ⟨π, s, hr, hret, h0, (hown hub).mpr hsc, (hentered.mpr hsc).2 h0⟩

/-- Both parties have left when the `waitReset` of thread 2 times out; the object is idle and broken. -/
theorem waitReset_breaks_idle_two :
    (¬ ∀ (π : _) (s : World (Fin 3) Unit Barrier),
      Run (Barrier.machine (none : Option (Command Unit)) 2) π s →
      Meets (Barrier.party (none : Option (Command Unit))).breaksOwn π ∧
        (s.obj.count_ = 0 → s.obj.broken_ = false)) ∧
    (¬ ∀ (π : _) (s : World (Fin 3) ℕ (Rendezvous ℕ)),
      Run (Rendezvous.machine (fun (_ : Unit) v => .ok (rotator v)) 2) π s →
      Meets (Rendezvous.party (fun (_ : Unit) v => .ok (rotator v))).breaksOwn π ∧
        (s.obj.count_ = 0 → s.obj.broken_ = false)) := by
  constructor
  · intro h
    obtain ⟨π, s, hr, hp⟩ := exists_run_of_replay
      (M := Barrier.machine (none : Option (Command Unit)) 2)
      (p := fun _ s => decide (s.obj.count_ = 0 ∧ s.obj.broken_ = true))
      [.call (0 : Fin 3) false (), .call 1 false (), .acquire 0, .acquire 1, .enter 0 false (),
        .waitReset 2, .enter 1 false (), .wake 0 false (), .wakeReset 2 .timedOut] (by decide)
    obtain ⟨h0, hb⟩ := of_decide_eq_true hp
    rw [(h π s hr).2 h0] at hb
    cases hb
  · intro h
    obtain ⟨π, s, hr, hp⟩ := exists_run_of_replay
      (M := Rendezvous.machine (T := ℕ) (fun (_ : Unit) v => .ok (rotator v)) 2)
      (p := fun _ s => decide (s.obj.count_ = 0 ∧ s.obj.broken_ = true))
      [.call (0 : Fin 3) false 10, .call 1 false 20, .acquire 0, .acquire 1, .enter 0 false (),
        .waitReset 2, .enter 1 false (), .wake 0 false (), .wakeReset 2 .timedOut] (by decide)
    obtain ⟨h0, hb⟩ := of_decide_eq_true hp
    rw [(h π s hr).2 h0] at hb
    cases hb

end WaitReset

end Lasagne.Daf
