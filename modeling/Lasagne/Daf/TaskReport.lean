import Lasagne.Daf.TaskOwner

/-!
# Lasagne.Daf.TaskReport — what a failed `execute` says of its command

`module_closed()` interrupts the channel, and a put that is on its way to its node throws when it gets there,
even if a worker has taken its command in between.  `execute` then returns `-1` for a command that is served.

* `execute_failed`: in every run in which no put throws so late, nobody owns or serves a command for which
  `execute` returned `-1`.
-/

namespace Lasagne.Daf.TaskExecutor

open Lasagne.Trans

variable {ι R : Type*} [DecidableEq ι] {s : World ι R}
  {π : List (Taken (World ι R) (Act ι R) (Event ι R))}

/-- The offer of `p` looks at the flag of the channel, which is set, and a worker has emptied its node. -/
def late (s : World ι R) : Act ι R → Bool
  | .channel p none => SynchronousChannel.robs s.taskChannel_ (.run p)
  | _ => false

omit [DecidableEq ι] in
theorem not_robs {a : Act ι R} {b : SynchronousChannel.Act ι (Ref R)} (hab : a.Does b)
    (ha : late s a = false) : SynchronousChannel.robs s.taskChannel_ b = false := by
  cases b with
  | run p =>
    obtain rfl : a = .channel p none := hab
    exact ha
  | put | take | wake | interrupt => rfl

omit [DecidableEq ι] in
/-- A command that is served has been owned. -/
theorem Holding.owns {tr : List (Event ι R)} (h : Holding tr s) {w : ι} {k : ℕ} {c : R}
    (hw : .svc w k c ∈ tr) : ∃ w', Owns tr s k w' := by
  obtain ⟨e, he, hk⟩ := List.mem_filterMap.mp (h.served k (List.mem_filterMap.mpr ⟨_, hw, rfl⟩))
  rcases Event.of_gained hk with ⟨w', rfl⟩ | ⟨w', d, n, c', rfl⟩
  · exact ⟨w', Or.inl he⟩
  · exact ⟨w', Or.inr (Or.inl ⟨d, n, c', he⟩)⟩

/-- **Failure.**  In every run in which no offer throws after a worker has taken its command, nobody owns or has
served a command for which `execute` returned `-1`. -/
theorem execute_failed (hr : Run machine π s) (hC : Meets (fun s a => late s a = false) π) (k : ℕ)
    (hret : .returned k (-1) ∈ events π) :
    (∀ w, ¬ Owns (events π) s k w) ∧ ∀ w c, .svc w k c ∉ events π := by
  obtain ⟨stage, hA⟩ := run_account hr
  obtain ⟨ρ, hρ, hev, hD⟩ := run_part (C := fun s a => late s a = false)
    (D := fun s b => SynchronousChannel.robs s b = false) (fun _ _ _ => not_robs) hr
  obtain ⟨life, hS, -⟩ := SynchronousChannel.run_story hρ
  have hk := SynchronousChannel.run_kept hρ (hD hC)
  rw [hev] at hS hk
  have hno : ∀ w, ¬ Owns (events π) s k w := fun w =>
    hA.not_owns hS (fun c n d v => hS.failed hk) hret
  refine ⟨hno, fun w c hw => ?_⟩
  obtain ⟨w', hw'⟩ := (run_holding hr).owns hw
  exact hno w' hw'

/-- The executor is closed while thread 0 waits at its node: nobody has taken its command. -/
theorem execute_failed_two :
    ∃ (π : _) (s : World (Fin 2) ℕ), Run machine π s ∧ .returned 0 (-1) ∈ events π ∧
      (.channel 0 (.putThrew 0 (some 0) .interrupted) : Event (Fin 2) ℕ) ∈ events π ∧
      (∀ w, ¬ Owns (events π) s 0 w) ∧ ∀ w c, .svc w 0 c ∉ events π := by
  obtain ⟨π, s, hr, hp⟩ := exists_run_of_replay (M := machine)
    (p := fun π _ => decide ((.returned 0 (-1) : Event (Fin 2) ℕ) ∈ events π ∧
      (.channel 0 (.putThrew 0 (some 0) .interrupted) : Event (Fin 2) ℕ) ∈ events π ∧
      Meets (fun s (a : Act (Fin 2) ℕ) => late s a = false) π))
    [.execute (0 : Fin 2) (some 7) false, .channel 0 none, .channel 0 none, .channel 0 none,
      .module_closed 1, .module_closed 1, .module_closed 1, .module_closed 1,
      .channel 0 (some .woken)] (by decide)
  obtain ⟨hret, hthrew, hC⟩ := of_decide_eq_true hp
  exact ⟨π, s, hr, hret, hthrew, execute_failed hr hC 0 hret⟩

/-- Worker 1 polls, takes the command 8 of thread 0 and serves it.  Thread 0 has made its node and not come to
it yet; thread 2 closes the executor, and thread 0 throws. -/
theorem execute_served_three :
    ¬ ∀ (π : _) (s : World (Fin 3) ℕ), Run machine π s → ∀ k, .returned k (-1) ∈ events π →
      ∀ w c, .svc w k c ∉ events π := by
  intro h
  obtain ⟨π, s, hr, hp⟩ := exists_run_of_replay (M := machine)
    (p := fun π _ => decide ((.returned 1 (-1) : Event (Fin 3) ℕ) ∈ events π ∧
      (.svc 1 1 8 : Event (Fin 3) ℕ) ∈ events π))
    [.execute (0 : Fin 3) (some 7) false, .channel 0 none, .channel 0 none, .channel 0 none,
      .channel 0 (some .timedOut), .run 0 false, .lock 0 false [1], .run 1 false, .run 0 false,
      .run 1 false, .run 1 false,
      .execute 0 (some 8) false, .channel 0 none, .channel 0 none,
      .run 1 false, .channel 1 none, .channel 1 none, .channel 1 none, .run 1 false,
      .module_closed 2, .module_closed 2, .module_closed 2, .module_closed 2,
      .channel 0 none] (by decide)
  obtain ⟨hret, hserved⟩ := of_decide_eq_true hp
  exact h π s hr 1 hret 1 8 hserved

end Lasagne.Daf.TaskExecutor
