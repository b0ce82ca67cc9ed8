import Lasagne.Trans.Run
import Lasagne.Daf.Semaphore

/-!
# Lasagne.Daf.ConstrainedExecutor — `DAF::ConstrainedExecutor`, and where its permits are

`execute` takes a permit when it wraps the command, and only the wrapper's `run` gives it back.  The executor
underneath is anything: it may run a wrapper at once or later, in any thread, or let go of it without running it;
`execute` may return while the wrapper waits, and several calls go on at a time.

* `accounted_of_run`: every permit is in the semaphore, with a command, or was lost with one that never ran.
* `conserved_iff`: with no command pending or running, `available()` is what it was at first exactly if no command
  was let go of before it ran.
-/

namespace Lasagne.Daf.ConstrainedExecutor

open Lasagne.Trans

variable {ι : Type*}

/-! ## The wrapper -/

/-- How the command of a wrapper ends. -/
inductive Outcome where
  | returns (rtn_val : ℤ)
  | throws
  /-- the thread is being cancelled -/
  | forcedUnwind
deriving DecidableEq, Repr

/-- How `ConstraintRunnable::run` ends. -/
inductive Result where
  | returned (rtn_val : ℤ)
  | threw
deriving DecidableEq, Repr

/-- `ConstraintRunnable::run`, where `none` is a nil command.  `abi`: `DAF_HAS_ABI_FORCED_UNWIND_EXCEPTION`, with
which a cancellation releases the permit and goes on; else it is caught like any exception. -/
def constraintRun (abi : Bool) (semaphore_ : Semaphore) : Option Outcome → Semaphore × Result
  | none => (semaphore_.release 1, .returned 0)
  | some (.returns rtn_val) => (semaphore_.release 1, .returned rtn_val)
  | some .throws => (semaphore_.release 1, .returned 0)
  | some .forcedUnwind =>
    if abi then (semaphore_.release 1, .threw) else (semaphore_.release 1, .returned 0)

/-- However the command ends, one permit is given back. -/
theorem constraintRun_fst (abi : Bool) (semaphore_ : Semaphore) (o : Option Outcome) :
    (constraintRun abi semaphore_ o).1 = semaphore_.release 1 := by
  match o with
  | none => rfl
  | some (.returns _) => rfl
  | some .throws => rfl
  | some .forcedUnwind => cases abi <;> rfl

/-! ## Threads -/

/-- Where a caller of `execute` is. -/
inductive Pc where
  | outside
  /-- about to lock in `acquire` -/
  | top
  /-- in the `wait` of `acquire` -/
  | waiting
  /-- in `execute` of the executor underneath -/
  | executing
deriving DecidableEq, Repr

/-- The wrappers are numbered. -/
structure World (ι : Type*) where
  semaphore_ : Semaphore
  permits_ : ℕ
  pc : ι → Pc
  built : ℕ
  pending : List ℕ
  running : List ℕ

/-- `ConstrainedExecutor::available`. -/
def World.available (s : World ι) : ℕ := toSize s.semaphore_.permits_

/-- `ConstrainedExecutor::size`. -/
def World.size (s : World ι) : ℕ := toSize (s.permits_ - s.available)

inductive Act (ι : Type*) where
  /-- `execute(command)` -/
  | execute (p : ι)
  /-- a section of `acquire` -/
  | acquire (p : ι)
  /-- the section after the wait; without a time limit it does not time out -/
  | wake (p : ι)
  /-- `acquire` throws an `InterruptedException` -/
  | interrupted (p : ι)
  /-- `execute` of the executor underneath returns, or throws -/
  | leave (p : ι)
  /-- a wrapper is run -/
  | run (c : ℕ)
  | finish (c : ℕ) (o : Option Outcome)
  /-- the last reference to a wrapper goes before it is run -/
  | drop (c : ℕ)
deriving DecidableEq, Repr

section Step

variable [DecidableEq ι]

def World.goto (s : World ι) (p : ι) (x : Pc) : World ι := { s with pc := Function.update s.pc p x }

/-- `new ConstraintRunnable` has its permit. -/
def World.build (s : World ι) (p : ι) : World ι :=
  { s.goto p .executing with built := s.built + 1, pending := s.pending ++ [s.built] }

/-- Where a section of `acquire` leaves its thread; the constructor ignores what `acquire` returns. -/
def World.ends (s : World ι) (p : ι) (r : Semaphore × Acquire) : World ι :=
  let s' := { s with semaphore_ := r.1 }
  match r.2 with
  | .acquired => s'.build p
  | .blocked => s'.goto p .waiting
  | .retry => s'.goto p .top
  | .failed => s'.build p

/-- One step. -/
def step (abi : Bool) (s : World ι) : Act ι → Option (World ι × List Unit)
  | .execute p => if s.pc p = .outside then some (s.goto p .top, []) else none
  | .acquire p => if s.pc p = .top then some (s.ends p s.semaphore_.acquire, []) else none
  | .wake p => if s.pc p = .waiting then some (s.ends p (s.semaphore_.resume .woken), []) else none
  | .interrupted p =>
    match s.pc p with
    | .top => some (s.goto p .outside, [])
    | .waiting =>
      some ({ s.goto p .outside with
        semaphore_ := { s.semaphore_ with waiters := s.semaphore_.waiters - 1 } }, [])
    | _ => none
  | .leave p => if s.pc p = .executing then some (s.goto p .outside, []) else none
  | .run c =>
    if c ∈ s.pending then some ({ s with pending := s.pending.erase c, running := s.running ++ [c] }, [])
    else none
  | .finish c o =>
    if c ∈ s.running then
      some ({ s with semaphore_ := (constraintRun abi s.semaphore_ o).1, running := s.running.erase c }, [])
    else none
  | .drop c => if c ∈ s.pending then some ({ s with pending := s.pending.erase c }, []) else none

/-- `ace_range(1, ACE_Numeric_Limits<int>::max(), int(permits))`. -/
def seed (permits : ℕ) : ℤ := max 1 (min (2 ^ 31 - 1) (toInt permits))

theorem seed_pos (permits : ℕ) : 0 < seed permits := by
  unfold seed
  omega

theorem seed_lt (permits : ℕ) : seed permits < 2 ^ 31 := by
  unfold seed
  omega

/-- `ConstrainedExecutor::ConstrainedExecutor`. -/
def new (permits : ℕ) : World ι where
  semaphore_ := ⟨seed permits, 0⟩
  permits_ := toSize (seed permits)
  pc _ := .outside
  built := 0
  pending := []
  running := []

/-- The machine of any number of threads. -/
def machine (ι : Type*) [DecidableEq ι] (abi : Bool) (permits : ℕ) : Machine (World ι) (Act ι) Unit where
  init := new permits
  step := step abi

end Step

/-! ## Permits -/

/-- A command is let go of before it ran. -/
def Act.isDrop : Act ι → Bool
  | .drop _ => true
  | _ => false

/-- What a step does to the permits: `x` goes to the commands, and `l` are lost. -/
structure Account (s s' : World ι) (x l : ℤ) : Prop where
  nonneg : 0 ≤ s.semaphore_.permits_ → 0 ≤ s'.semaphore_.permits_
  permits : s'.semaphore_.permits_ + x + l = s.semaphore_.permits_
  held : (s'.pending.length + s'.running.length : ℤ) = s.pending.length + s.running.length + x
  total : s'.permits_ = s.permits_

variable [DecidableEq ι] {s s' : World ι} {abi : Bool} {permits : ℕ}

omit [DecidableEq ι] in
/-- A step that has nothing to do with permits and commands. -/
theorem Account.same (hperm : s'.semaphore_.permits_ = s.semaphore_.permits_) (hpend : s'.pending = s.pending)
    (hrun : s'.running = s.running) (htotal : s'.permits_ = s.permits_) : Account s s' 0 0 := by
  refine ⟨fun hnn => ?_, ?_, ?_, htotal⟩
  · rwa [hperm]
  · omega
  · rw [hpend, hrun]
    omega

/-- A section of `acquire` that cannot fail takes a permit for the wrapper, or none. -/
theorem account_ends (p : ι) {r : Semaphore × Acquire} (hr : Semaphore.Took s.semaphore_ r.1 r.2)
    (hne : r.2 ≠ .failed) : ∃ x, Account s (s.ends p r) x 0 := by
  obtain ⟨g, res⟩ := r
  rcases hr with ⟨hres, hfree, hperm⟩ | ⟨hres, hperm⟩
  · obtain rfl : res = .acquired := hres
    have hperm' : g.permits_ = s.semaphore_.permits_ - 1 := hperm
    refine ⟨1, fun _ => ?_, ?_, ?_, rfl⟩
    · show 0 ≤ g.permits_
      omega
    · show g.permits_ + 1 + 0 = _
      omega
    · simp only [World.ends, World.build, World.goto, List.length_append, List.length_singleton]
      omega
  · refine ⟨0, ?_⟩
    cases res with
    | acquired => exact absurd rfl hres
    | failed => exact absurd rfl hne
    | blocked => exact .same hperm rfl rfl rfl
    | retry => exact .same hperm rfl rfl rfl

theorem acquire_ne_failed (g : Semaphore) : g.acquire.2 ≠ .failed := by
  rcases g.acquire_cases with ⟨-, heq⟩ | ⟨-, heq⟩ <;> rw [heq] <;> simp

theorem resume_woken_ne_failed (g : Semaphore) : (g.resume .woken).2 ≠ .failed := by
  rcases g.resume_cases .woken with ⟨-, heq⟩ | ⟨-, heq⟩ <;> rw [heq] <;> simp

/-- One step: a permit changes hands, or goes with a command. -/
theorem step_account {a : Act ι} {es : List Unit} (hfree : 0 ≤ s.semaphore_.permits_)
    (hroom : s.semaphore_.permits_ + s.running.length < 2 ^ 31) (hs : step abi s a = some (s', es)) :
    ∃ x, Account s s' x (if a.isDrop then 1 else 0) ∧ (a.isDrop = true → x = -1) := by
  cases a with
  | execute p =>
    simp only [step] at hs
    split at hs
    · obtain ⟨rfl, -⟩ := Prod.mk.inj (Option.some.inj hs)
      exact ⟨0, .same rfl rfl rfl rfl, fun h => (by cases h)⟩
    · cases hs
  | acquire p =>
    simp only [step] at hs
    split at hs
    · obtain ⟨rfl, -⟩ := Prod.mk.inj (Option.some.inj hs)
      obtain ⟨x, hx⟩ := account_ends (s := s) p s.semaphore_.acquire_took (acquire_ne_failed _)
      exact ⟨x, hx, fun h => (by cases h)⟩
    · cases hs
  | wake p =>
    simp only [step] at hs
    split at hs
    · obtain ⟨rfl, -⟩ := Prod.mk.inj (Option.some.inj hs)
      obtain ⟨x, hx⟩ := account_ends (s := s) p (s.semaphore_.resume_took .woken) (resume_woken_ne_failed _)
      exact ⟨x, hx, fun h => (by cases h)⟩
    · cases hs
  | interrupted p =>
    simp only [step] at hs
    split at hs
    · obtain ⟨rfl, -⟩ := Prod.mk.inj (Option.some.inj hs)
      exact ⟨0, .same rfl rfl rfl rfl, fun h => (by cases h)⟩
    · obtain ⟨rfl, -⟩ := Prod.mk.inj (Option.some.inj hs)
      exact ⟨0, .same rfl rfl rfl rfl, fun h => (by cases h)⟩
    · cases hs
  | leave p =>
    simp only [step] at hs
    split at hs
    · obtain ⟨rfl, -⟩ := Prod.mk.inj (Option.some.inj hs)
      exact ⟨0, .same rfl rfl rfl rfl, fun h => (by cases h)⟩
    · cases hs
  | run c =>
    simp only [step] at hs
    split at hs
    · next hc =>
      obtain ⟨rfl, -⟩ := Prod.mk.inj (Option.some.inj hs)
      have hpos := List.length_pos_of_mem hc
      refine ⟨0, ⟨id, by simp [Act.isDrop], ?_, rfl⟩, fun h => (by cases h)⟩
      simp only [List.length_erase_of_mem hc, List.length_append, List.length_singleton]
      omega
    · cases hs
  | finish c o =>
    simp only [step] at hs
    split at hs
    · next hc =>
      obtain ⟨rfl, -⟩ := Prod.mk.inj (Option.some.inj hs)
      have hpos := List.length_pos_of_mem hc
      have hrelease : (s.semaphore_.release 1).permits_ = s.semaphore_.permits_ + 1 :=
        Semaphore.release_one (by omega) (by omega)
      rw [constraintRun_fst]
      refine ⟨-1, ⟨fun hnn => ?_, ?_, ?_, rfl⟩, fun h => (by cases h)⟩
      · show 0 ≤ (s.semaphore_.release 1).permits_
        omega
      · show (s.semaphore_.release 1).permits_ + -1 + 0 = _
        omega
      · simp only [List.length_erase_of_mem hc]
        omega
    · cases hs
  | drop c =>
    simp only [step] at hs
    split at hs
    · next hc =>
      obtain ⟨rfl, -⟩ := Prod.mk.inj (Option.some.inj hs)
      have hpos := List.length_pos_of_mem hc
      refine ⟨-1, ⟨id, ?_, ?_, rfl⟩, fun _ => rfl⟩
      · show s.semaphore_.permits_ + -1 + 1 = _
        omega
      · simp only [List.length_erase_of_mem hc]
        omega
    · cases hs

/-! ## Runs -/

theorem toSize_natCast {i : ℤ} (h : 0 ≤ i) (hlt : i < 2 ^ 64) : (toSize i : ℤ) = i := by
  unfold toSize
  omega

variable {π : List (Taken (World ι) (Act ι) Unit)}

/-- How many commands were let go of before they ran. -/
def drops (π : List (Taken (World ι) (Act ι) Unit)) : ℕ := π.countP fun x => x.act.isDrop

/-- Every permit is accounted for. -/
structure Accounted (permits : ℕ) (π : List (Taken (World ι) (Act ι) Unit)) (s : World ι) : Prop where
  nonneg : 0 ≤ s.semaphore_.permits_
  sum_eq : s.semaphore_.permits_ + s.pending.length + s.running.length + drops π = seed permits
  total : s.permits_ = toSize (seed permits)

omit [DecidableEq ι] in
theorem accounted_new (permits : ℕ) : Accounted permits [] (new permits : World ι) := by
  have hpos := seed_pos permits
  refine ⟨?_, ?_, by simp only [new]⟩
  all_goals
    simp only [new, drops, List.length_nil, List.countP_nil]
    omega

theorem accounted_of_run (hr : Run (machine ι abi permits) π s) : Accounted permits π s := by
  induction hr with
  | start => exact accounted_new permits
  | @snoc π s s' a es _ hstep ih =>
    have hlt := seed_lt permits
    have hsum := ih.sum_eq
    obtain ⟨x, haccount, -⟩ := step_account ih.nonneg (by omega) hstep
    have hdrops : (drops (π ++ [⟨s, a, es⟩]) : ℤ) = drops π + if a.isDrop then 1 else 0 := by
      unfold drops
      rw [List.countP_append, List.countP_singleton]
      split <;> rfl
    have hperm := haccount.permits
    have hheld := haccount.held
    refine ⟨haccount.nonneg ih.nonneg, ?_, haccount.total.trans ih.total⟩
    rw [hdrops]
    omega

omit [DecidableEq ι] in
theorem Accounted.available_eq (h : Accounted permits π s) : (s.available : ℤ) = s.semaphore_.permits_ := by
  have hsum := h.sum_eq
  have hlt := seed_lt permits
  exact toSize_natCast h.nonneg (by omega)

omit [DecidableEq ι] in
theorem Accounted.permits_eq (h : Accounted permits π s) : (s.permits_ : ℤ) = seed permits := by
  have hlt := seed_lt permits
  rw [h.total]
  exact toSize_natCast (seed_pos permits).le (by omega)

omit [DecidableEq ι] in
/-- `size()` is the number of commands, those included that never ran. -/
theorem Accounted.size_eq (h : Accounted permits π s) : s.size = s.pending.length + s.running.length + drops π := by
  have hsum := h.sum_eq
  have hnonneg := h.nonneg
  have havail := h.available_eq
  have hpermits := h.permits_eq
  have hlt := seed_lt permits
  have hsize : (s.size : ℤ) = s.permits_ - s.available := toSize_natCast (by omega) (by omega)
  omega

/-- No constrained command is pending or running. -/
def World.Quiet (s : World ι) : Prop := s.pending = [] ∧ s.running = []

instance (s : World ι) : Decidable s.Quiet := inferInstanceAs (Decidable (_ ∧ _))

/-- **Permit conservation.**  Whatever the permit count, the executor underneath and the interleaving of the calls,
when no command is pending or running `available()` is what it was at construction exactly if no command was let
go of before it ran. -/
theorem conserved_iff (hr : Run (machine ι abi permits) π s) (hquiet : s.Quiet) :
    s.available = s.permits_ ↔ Meets (fun _ a => a.isDrop = false) π := by
  have h := accounted_of_run hr
  obtain ⟨hpend, hrun⟩ := hquiet
  have hsum := h.sum_eq
  have havail := h.available_eq
  have hpermits := h.permits_eq
  rw [hpend, hrun, List.length_nil] at hsum
  have hdrops : drops π = 0 ↔ Meets (fun _ a => a.isDrop = false) π := by
    unfold drops Meets
    rw [List.countP_eq_zero]
    simp only [Bool.not_eq_true]
  rw [← hdrops]
  omega

/-- Of two permits one is given back by a command that throws, in place, and one by a command that runs when its
`execute` has returned. -/
theorem conserved_iff_two : ∃ (π : List (Taken (World (Fin 2)) (Act (Fin 2)) Unit)) (s : World (Fin 2)),
    Run (machine (Fin 2) true 2) π s ∧ π.length = 10 ∧ s.Quiet ∧ s.available = 2 ∧
    (s.available = s.permits_ ↔ Meets (fun _ a => a.isDrop = false) π) := by
  obtain ⟨π, s, hr, hp⟩ := exists_run_of_replay (M := machine (Fin 2) true 2)
    (p := fun (π : List (Taken (World (Fin 2)) (Act (Fin 2)) Unit)) (s : World (Fin 2)) =>
      decide (π.length = 10 ∧ s.Quiet ∧ s.available = 2))
    [.execute 0, .acquire 0, .execute 1, .acquire 1, .run 0, .finish 0 (some .throws), .leave 0, .leave 1, .run 1,
      .finish 1 (some (.returns 0))] (by decide +kernel)
  obtain ⟨hlength, hquiet, havail⟩ := of_decide_eq_true hp
  exact ⟨π, s, hr, hlength, hquiet, havail, conserved_iff hr hquiet⟩

/-- The executor underneath refuses the only command there is, and the permit is gone: the next caller waits, with
nobody there to wake it. -/
theorem conserved_fails_two : ∃ (π : List (Taken (World (Fin 2)) (Act (Fin 2)) Unit)) (s : World (Fin 2)),
    Run (machine (Fin 2) true 1) π s ∧ s.Quiet ∧ s.permits_ = 1 ∧ s.available = 0 ∧ s.pc 0 = .outside ∧
    s.pc 1 = .waiting := by
  obtain ⟨π, s, hr, hp⟩ := exists_run_of_replay (M := machine (Fin 2) true 1)
    (p := fun (_ : List (Taken (World (Fin 2)) (Act (Fin 2)) Unit)) (s : World (Fin 2)) =>
      decide (s.Quiet ∧ s.permits_ = 1 ∧ s.available = 0 ∧ s.pc 0 = .outside ∧ s.pc 1 = .waiting))
    [.execute 0, .acquire 0, .drop 0, .leave 0, .execute 1, .acquire 1] (by decide +kernel)
  obtain ⟨hquiet, hpermits, havail, hout, hwait⟩ := of_decide_eq_true hp
  exact ⟨π, s, hr, hquiet, hpermits, havail, hout, hwait⟩

end Lasagne.Daf.ConstrainedExecutor
