import Lasagne.Trans.Count
import Lasagne.Trans.Calls
import Lasagne.Daf.Semaphore

/-!
# Lasagne.Daf.SemaphoreRuns — threads at one semaphore

A step is one section under the lock of the semaphore, or the look at `interrupted()` at the top of the loop.
The flag is set without the lock and never cleared, so a section that looks twice can be taken to look once.  A
signal goes to a waiter that has none yet; a waiter may also return for no reason.

* `accounted_iff`: every permit that is not there was taken by an `acquire` that returned `0`, as long as the permits
  are an `int`.
* `no_lost_wakeup`: without interruption, free permits and waiters have signals under way.
-/

namespace Lasagne.Daf.Semaphore

open Lasagne.Trans

/-! ## Threads -/

/-- Where a thread is in its call number `c`; `timed`: `abstime` is given. -/
inductive Pc where
  | idle
  /-- at the top of the loop -/
  | top (timed : Bool) (c : ℕ)
  /-- about to lock -/
  | lock (timed : Bool) (c : ℕ)
  /-- in `wait`; `signalled`: a signal came for it -/
  | waiting (timed : Bool) (c : ℕ) (signalled : Bool)
deriving DecidableEq, Repr

inductive Exn where
  | interrupted
  | lockFailure
deriving DecidableEq, Repr

/-- What happens in a run. -/
inductive Event where
  /-- `c` returns `0` -/
  | acquired (c : ℕ)
  /-- `c` returns `-1` -/
  | failed (c : ℕ)
  | threw (c : ℕ) (e : Exn)
  | released (permits : ℤ)
deriving DecidableEq, Repr

structure World (ι : Type*) where
  sem : Semaphore
  interrupted_ : Bool
  pc : ι → Pc
  calls : ℕ

/-- One action of one thread. -/
inductive Act (ι : Type*) where
  | acquire (p : ι) (timed : Bool)
  | run (p : ι)
  /-- the section after the wait -/
  | wake (p : ι) (r : WaitResult)
  /-- the lock cannot be had -/
  | noGuard (p : ι)
  /-- the signals of `release(permits)` go to `ws` -/
  | release (permits : ℤ) (ws : List ι)
  | interrupt
deriving DecidableEq, Repr

def Pc.isWaiting : Pc → Bool
  | .waiting _ _ _ => true
  | _ => false

def Pc.isSignalled : Pc → Bool
  | .waiting _ _ b => b
  | _ => false

/-- A signal comes. -/
def Pc.signal : Pc → Pc
  | .waiting timed c _ => .waiting timed c true
  | x => x

/-- The call a thread is in. -/
def Pc.call : Pc → Option ℕ
  | .idle => none
  | .top _ c | .lock _ c | .waiting _ c _ => some c

/-- The call that an event ends. -/
def Event.ends : Event → Option ℕ
  | .acquired c | .failed c | .threw c _ => some c
  | .released _ => none

@[simp] theorem Pc.isWaiting_signal (x : Pc) : x.signal.isWaiting = x.isWaiting := by
  cases x <;> rfl

@[simp] theorem Pc.isSignalled_signal (x : Pc) : x.signal.isSignalled = x.isWaiting := by
  cases x <;> rfl

@[simp] theorem Pc.call_signal (x : Pc) : x.signal.call = x.call := by
  cases x <;> rfl

section Step

variable {ι : Type*} [DecidableEq ι]

def World.goto (s : World ι) (p : ι) (x : Pc) : World ι := { s with pc := Function.update s.pc p x }

/-- Where a section of `acquire` leaves its thread. -/
def ends (s : World ι) (p : ι) (timed : Bool) (c : ℕ) (r : Semaphore × Acquire) :
    World ι × List Event :=
  let s' := { s with sem := r.1 }
  match r.2 with
  | .acquired => (s'.goto p .idle, [.acquired c])
  | .blocked => (s'.goto p (.waiting timed c false), [])
  | .retry => (s'.goto p (.top timed c), [])
  | .failed => (s'.goto p .idle, [.failed c])

/-- The section of `acquire` under the lock; `wait` throws at once when the flag is set. -/
def locked (s : World ι) (p : ι) (timed : Bool) (c : ℕ) : World ι × List Event :=
  if s.interrupted_ ∧ s.sem.acquire.2 = .blocked then (s.goto p .idle, [.threw c .interrupted])
  else ends s p timed c s.sem.acquire

/-- The section after the wait, which throws when the flag is set. -/
def woke (s : World ι) (p : ι) (timed : Bool) (c : ℕ) (r : WaitResult) : World ι × List Event :=
  if s.interrupted_ then
    ({ s.goto p .idle with sem := { s.sem with waiters := s.sem.waiters - 1 } }, [.threw c .interrupted])
  else ends s p timed c (s.sem.resume r)

/-- Every signal wakes a waiter that has none yet, if there is one. -/
def wakes [Fintype ι] (s : World ι) (n : ℕ) (ws : List ι) : Bool :=
  ws.Nodup ∧ (∀ w ∈ ws, (s.pc w).isWaiting = true ∧ (s.pc w).isSignalled = false) ∧ ws.length ≤ n ∧
    (ws.length = n ∨ ∀ q, (s.pc q).isWaiting = true → (s.pc q).isSignalled = true ∨ q ∈ ws)

/-- One step of one thread. -/
def step [Fintype ι] (s : World ι) : Act ι → Option (World ι × List Event)
  | .acquire p timed =>
    match s.pc p with
    | .idle => some ({ s.goto p (.top timed s.calls) with calls := s.calls + 1 }, [])
    | _ => none
  | .run p =>
    match s.pc p with
    | .top timed c =>
      some (if s.interrupted_ then (s.goto p .idle, [.threw c .interrupted])
        else (s.goto p (.lock timed c), []))
    | .lock timed c => some (locked s p timed c)
    | _ => none
  | .wake p r =>
    match s.pc p with
    | .waiting timed c _ =>
      -- a wait without `abstime` does not time out
      if r = .timedOut ∧ timed = false then none else some (woke s p timed c r)
    | _ => none
  | .noGuard p =>
    match s.pc p with
    | .lock _ c => some (s.goto p .idle, [.threw c .lockFailure])
    | _ => none
  | .release permits ws =>
    -- `permits` is an `int`
    if permits < 2 ^ 31 ∧ wakes s permits.toNat ws then
      some ({ s with
        sem := s.sem.release permits
        pc := fun q => if q ∈ ws then (s.pc q).signal else s.pc q }, [.released permits])
    else none
  | .interrupt => some ({ s with interrupted_ := true }, [])

/-- Any number of threads at a new semaphore. -/
def machine [Fintype ι] (permits : ℤ) : Machine (World ι) (Act ι) Event where
  init := ⟨⟨asInt permits, 0⟩, false, fun _ => .idle, 0⟩
  step := step

/-! ## Moves -/

variable [Fintype ι]

/-- What a step can do. -/
inductive Move (s s' : World ι) : Act ι → List Event → Prop
  | start {p : ι} {timed : Bool} : s.pc p = .idle →
      s' = { s.goto p (.top timed s.calls) with calls := s.calls + 1 } → Move s s' (.acquire p timed) []
  | top {p : ι} {timed : Bool} {c : ℕ} : s.pc p = .top timed c → s' = s.goto p (.lock timed c) →
      Move s s' (.run p) []
  /-- `acquire` throws before it waits -/
  | throws {a : Act ι} {p : ι} {timed : Bool} {c : ℕ} {e : Exn} :
      s.pc p = .top timed c ∨ s.pc p = .lock timed c → s' = s.goto p .idle → Move s s' a [.threw c e]
  /-- or after -/
  | interrupted {a : Act ι} {p : ι} {timed : Bool} {c : ℕ} {b : Bool} : s.pc p = .waiting timed c b →
      s.interrupted_ = true →
      s' = { s.goto p .idle with sem := { s.sem with waiters := s.sem.waiters - 1 } } →
      Move s s' a [.threw c .interrupted]
  | lock {p : ι} {timed : Bool} {c : ℕ} {es : List Event} : s.pc p = .lock timed c →
      (s', es) = ends s p timed c s.sem.acquire → Move s s' (.run p) es
  | wake {p : ι} {timed : Bool} {c : ℕ} {b : Bool} {r : WaitResult} {es : List Event} :
      s.pc p = .waiting timed c b → (s', es) = ends s p timed c (s.sem.resume r) →
      Move s s' (.wake p r) es
  | release {n : ℤ} {ws : List ι} : n < 2 ^ 31 → wakes s n.toNat ws = true →
      s' = { s with
        sem := s.sem.release n
        pc := fun q => if q ∈ ws then (s.pc q).signal else s.pc q } →
      Move s s' (.release n ws) [.released n]
  | interrupt : s' = { s with interrupted_ := true } → Move s s' .interrupt []

variable {s s' : World ι} {a : Act ι} {es : List Event}

/-- Every step is a move. -/
theorem step_move (hs : step s a = some (s', es)) : Move s s' a es := by
  cases a with
  | acquire p timed =>
    simp only [step] at hs
    split at hs
    · next hp =>
      obtain ⟨rfl, rfl⟩ := by simpa using hs
      exact .start hp rfl
    · cases hs
  | run p =>
    simp only [step] at hs
    split at hs
    · next timed c hp =>
      split_ifs at hs <;> obtain ⟨rfl, rfl⟩ := by simpa using hs
      · exact .throws (Or.inl hp) rfl
      · exact .top hp rfl
    · next timed c hp =>
      unfold locked at hs
      split_ifs at hs
      · obtain ⟨rfl, rfl⟩ := by simpa using hs
        exact .throws (Or.inr hp) rfl
      · exact .lock hp (Option.some.inj hs).symm
    · cases hs
  | wake p r =>
    simp only [step] at hs
    split at hs
    · next timed c b hp =>
      split_ifs at hs
      unfold woke at hs
      split_ifs at hs with hi
      · obtain ⟨rfl, rfl⟩ := by simpa using hs
        exact .interrupted hp hi (by simp [World.goto, hi])
      · exact .wake hp (Option.some.inj hs).symm
    · cases hs
  | noGuard p =>
    simp only [step] at hs
    split at hs
    · next timed c hp =>
      obtain ⟨rfl, rfl⟩ := by simpa using hs
      exact .throws (Or.inr hp) rfl
    · cases hs
  | release n ws =>
    simp only [step] at hs
    split_ifs at hs with hw
    obtain ⟨rfl, rfl⟩ := by simpa using hs
    exact .release hw.1 hw.2 rfl
  | interrupt =>
    obtain ⟨rfl, rfl⟩ := by simpa [step] using hs
    exact .interrupt rfl

omit [Fintype ι] in
/-- What a section of `acquire` does, by its result. -/
theorem of_ends {p : ι} {timed : Bool} {c : ℕ} {r : Semaphore × Acquire}
    (h : (s', es) = ends s p timed c r) : s'.sem = r.1 ∧ s'.calls = s.calls ∧
      s'.interrupted_ = s.interrupted_ ∧ ∃ x, s'.pc = Function.update s.pc p x ∧
        ((r.2 = .acquired ∧ x = .idle ∧ es = [.acquired c]) ∨
          (r.2 = .failed ∧ x = .idle ∧ es = [.failed c]) ∨
          (r.2 = .blocked ∧ x = .waiting timed c false ∧ es = []) ∨
          (r.2 = .retry ∧ x = .top timed c ∧ es = [])) := by
  unfold ends at h
  dsimp only at h
  split at h <;> obtain ⟨rfl, rfl⟩ := Prod.mk.inj h <;> refine ⟨rfl, rfl, rfl, _, rfl, ?_⟩ <;> simp_all

/-! ## Accounts -/

/-- The permits given so far. -/
def given (tr : List Event) : ℤ :=
  (tr.map fun e => match e with
    | .released n => max n 0
    | _ => 0).sum

/-- The permits taken so far. -/
def taken (tr : List Event) : ℕ :=
  tr.countP fun e => match e with
    | .acquired _ => true
    | _ => false

omit [DecidableEq ι] [Fintype ι] in
theorem given_append (tr es : List Event) : given (tr ++ es) = given tr + given es := by
  simp [given]

omit [DecidableEq ι] [Fintype ι] in
theorem given_nonneg (tr : List Event) : 0 ≤ given tr := by
  refine List.sum_nonneg fun n hn => ?_
  obtain ⟨e, -, rfl⟩ := List.mem_map.mp hn
  split
  · exact le_max_right _ _
  · exact le_refl 0

omit [DecidableEq ι] [Fintype ι] in
theorem taken_append (tr es : List Event) : taken (tr ++ es) = taken tr + taken es := by
  simp [taken]

/-- Every permit is accounted for. -/
structure Accounted (initial : ℤ) (tr : List Event) (s : World ι) : Prop where
  permits_eq : s.sem.permits_ = initial + given tr - taken tr
  bound : min 0 initial ≤ s.sem.permits_
  /-- an `acquire` ends once -/
  once : (tr.filterMap Event.ends).Nodup
  /-- one that returned `-1` or threw took no permit -/
  took_none : ∀ c, (.failed c ∈ tr ∨ ∃ e, .threw c e ∈ tr) → .acquired c ∉ tr

omit [Fintype ι] in
/-- What a section of `acquire` does to the permits, by its events. -/
theorem ends_permits {p : ι} {timed : Bool} {c : ℕ} {r : Semaphore × Acquire} (ht : Took s.sem r.1 r.2)
    (h : (s', es) = ends s p timed c r) :
    s'.sem.permits_ = s.sem.permits_ + given es - taken es ∧ (0 < taken es → 0 ≤ s'.sem.permits_) := by
  obtain ⟨hsem, -, -, x, -, hx⟩ := of_ends h
  rw [hsem]
  rcases ht with ⟨hacq, hpos, hperm⟩ | ⟨hacq, hperm⟩
  · obtain rfl : es = [.acquired c] := by
      rcases hx with ⟨-, -, rfl⟩ | ⟨hr, -⟩ | ⟨hr, -⟩ | ⟨hr, -⟩
      · rfl
      all_goals rw [hacq] at hr; cases hr
    refine ⟨?_, fun _ => by omega⟩
    rw [hperm]
    simp [given, taken]
  · have hnone : given es = 0 ∧ taken es = 0 := by
      rcases hx with ⟨hr, -⟩ | ⟨-, -, rfl⟩ | ⟨-, -, rfl⟩ | ⟨-, -, rfl⟩
      · exact absurd hr hacq
      all_goals exact ⟨rfl, rfl⟩
    rw [hnone.1, hnone.2, hperm]
    exact ⟨by simp, fun h => absurd h (Nat.lt_irrefl 0)⟩

/-- A section of `acquire` only takes. -/
theorem Took.isInt {g g' : Semaphore} {r : Acquire} (h : Took g g' r) (hg : asInt g.permits_ = g.permits_) :
    asInt g'.permits_ = g'.permits_ := by
  rw [asInt_eq_iff] at *
  rcases h with ⟨-, hpos, hperm⟩ | ⟨-, hperm⟩ <;> omega

theorem Move.isInt (hm : Move s s' a es) (h : asInt s.sem.permits_ = s.sem.permits_) :
    asInt s'.sem.permits_ = s'.sem.permits_ := by
  cases hm with
  | start _ hs' | top _ hs' | throws _ hs' | interrupted _ _ hs' | interrupt hs' =>
    rw [hs']
    exact h
  | lock _ he =>
    rw [(of_ends he).1]
    exact s.sem.acquire_took.isInt h
  | wake _ he =>
    rw [(of_ends he).1]
    exact (s.sem.resume_took _).isInt h
  | release _ _ hs' =>
    rw [hs']
    exact release_isInt h _

/-- The permits released do not take `permits_` beyond an `int`. -/
def Fits (s : World ι) : Act ι → Prop
  | .release permits _ => s.sem.permits_ + permits.toNat < 2 ^ 31
  | _ => True

instance (s : World ι) (a : Act ι) : Decidable (Fits s a) := by
  cases a <;> unfold Fits <;> infer_instance

/-- What a step does to the permits, by its events. -/
theorem Move.permits_eq (hm : Move s s' a es) (h : asInt s.sem.permits_ = s.sem.permits_) (ha : Fits s a) :
    s'.sem.permits_ = s.sem.permits_ + given es - taken es ∧ (0 < taken es → 0 ≤ s'.sem.permits_) := by
  cases hm with
  | start _ hs' | top _ hs' | throws _ hs' | interrupted _ _ hs' | interrupt hs' =>
    rw [hs']
    simp [World.goto, given, taken]
  | lock _ h => exact ends_permits s.sem.acquire_took h
  | wake _ h => exact ends_permits (s.sem.resume_took _) h
  | @release n ws _ _ hs' =>
    have hperm := release_permits (asInt_eq_iff.mp h).1 ha
    rw [hs']
    simp [given, taken, hperm]

/-- A release beyond an `int` leaves less than nothing. -/
theorem step_neg (hs : step s a = some (s', es)) (h : asInt s.sem.permits_ = s.sem.permits_) (ha : ¬ Fits s a) :
    s'.sem.permits_ < 0 ∧ 2 ^ 31 ≤ s.sem.permits_ + given es - taken es := by
  cases a with
  | release n ws =>
    simp only [step] at hs
    split_ifs at hs with hw
    obtain ⟨rfl, rfl⟩ := by simpa using hs
    have hover := not_lt.mp ha
    refine ⟨release_permits_neg (asInt_eq_iff.mp h).2 hw.1 hover, ?_⟩
    simpa [given, taken] using hover
  | acquire | run | wake | noGuard | interrupt => exact absurd trivial ha

theorem Move.numbered (hm : Move s s' a es) {tr : List Event}
    (h : Numbered Pc.call Event.ends tr s.pc s.calls) :
    Numbered Pc.call Event.ends (tr ++ es) s'.pc s'.calls := by
  have hends : ∀ {p timed c r}, (s.pc p).call = some c → (s', es) = ends s p timed c r →
      Numbered Pc.call Event.ends (tr ++ es) s'.pc s'.calls := by
    intro p timed c r hp he
    obtain ⟨-, hcalls, -, x, hpc, hx⟩ := of_ends he
    rw [hcalls, hpc]
    rcases hx with ⟨-, rfl, rfl⟩ | ⟨-, rfl, rfl⟩ | ⟨-, rfl, rfl⟩ | ⟨-, rfl, rfl⟩
    · exact h.finish hp rfl rfl
    · exact h.finish hp rfl rfl
    · exact h.goOn hp.symm rfl
    · exact h.goOn hp.symm rfl
  cases hm with
  | start hp hs' =>
    rw [hs']
    exact h.start rfl rfl
  | top hp hs' =>
    rw [hs']
    exact h.goOn (by rw [hp]; rfl) rfl
  | throws hp hs' =>
    rw [hs']
    exact h.finish (by rcases hp with hp | hp <;> rw [hp] <;> rfl) rfl rfl
  | interrupted hp _ hs' =>
    rw [hs']
    exact h.finish (by rw [hp]; rfl) rfl rfl
  | lock hp he => exact hends (by rw [hp]; rfl) he
  | wake hp he => exact hends (by rw [hp]; rfl) he
  | release _ _ hs' =>
    rw [hs']
    refine h.keep (fun q => ?_) rfl
    dsimp only
    split_ifs
    · exact Pc.call_signal _
    · rfl
  | interrupt hs' =>
    rw [hs']
    exact h.keep (fun _ => rfl) rfl

variable {initial : ℤ} {π : List (Taken (World ι) (Act ι) Event)}

theorem run_numbered (hr : Run (machine initial) π s) :
    Numbered Pc.call Event.ends (events π) s.pc s.calls := by
  induction hr with
  | start => exact .new fun _ => rfl
  | snoc _ hstep ih =>
    rw [events_snoc]
    exact (step_move hstep).numbered ih

theorem run_isInt (hr : Run (machine initial) π s) : asInt s.sem.permits_ = s.sem.permits_ := by
  induction hr with
  | start => exact asInt_asInt initial
  | snoc _ hstep ih => exact (step_move hstep).isInt ih

/-- As long as the permits fit they are accounted for. -/
theorem run_accounted (h0 : asInt initial = initial) (hr : Run (machine initial) π s) (hC : Meets Fits π) :
    Accounted initial (events π) s := by
  have hN := run_numbered hr
  have hperm : s.sem.permits_ = initial + given (events π) - taken (events π) ∧
      min 0 initial ≤ s.sem.permits_ := by
    clear hN
    induction hr with
    | start =>
      show asInt initial = initial + 0 - 0 ∧ min 0 initial ≤ asInt initial
      rw [h0]
      exact ⟨by omega, min_le_right 0 initial⟩
    | @snoc π s s' a es hr hstep ih =>
      obtain ⟨hπ, ha⟩ := meets_snoc.mp hC
      obtain ⟨heq, hpos⟩ := (step_move hstep).permits_eq (run_isInt hr) ha
      have hgiven := given_nonneg es
      rw [events_snoc, given_append, taken_append]
      obtain ⟨hperm, hbound⟩ := ih hπ
      refine ⟨by push_cast; omega, ?_⟩
      rcases Nat.eq_zero_or_pos (taken es) with hzero | htaken
      · rw [hzero] at heq
        omega
      · exact (min_le_left 0 initial).trans (hpos htaken)
  refine ⟨hperm.1, hperm.2, hN.once, ?_⟩
  rintro c (hc | ⟨e, hc⟩) hacq
  · cases hN.eq_of_ends hc hacq rfl rfl
  · cases hN.eq_of_ends hc hacq rfl rfl

/-- **Accounting.**  All along a run the permits are those there were, with those released and without those that an
`acquire` returned `0` for, there are never fewer than there were, or than none, and an `acquire` that returns `-1` or
throws takes none: exactly if no `release` takes them beyond an `int`. -/
theorem accounted_iff (h0 : asInt initial = initial) (hr : Run (machine initial) π s) :
    (∀ ρ t, ρ <+: π → Run (machine initial) ρ t → Accounted initial (events ρ) t) ↔ Meets Fits π := by
  constructor
  · intro h
    induction hr with
    | start => exact meets_nil _
    | @snoc π s s' a es hr hstep ih =>
      refine meets_snoc.mpr ⟨ih fun ρ t hρ => h ρ t (hρ.trans (List.prefix_append _ _)), ?_⟩
      by_contra ha
      obtain ⟨hneg, hover⟩ := step_neg hstep (run_isInt hr) ha
      have hpre := (h π s (List.prefix_append _ _) hr).permits_eq
      have hpost := (h _ s' (List.prefix_refl _) (hr.snoc hstep)).permits_eq
      rw [events_snoc, given_append, taken_append] at hpost
      push_cast at hpost
      omega
  · rintro hC ρ t ⟨ρ', rfl⟩ hrun
    exact run_accounted h0 hrun fun x hx => hC x (List.mem_append_left _ hx)

/-- Thread 0 takes the one permit, thread 1 times out, and thread 0 gives two back. -/
theorem accounted_iff_two :
    ∃ (π : _) (s : World (Fin 2)), Run (machine 1) π s ∧ .acquired 0 ∈ events π ∧ .failed 1 ∈ events π ∧
      Accounted 1 (events π) s := by
  obtain ⟨π, s, hr, hp⟩ := exists_run_of_replay (M := machine 1)
    (p := fun π _ => decide (.acquired 0 ∈ events π ∧ .failed 1 ∈ events π ∧
      Meets (fun s (a : Act (Fin 2)) => Fits s a) π))
    [.acquire (0 : Fin 2) false, .run 0, .run 0, .acquire 1 true, .run 1, .run 1, .wake 1 .timedOut,
      .release 2 []] (by decide)
  obtain ⟨hacq, hfail, hC⟩ := of_decide_eq_true hp
  exact ⟨π, s, hr, hacq, hfail, (accounted_iff (by decide) hr).mpr hC π s (List.prefix_refl π) hr⟩

/-- One permit, and the greatest `int` more: there is less than none. -/
theorem accounted_fails_one :
    ¬ ∀ (π : _) (s : World (Fin 1)), Run (machine 1) π s → Accounted 1 (events π) s := by
  intro h
  obtain ⟨π, s, hr, hp⟩ := exists_run_of_replay (M := machine 1)
    (p := fun _ (s : World (Fin 1)) => decide (s.sem.permits_ = -2 ^ 31)) [.release (2 ^ 31 - 1) []] (by decide)
  have hbound := (h π s hr).bound
  rw [of_decide_eq_true hp] at hbound
  exact absurd hbound (by decide)

/-! ## Wakeups -/

/-- Not `interrupt()`. -/
def Act.noInterrupt : Act ι → Bool
  | .interrupt => false
  | _ => true

/-- The waiters that have a signal and have not returned yet. -/
def pending (s : World ι) : ℕ := count Pc.isSignalled s.pc

/-- Everybody a release wakes has a signal from then on. -/
theorem pending_release {n : ℕ} {ws : List ι} (hw : wakes s n ws = true)
    (hpc : s'.pc = fun q => if q ∈ ws then (s.pc q).signal else s.pc q) :
    pending s' = pending s + ws.length ∧ ws.length ≤ n := by
  simp only [wakes, decide_eq_true_eq] at hw
  obtain ⟨hnodup, hws, hlen, -⟩ := hw
  refine ⟨?_, hlen⟩
  unfold pending
  rw [hpc]
  refine count_ite_mem hnodup (fun w hw => ?_) fun w hw => (hws w hw).2
  rw [Pc.isSignalled_signal]
  exact (hws w hw).1

/-- No wakeup is lost. -/
structure Wakeful (s : World ι) : Prop where
  waiters : s.sem.waiters = count Pc.isWaiting s.pc
  calm : s.interrupted_ = false
  woken : 0 < s.sem.permits_ → min s.sem.permits_ s.sem.waiters ≤ pending s

namespace Wakeful

variable {p : ι} {x : Pc}

/-- One thread moves. -/
theorem one (h : Wakeful s) (hpc : s'.pc = Function.update s.pc p x)
    (hcalm : s'.interrupted_ = s.interrupted_)
    (hwait : s'.sem.waiters + (s.pc p).isWaiting.toNat = s.sem.waiters + x.isWaiting.toNat)
    (hpend : ∀ k k' : ℕ, k' + (s.pc p).isSignalled.toNat = k + x.isSignalled.toNat →
      (0 < s.sem.permits_ → min s.sem.permits_ s.sem.waiters ≤ k) →
      0 < s'.sem.permits_ → min s'.sem.permits_ s'.sem.waiters ≤ k') : Wakeful s' := by
  have hw := count_update Pc.isWaiting s.pc p x
  have hs := count_update Pc.isSignalled s.pc p x
  refine ⟨?_, hcalm.trans h.calm, ?_⟩
  · have := h.waiters
    rw [hpc]
    omega
  · refine hpend (pending s) (pending s') ?_ h.woken
    unfold pending
    rw [hpc]
    exact hs

/-- One thread moves outside the condition. -/
theorem outside (h : Wakeful s) (hpc : s'.pc = Function.update s.pc p x)
    (hcalm : s'.interrupted_ = s.interrupted_) (hsem : s'.sem = s.sem) (hp : (s.pc p).isWaiting = false)
    (hx : x.isWaiting = false) : Wakeful s' := by
  have hnone : ∀ {y : Pc}, y.isWaiting = false → y.isSignalled = false := by
    intro y hy
    cases y <;> first | rfl | cases hy
  refine h.one hpc hcalm (by rw [hsem, hp, hx]) ?_
  rw [hsem, hnone hp, hnone hx]
  exact fun k k' hk hle hpos => by
    obtain rfl : k' = k := hk
    exact hle hpos

/-- A section of `acquire` takes a permit only if there are more of them than waiters. -/
theorem lock (h : Wakeful s) {timed : Bool} {c : ℕ} (hp : s.pc p = .lock timed c)
    (he : (s', es) = ends s p timed c s.sem.acquire) : Wakeful s' := by
  obtain ⟨hsem, -, hcalm, x, hpc, hx⟩ := of_ends he
  rcases s.sem.acquire_cases with ⟨hlt, hr⟩ | ⟨hle, hr⟩ <;> rw [hr] at hsem hx
  · obtain ⟨rfl, -⟩ : x = .idle ∧ _ := by simpa using hx
    refine h.one hpc hcalm (by rw [hsem, hp]; rfl) fun k k' hk hmin hpos => ?_
    obtain rfl : k' = k := by simpa [hp, Pc.isSignalled] using hk
    have hmin := hmin (by omega)
    rw [hsem]
    dsimp only
    omega
  · obtain ⟨rfl, -⟩ : x = .waiting timed c false ∧ _ := by simpa using hx
    refine h.one hpc hcalm (by rw [hsem, hp]; rfl) fun k k' hk hmin hpos => ?_
    obtain rfl : k' = k := by simpa [hp, Pc.isSignalled] using hk
    rw [hsem] at hpos ⊢
    dsimp only at hpos ⊢
    have hmin := hmin hpos
    omega

/-- A waiter that returns takes a permit if there is one. -/
theorem wake (h : Wakeful s) {timed b : Bool} {c : ℕ} {r : WaitResult} (hp : s.pc p = .waiting timed c b)
    (he : (s', es) = ends s p timed c (s.sem.resume r)) : Wakeful s' := by
  have hone : 0 < s.sem.waiters := by
    rw [h.waiters]
    exact count_pos (i := p) (by rw [hp]; rfl)
  obtain ⟨hsem, -, hcalm, x, hpc, hx⟩ := of_ends he
  have hout : x.isWaiting = false ∧ x.isSignalled = false := by
    rcases hx with ⟨-, rfl, -⟩ | ⟨-, rfl, -⟩ | ⟨hr, -⟩ | ⟨-, rfl, -⟩
    · exact ⟨rfl, rfl⟩
    · exact ⟨rfl, rfl⟩
    · rcases s.sem.resume_cases r with ⟨-, he⟩ | ⟨-, he⟩ <;> rw [he] at hr <;> cases r <;> cases hr
    · exact ⟨rfl, rfl⟩
  rcases s.sem.resume_cases r with ⟨hlt, hr⟩ | ⟨hle, hr⟩ <;> rw [hr] at hsem
  · refine h.one hpc hcalm ?_ fun k k' hk hmin hpos => ?_
    · rw [hsem, hp, hout.1]
      show s.sem.waiters - 1 + 1 = s.sem.waiters + 0
      omega
    · rw [hp, hout.2] at hk
      have hb : b.toNat ≤ 1 := b.toNat_le
      have hk : k' + b.toNat = k := hk
      have hmin := hmin hlt
      rw [hsem]
      dsimp only
      omega
  · -- no permit: whoever was signalled for one will find none either
    refine h.one hpc hcalm ?_ fun k k' _ _ hpos => ?_
    · rw [hsem, hp, hout.1]
      show s.sem.waiters - 1 + 1 = s.sem.waiters + 0
      omega
    · rw [hsem] at hpos
      exact absurd hpos (by dsimp only; omega)

/-- A release signals as many waiters as it gives permits, or more. -/
theorem release (h : Wakeful s) (hint : asInt s.sem.permits_ = s.sem.permits_) {n : ℤ} {ws : List ι}
    (hw : wakes s n.toNat ws = true)
    (hs' : s' = { s with
      sem := s.sem.release n
      pc := fun q => if q ∈ ws then (s.pc q).signal else s.pc q }) : Wakeful s' := by
  have hpc : s'.pc = fun q => if q ∈ ws then (s.pc q).signal else s.pc q := by rw [hs']
  obtain ⟨hmore, -⟩ := pending_release hw hpc
  simp only [wakes, decide_eq_true_eq] at hw
  obtain ⟨-, -, -, hall⟩ := hw
  have hwaiting : count Pc.isWaiting s'.pc = count Pc.isWaiting s.pc := by
    refine count_congr fun q => ?_
    rw [hpc]
    dsimp only
    split_ifs
    · exact Pc.isWaiting_signal _
    · rfl
  have hperm : s'.sem.permits_ ≤ s.sem.permits_ + n.toNat ∧ s'.sem.waiters = s.sem.waiters := by
    rw [hs']
    exact ⟨release_permits_le (asInt_eq_iff.mp hint).1 n, release_waiters _ _⟩
  refine ⟨?_, by rw [hs']; exact h.calm, fun hpos => ?_⟩
  · rw [hperm.2, hwaiting, h.waiters]
  · have hold := h.woken
    rcases hall with hlen | hall
    · omega
    · -- then everybody who waits has a signal
      have hfull : pending s' = s.sem.waiters := by
        rw [h.waiters]
        refine count_congr fun q => ?_
        rw [hpc]
        dsimp only
        split_ifs with hq
        · exact Pc.isSignalled_signal _
        · have hq := hall q
          cases hp : s.pc q <;> simp_all [Pc.isWaiting, Pc.isSignalled]
      omega

theorem move (h : Wakeful s) (hint : asInt s.sem.permits_ = s.sem.permits_) (hm : Move s s' a es)
    (ha : a.noInterrupt = true) : Wakeful s' := by
  cases hm with
  | @start p timed hp hs' =>
    rw [hs']
    exact h.outside (p := p) rfl rfl rfl (by rw [hp]; rfl) rfl
  | @top p timed c hp hs' =>
    rw [hs']
    exact h.outside (p := p) rfl rfl rfl (by rw [hp]; rfl) rfl
  | @throws _ p timed c e hp hs' =>
    rw [hs']
    exact h.outside (p := p) rfl rfl rfl (by rcases hp with hp | hp <;> rw [hp] <;> rfl) rfl
  | interrupted _ hi =>
    rw [h.calm] at hi
    cases hi
  | lock hp he => exact h.lock hp he
  | wake hp he => exact h.wake hp he
  | release _ hw hs' => exact h.release hint hw hs'
  | interrupt => cases ha

end Wakeful

theorem run_wakeful (hr : Run (machine initial) π s) (hC : Meets (fun _ a => a.noInterrupt) π) : Wakeful s := by
  induction hr with
  | start =>
    refine ⟨(count_eq_zero.mpr fun _ => rfl).symm, rfl, fun _ => ?_⟩
    simp [machine]
  | snoc hr hstep ih =>
    obtain ⟨hπ, ha⟩ := meets_snoc.mp hC
    exact (ih hπ).move (run_isInt hr) (step_move hstep) ha

/-- **No lost wakeup.**  Without interruption, while there are free permits as many waiters have a signal under
way as there are permits, or all of them; so with a free permit and a waiter somebody is about to wake. -/
theorem no_lost_wakeup (hr : Run (machine initial) π s) (hC : Meets (fun _ a => a.noInterrupt) π)
    (hpos : 0 < s.sem.permits_) : min s.sem.permits_ (count Pc.isWaiting s.pc) ≤ pending s ∧
      ((∃ p, (s.pc p).isWaiting = true) → ∃ q, (s.pc q).isSignalled = true) := by
  have h := run_wakeful hr hC
  have hmin := h.woken hpos
  rw [h.waiters] at hmin
  refine ⟨hmin, fun hex => ?_⟩
  have hone : 0 < count Pc.isWaiting s.pc := count_pos_iff.mpr hex
  exact count_pos_iff.mp (show 0 < pending s by omega)

/-- Two threads wait, and one permit is released: one of them has a signal, and the other one will wait on. -/
theorem no_lost_wakeup_two :
    ∃ (π : _) (s : World (Fin 2)), Run (machine 0) π s ∧ count Pc.isWaiting s.pc = 2 ∧
      min s.sem.permits_ (count Pc.isWaiting s.pc) ≤ pending s ∧
      ((∃ p, (s.pc p).isWaiting = true) → ∃ q, (s.pc q).isSignalled = true) := by
  obtain ⟨π, s, hr, hp⟩ := exists_run_of_replay (M := machine 0)
    (p := fun π s => decide (0 < s.sem.permits_ ∧ count Pc.isWaiting s.pc = 2 ∧
      Meets (fun _ (a : Act (Fin 2)) => a.noInterrupt) π))
    [.acquire (0 : Fin 2) false, .run 0, .run 0, .acquire 1 true, .run 1, .run 1, .release 1 [1]]
    (by decide)
  obtain ⟨hpos, htwo, hC⟩ := of_decide_eq_true hp
  exact ⟨π, s, hr, htwo, no_lost_wakeup hr hC hpos⟩

end Step

end Lasagne.Daf.Semaphore
