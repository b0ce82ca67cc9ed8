import Lasagne.Trans.Run
import Mathlib

/-!
# Lasagne.Daf.CountDownSemaphore — `DAF::CountDownSemaphore`

A latch: `acquire` waits until the count is zero, `release` takes several counts at a time and wakes everybody
when there is none left.

A machine step is one section under the lock of the monitor: a whole `release`, or what `acquire` does between two
waits.  Nobody interrupts the monitor.

* `releaseLoop_eq`: the loop of `release` stops at zero.
* `Latched`: what holds between two sections, by one step lemma and one induction.
* `latch`: the count at the end of a run, and who waits once it is zero.
-/

namespace Lasagne.Daf.CountDownSemaphore

open Lasagne.Trans

/-! ## The object and its threads -/

/-- `errno` where `wait` returns `-1`. -/
inductive Errno where
  | EINTR
  | ETIME
  | other
deriving DecidableEq, Repr

/-- How a condition wait returns: `0` (signalled, or woken for no reason), or `-1` with an `errno`. -/
inductive WaitEnd where
  | woken
  | error (errno : Errno)
deriving DecidableEq, Repr

/-- Where a thread is. -/
inductive Pc where
  | idle
  /-- in `wait`; `timed`: `abstime` is given, `signalled`: there was a `broadcast` since it got there -/
  | waiting (timed signalled : Bool)
deriving DecidableEq, Repr

/-- What `broadcast` does to a thread. -/
def Pc.signal : Pc → Pc
  | .waiting timed _ => .waiting timed true
  | .idle => .idle

inductive Exn where
  | interrupted
  | lockFailure
deriving DecidableEq, Repr

/-- What the calls give. -/
inductive Event (ι : Type*) where
  | acquired (p : ι) (r : ℤ)
  | released (p : ι) (count r : ℤ)
  | threw (p : ι) (e : Exn)
deriving DecidableEq, Repr

structure World (ι : Type*) where
  count_ : ℤ
  pc : ι → Pc

/-- One section of one thread. -/
inductive Act (ι : Type*) where
  /-- `acquire`, to its first wait or its end -/
  | acquire (p : ι) (timed : Bool)
  /-- `acquire`, from the return of a wait to the next one or the end -/
  | wake (p : ι) (r : WaitEnd)
  | release (p : ι) (count : ℤ)
  /-- the lock cannot be had -/
  | noGuard (p : ι)
deriving DecidableEq, Repr

section Step

variable {ι : Type*} [DecidableEq ι]

def World.goto (s : World ι) (p : ι) (x : Pc) : World ι :=
  { s with pc := Function.update s.pc p x }

/-- The head of the loop in `acquire`. -/
def acquireLoop (s : World ι) (p : ι) (timed : Bool) : World ι × List (Event ι) :=
  if s.count_ > 0 then (s.goto p (.waiting timed false), [])
  else (s.goto p .idle, [.acquired p 0])

/-- `while (count-- > 0)` with as many rounds left: the count, and whether it broadcasts. -/
def releaseLoop : ℕ → ℤ → ℤ × Bool
  | 0, count_ => (count_, false)
  | n + 1, count_ => if count_ - 1 = 0 then (count_ - 1, true) else releaseLoop n (count_ - 1)

/-- `release(count)`. -/
def release (s : World ι) (p : ι) (count : ℤ) : World ι × List (Event ι) :=
  if s.count_ > 0 then
    let r := releaseLoop count.toNat s.count_
    ({ count_ := r.1, pc := if r.2 then fun q => (s.pc q).signal else s.pc }, [.released p count 0])
  else (s, [.released p count 0])

/-- One section of one thread.  Only a wait that was given a time runs out of it. -/
def step (s : World ι) : Act ι → Option (World ι × List (Event ι))
  | .acquire p timed =>
    match s.pc p with
    | .idle => some (acquireLoop s p timed)
    | .waiting _ _ => none
  | .wake p r =>
    match s.pc p with
    | .idle => none
    | .waiting timed _ =>
      match r with
      | .woken => some (acquireLoop s p timed)
      | .error .EINTR => some (s.goto p .idle, [.threw p .interrupted])
      | .error .ETIME =>
        if timed then
          some (if 0 ≥ s.count_ then acquireLoop s p timed else (s.goto p .idle, [.acquired p (-1)]))
        else none
      | .error .other => some (s.goto p .idle, [.acquired p (-1)])
  | .release p count =>
    match s.pc p with
    | .idle => some (release s p count)
    | .waiting _ _ => none
  | .noGuard p =>
    match s.pc p with
    | .idle => some (s, [.threw p .lockFailure])
    | .waiting _ _ => none

/-- Any number of threads at a new `CountDownSemaphore(count)`. -/
def machine (count : ℤ) : Machine (World ι) (Act ι) (Event ι) where
  init := ⟨max 0 count, fun _ => .idle⟩
  step := step

/-! ## What a section does -/

/-- The loop of `release` takes what it can, and broadcasts if it comes to zero. -/
theorem releaseLoop_eq (n : ℕ) {c : ℤ} (hc : 0 < c) :
    releaseLoop n c = (max 0 (c - n), decide (c ≤ n)) := by
  induction n generalizing c with
  | zero =>
    have hmax : max 0 (c - (0 : ℕ)) = c := by omega
    rw [hmax, decide_eq_false (by omega)]
    rfl
  | succ n ih =>
    unfold releaseLoop
    split_ifs with h1
    · have hmax : max 0 (c - (n + 1 : ℕ)) = c - 1 := by omega
      rw [hmax, decide_eq_true (by omega)]
    · have hmax : max 0 (c - (n + 1 : ℕ)) = max 0 (c - 1 - n) := by omega
      have hle : decide (c ≤ (n + 1 : ℕ)) = decide (c - 1 ≤ n) := by
        rw [decide_eq_decide]
        omega
      rw [ih (by omega), hmax, hle]

/-- What a section can do: the count goes down in a `release` only, and who comes to wait finds it positive. -/
inductive Move (s s' : World ι) : Act ι → List (Event ι) → Prop
  /-- a round of `acquire` that waits -/
  | wait {a : Act ι} {p : ι} {timed : Bool} : 0 < s.count_ → s' = s.goto p (.waiting timed false) →
      Move s s' a []
  /-- a round of `acquire` that is the last one -/
  | pass {a : Act ι} {p : ι} : s.count_ ≤ 0 → s' = s.goto p .idle → Move s s' a [.acquired p 0]
  /-- `acquire` gives up -/
  | fail {p : ι} {r : WaitEnd} {e : Event ι} : e = .acquired p (-1) ∨ e = .threw p .interrupted →
      r ≠ .woken → (r = .error .ETIME → 0 < s.count_) → s' = s.goto p .idle → Move s s' (.wake p r) [e]
  | release {p : ι} {count : ℤ} :
      s' = ⟨max 0 (s.count_ - count.toNat), if s.count_ ≤ count.toNat then fun q => (s.pc q).signal else s.pc⟩ →
      0 < s.count_ → Move s s' (.release p count) [.released p count 0]
  /-- a `release` at zero -/
  | late {p : ι} {count : ℤ} : s.count_ ≤ 0 → s' = s → Move s s' (.release p count) [.released p count 0]
  | noGuard {p : ι} : s' = s → Move s s' (.noGuard p) [.threw p .lockFailure]

variable {s s' : World ι} {a : Act ι} {es : List (Event ι)}

theorem acquireLoop_move {p : ι} {timed : Bool} (h : acquireLoop s p timed = (s', es)) : Move s s' a es := by
  unfold acquireLoop at h
  split_ifs at h with hc <;> obtain ⟨rfl, rfl⟩ := Prod.mk.inj h
  · exact .wait hc rfl
  · exact .pass (by omega) rfl

theorem release_move {p : ι} {count : ℤ} (h : release s p count = (s', es)) :
    Move s s' (.release p count) es := by
  unfold release at h
  split_ifs at h with hc
  · rw [releaseLoop_eq _ hc] at h
    obtain ⟨rfl, rfl⟩ := Prod.mk.inj h
    exact .release (by simp only [decide_eq_true_eq]) hc
  · obtain ⟨rfl, rfl⟩ := Prod.mk.inj h
    exact .late (by omega) rfl

/-- Every step is a move. -/
theorem step_move (hs : step s a = some (s', es)) : Move s s' a es := by
  cases a with
  | acquire p timed =>
    simp only [step] at hs
    split at hs
    · exact acquireLoop_move (Option.some.inj hs)
    · cases hs
  | wake p r =>
    simp only [step] at hs
    split at hs
    · cases hs
    · split at hs
      · exact acquireLoop_move (Option.some.inj hs)
      · obtain ⟨rfl, rfl⟩ := by simpa using hs
        exact .fail (Or.inr rfl) (by simp) (by simp) rfl
      · split_ifs at hs with htimed hc
        · exact acquireLoop_move (Option.some.inj hs)
        · obtain ⟨rfl, rfl⟩ := by simpa using hs
          exact .fail (Or.inl rfl) (by simp) (fun _ => by omega) rfl
      · obtain ⟨rfl, rfl⟩ := by simpa using hs
        exact .fail (Or.inl rfl) (by simp) (by simp) rfl
  | release p count =>
    simp only [step] at hs
    split at hs
    · exact release_move (Option.some.inj hs)
    · cases hs
  | noGuard p =>
    simp only [step] at hs
    split at hs
    · obtain ⟨rfl, rfl⟩ := by simpa using hs
      exact .noGuard rfl
    · cases hs

/-! ## The latch -/

/-- The counts that a call has asked to release. -/
def Event.permits : Event ι → ℕ
  | .released _ count _ => count.toNat
  | _ => 0

/-- The sum of the positive counts released. -/
def released (tr : List (Event ι)) : ℕ := (tr.map Event.permits).sum

/-- What holds between two sections. -/
structure Latched (count : ℤ) (tr : List (Event ι)) (s : World ι) : Prop where
  count_eq : s.count_ = max 0 (count - released tr)
  signalled : s.count_ = 0 → ∀ p timed signalled, s.pc p = .waiting timed signalled → signalled = true

variable {count : ℤ} {tr : List (Event ι)}

omit [DecidableEq ι] in
theorem Latched.nonneg (h : Latched count tr s) : 0 ≤ s.count_ := by
  have := h.count_eq
  omega

omit [DecidableEq ι] in
theorem released_append (tr es : List (Event ι)) : released (tr ++ es) = released tr + released es := by
  unfold released
  rw [List.map_append, List.sum_append]

omit [DecidableEq ι] in
theorem released_singleton (e : Event ι) : released [e] = e.permits := by
  simp [released]

/-- A thread leaves `acquire`. -/
theorem Latched.leave (h : Latched count tr s) (p : ι) (hes : released es = 0) :
    Latched count (tr ++ es) (s.goto p .idle) := by
  refine ⟨?_, fun h0 q timed signalled hq => ?_⟩
  · rw [released_append, hes]
    exact h.count_eq
  · by_cases hqp : q = p
    · subst hqp
      simp [World.goto] at hq
    · exact h.signalled h0 q timed signalled (by simpa [World.goto, hqp] using hq)

theorem Latched.move (h : Latched count tr s) (hm : Move s s' a es) : Latched count (tr ++ es) s' := by
  have hnonneg := h.nonneg
  have heq := h.count_eq
  cases hm with
  | @wait a p timed hc hs' =>
    subst hs'
    rw [List.append_nil]
    refine ⟨heq, fun h0 => ?_⟩
    have h0 : s.count_ = 0 := h0
    omega
  | @pass a p hc hs' =>
    rw [hs']
    exact h.leave p (released_singleton _)
  | @fail p r e he _ _ hs' =>
    rw [hs']
    refine h.leave p ?_
    rcases he with rfl | rfl <;> exact released_singleton _
  | @release p count' hs' hc =>
    rw [hs']
    refine ⟨?_, fun h0 q timed signalled hq => ?_⟩
    · rw [released_append, released_singleton]
      show max 0 (s.count_ - count'.toNat) = max 0 (count - ((released tr + count'.toNat : ℕ) : ℤ))
      omega
    · -- it comes to zero, so it has broadcast
      have h0 : max 0 (s.count_ - count'.toNat) = 0 := h0
      simp only [if_pos (show s.count_ ≤ count'.toNat by omega)] at hq
      cases hp : s.pc q with
      | idle =>
        rw [hp] at hq
        cases hq
      | waiting t b =>
        rw [hp] at hq
        obtain ⟨-, rfl⟩ := Pc.waiting.inj hq
        rfl
  | @late p count' hc hs' =>
    rw [hs']
    refine ⟨?_, h.signalled⟩
    rw [released_append, released_singleton]
    show s.count_ = max 0 (count - ((released tr + count'.toNat : ℕ) : ℤ))
    omega
  | noGuard hs' =>
    rw [hs']
    refine ⟨?_, h.signalled⟩
    rw [released_append, released_singleton]
    exact heq

variable {π : List (Taken (World ι) (Act ι) (Event ι))}

theorem run_latched (hr : Run (machine count) π s) : Latched count (events π) s := by
  refine Run.inv (C := fun _ _ => True) (P := Latched count) ?_ ?_ hr fun _ _ => trivial
  · refine ⟨?_, fun _ p timed signalled hp => ?_⟩
    · show max 0 count = max 0 (count - (0 : ℕ))
      omega
    · cases hp
  · intro tr s a s' es _ h hstep
    exact h.move (step_move hstep)

/-- Once it is zero the count stays so. -/
theorem count_zero_of_append {ρ : List (Taken (World ι) (Act ι) (Event ι))} (hr : Run (machine count) π s)
    (h0 : s.count_ = 0) (hr' : Run (machine count) (π ++ ρ) s') : s'.count_ = 0 := by
  have h := (run_latched hr).count_eq
  have h' := (run_latched hr').count_eq
  rw [show events (π ++ ρ) = events π ++ events ρ by simp [events], released_append] at h'
  omega

/-- Who comes to `acquire` at zero leaves with `0`, also where its wait has run out of time. -/
theorem step_zero (h0 : s.count_ = 0) (hs : step s a = some (s', es)) :
    (∀ p timed, a = .acquire p timed → s' = s.goto p .idle ∧ es = [.acquired p 0]) ∧
      ∀ p r, a = .wake p r → r = .woken ∨ r = .error .ETIME → s' = s.goto p .idle ∧ es = [.acquired p 0] := by
  have hloop : ∀ p timed, acquireLoop s p timed = (s.goto p .idle, [.acquired p 0]) := by
    intro p timed
    unfold acquireLoop
    rw [if_neg (by omega)]
  constructor
  · rintro p timed rfl
    simp only [step] at hs
    split at hs
    · rw [hloop] at hs
      obtain ⟨rfl, rfl⟩ := by simpa using hs
      exact ⟨rfl, rfl⟩
    · cases hs
  · rintro p r rfl hr
    simp only [step] at hs
    split at hs
    · cases hs
    · rcases hr with rfl | rfl
      · rw [hloop] at hs
        obtain ⟨rfl, rfl⟩ := by simpa using hs
        exact ⟨rfl, rfl⟩
      · split_ifs at hs with htimed hc
        · rw [hloop] at hs
          obtain ⟨rfl, rfl⟩ := by simpa using hs
          exact ⟨rfl, rfl⟩
        · omega

/-- Only at zero does `acquire` return `0`. -/
theorem Move.count_of_acquired (hm : Move s s' a es) {p : ι} (h : .acquired p 0 ∈ es) :
    s.count_ ≤ 0 ∧ s'.count_ = s.count_ := by
  cases hm with
  | pass hc hs' => exact ⟨hc, by rw [hs']; rfl⟩
  | fail he => rcases he with rfl | rfl <;> simp at h
  | wait | release | late | noGuard => simp at h

/-- **The latch.**  In every run the count is what the constructor was given less the positive counts released,
and zero at least; `acquire` returns `0` only at zero; and once it is zero everybody who waits was signalled, and
every later `acquire` returns without a wait, as does everybody woken later. -/
theorem latch (hr : Run (machine count) π s) :
    s.count_ = max 0 (count - released (events π)) ∧
    (∀ x ∈ π, ∀ p, .acquired p 0 ∈ x.out → x.pre.count_ = 0) ∧
    (s.count_ = 0 →
      (∀ p timed signalled, s.pc p = .waiting timed signalled → signalled = true) ∧
      ∀ ρ x s', Run (machine count) (π ++ ρ ++ [x]) s' →
        (∀ p timed, x.act = .acquire p timed → s'.pc p = .idle ∧ x.out = [.acquired p 0]) ∧
        ∀ p r, x.act = .wake p r → r = .woken ∨ r = .error .ETIME →
          s'.pc p = .idle ∧ x.out = [.acquired p 0]) := by
  have h := run_latched hr
  refine ⟨h.count_eq, fun x hx p hp => ?_, fun h0 => ⟨h.signalled h0, fun ρ x s' hr' => ?_⟩⟩
  · obtain ⟨π₁, π₂, rfl⟩ := List.append_of_mem hx
    obtain ⟨t, ht⟩ := hr.split π₂
    obtain ⟨hpre, hstep⟩ := ht.snoc_inv
    have hle := ((step_move hstep).count_of_acquired hp).1
    have hge := (run_latched hpre).nonneg
    omega
  · obtain ⟨hpre, hstep⟩ := hr'.snoc_inv
    obtain ⟨hacq, hwake⟩ := step_zero (count_zero_of_append hr h0 hpre) hstep
    have hidle : ∀ p, (x.pre.goto p .idle).pc p = .idle := fun p => by simp [World.goto]
    refine ⟨fun p timed ha => ?_, fun p r ha hr => ?_⟩
    · obtain ⟨rfl, hout⟩ := hacq p timed ha
      exact ⟨hidle p, hout⟩
    · obtain ⟨rfl, hout⟩ := hwake p r ha hr
      exact ⟨hidle p, hout⟩

/-- Thread 0 waits for two counts; thread 1 gives `-5`, then more than there are, and 0 runs out of time. -/
theorem latch_two :
    ∃ (π : _) (s : World (Fin 2)), Run (machine 2) π s ∧ .acquired 0 0 ∈ events π ∧ s.count_ = 0 := by
  obtain ⟨π, s, hr, hp⟩ := exists_run_of_replay (M := machine 2)
    (p := fun π (_ : World (Fin 2)) => decide ((.acquired 0 0 : Event (Fin 2)) ∈ events π ∧
      released (events π) = 7))
    [.acquire (0 : Fin 2) true, .release 1 (-5), .release 1 7, .wake 0 (.error .ETIME)] (by decide)
  obtain ⟨hacq, hsum⟩ := of_decide_eq_true hp
  refine ⟨π, s, hr, hacq, ?_⟩
  rw [(latch hr).1, hsum]
  rfl

end Step

end Lasagne.Daf.CountDownSemaphore
