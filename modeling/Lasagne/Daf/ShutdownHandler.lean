import Mathlib
import Lasagne.Trans.Run
import Lasagne.Daf.Semaphore

/-!
# Lasagne.Daf.ShutdownHandler — who waits for the shutdown, and who sends it

The state is set without the lock of the monitor and read without it first; `send_shutdown` takes the lock to notify, and
`wait_shutdown` to look again and to wait.  It can be set back.  The lock can be had, and nobody interrupts the monitor.

* `waited_told`: what `wait_shutdown` returns;
* `none_left_waiting`: when the state is set and every `send_shutdown` has notified, each thread that waits goes on, and
  is told 0;
* `wait_TAFServer_leaves`: where the state is not set back, a `_wait_TAFServer` that has waited for some time does not
  wait again.
-/

namespace Lasagne.Daf

open Lasagne.Trans

namespace ShutdownHandler

/-! ## Threads -/

/-- Who calls `wait_shutdown`. -/
inductive Caller
  | wait_shutdown
  /-- `_wait_TAFServer`, for its seconds -/
  | seconds
  /-- `_wait_TAFServer`, without an end; `after`: when it has waited for its seconds -/
  | forever (after : Bool)
deriving DecidableEq

/-- Who calls `send_shutdown`. -/
inductive Sender
  | send_shutdown
  | handle_signal
  /-- `_wait_TAFServer`, when its seconds are over -/
  | seconds
deriving DecidableEq

inductive Pc
  | idle
  /-- about to call `has_shutdown` -/
  | asking (timed : Bool) (caller : Caller)
  /-- about to lock the monitor -/
  | locking (timed : Bool) (caller : Caller)
  | waiting (timed notified : Bool) (caller : Caller)
  /-- about to set the state -/
  | sending (state : Bool) (sender : Sender)
  /-- has set it, and is about to lock the monitor and notify -/
  | notifying (sender : Sender)
deriving DecidableEq

structure World (ι : Type*) where
  has_shutdown_ : Bool
  pc : ι → Pc

/-- `handled` is what `handle_shutdown` returns, or nothing where it throws. -/
inductive Act (ι : Type*)
  | wait_shutdown (p : ι) (timed : Bool)
  | wait_TAFServer (p : ι) (secs : ℕ)
  | send_shutdown (p : ι) (state : Bool)
  /-- `TAFServer_impl::shutdown` -/
  | shutdown (p : ι)
  | handle_signal (p : ι) (signal : ℕ) (handled : Option ℤ)
  /-- goes on -/
  | run (p : ι)
  /-- returns from the wait -/
  | wake (p : ι) (r : WaitResult)
deriving DecidableEq

inductive Event (ι : Type*)
  /-- the state is set -/
  | sent (state : Bool)
  /-- `wait_shutdown` returns -/
  | waited (p : ι) (timed : Bool) (rc : ℤ)
  /-- `handle_signal` returns -1, and the reactor lets go of the handler -/
  | unhooked (p : ι)
  /-- the signal is left to `ACE_Event_Handler` -/
  | left (p : ι) (signal : ℕ)
deriving DecidableEq

/-! ## Sections -/

/-- `SIGINT` and `SIGTERM`. -/
def sigs_ : List ℕ := [2, 15]

variable {ι : Type*} [DecidableEq ι]

def World.goto (s : World ι) (p : ι) (x : Pc) : World ι := { s with pc := Function.update s.pc p x }

/-- A thread that waits is notified. -/
def Pc.notify : Pc → Pc
  | .waiting timed _ caller => .waiting timed true caller
  | x => x

/-- `wait_shutdown` has returned. -/
def World.returned (s : World ι) (p : ι) (timed : Bool) (rc : ℤ) : Caller → World ι × List (Event ι)
  | .wait_shutdown | .forever _ => (s.goto p .idle, [.waited p timed rc])
  | .seconds => (s.goto p (if rc ≠ 0 then .sending true .seconds else .asking false (.forever true)), [.waited p timed rc])

/-- `send_shutdown` has returned. -/
def World.sent (s : World ι) (p : ι) : Sender → World ι × List (Event ι)
  | .send_shutdown => (s.goto p .idle, [])
  | .handle_signal => (s.goto p .idle, [.unhooked p])
  | .seconds => (s.goto p (.asking false (.forever true)), [])

/-- One step of one thread. -/
def step (s : World ι) : Act ι → Option (World ι × List (Event ι))
  | .wait_shutdown p timed =>
    match s.pc p with
    | .idle => some (s.goto p (.asking timed .wait_shutdown), [])
    | _ => none
  | .wait_TAFServer p secs =>
    match s.pc p with
    | .idle => some (s.goto p (if secs ≠ 0 then .asking true .seconds else .asking false (.forever false)), [])
    | _ => none
  | .send_shutdown p state =>
    match s.pc p with
    | .idle => some (s.goto p (.sending state .send_shutdown), [])
    | _ => none
  | .shutdown p =>
    match s.pc p with
    | .idle => some (if s.has_shutdown_ then s else s.goto p (.sending true .send_shutdown), [])
    | _ => none
  | .handle_signal p signal handled =>
    match s.pc p with
    | .idle =>
      if signal ∈ sigs_ ∧ (handled = some 0 ∨ handled = none) then some (s.goto p (.sending true .handle_signal), [])
      else some (s, [.left p signal])
    | _ => none
  | .run p =>
    match s.pc p with
    | .asking timed caller =>
      some (if s.has_shutdown_ then s.returned p timed 0 caller else (s.goto p (.locking timed caller), []))
    | .locking timed caller =>
      some (if s.has_shutdown_ then s.returned p timed 0 caller else (s.goto p (.waiting timed false caller), []))
    | .sending state sender => some ({ s.goto p (.notifying sender) with has_shutdown_ := state }, [.sent state])
    | .notifying sender => some ({ s with pc := fun q => (s.pc q).notify }.sent p sender)
    | _ => none
  | .wake p r =>
    match s.pc p with
    | .waiting timed _ caller =>
      match r with
      | .timedOut => if timed then some (s.returned p timed (-1) caller) else none
      | .woken =>
        some (if s.has_shutdown_ then s.returned p timed 0 caller else (s.goto p (.waiting timed false caller), []))
    | _ => none

/-- Any number of threads. -/
def machine (ι : Type*) [DecidableEq ι] : Machine (World ι) (Act ι) (Event ι) := ⟨⟨false, fun _ => .idle⟩, step⟩

/-! ## Steps -/

/-- Where a call starts. -/
def Pc.Starts : Pc → Prop
  | .asking _ caller => caller ≠ .forever true
  | .sending state sender => sender = .send_shutdown ∨ sender = .handle_signal ∧ state = true
  | _ => False

/-- In `wait_shutdown`, for this caller. -/
def Pc.asks (timed : Bool) (caller : Caller) (x : Pc) : Prop :=
  x = .asking timed caller ∨ x = .locking timed caller ∨ ∃ notified, x = .waiting timed notified caller

/-- What a step can do. -/
inductive Does (s s' : World ι) : List (Event ι) → Prop
  | starts {p : ι} {x : Pc} : s.pc p = .idle → x.Starts → s' = s.goto p x → Does s s' []
  | ignores {es : List (Event ι)} : s' = s → (es = [] ∨ ∃ p signal, es = [.left p signal]) → Does s s' es
  | returns {p : ι} {timed : Bool} {rc : ℤ} {caller : Caller} {es : List (Event ι)} : (s.pc p).asks timed caller →
      (rc = 0 ∧ s.has_shutdown_ = true ∨ rc = -1 ∧ timed = true) → (s', es) = s.returned p timed rc caller → Does s s' es
  | locks {p : ι} {timed : Bool} {caller : Caller} : s.pc p = .asking timed caller → s.has_shutdown_ = false →
      s' = s.goto p (.locking timed caller) → Does s s' []
  | waits {p : ι} {timed : Bool} {caller : Caller} : (s.pc p).asks timed caller → (∀ timed, s.pc p ≠ .asking timed caller) →
      s.has_shutdown_ = false → s' = s.goto p (.waiting timed false caller) → Does s s' []
  | sets {p : ι} {state : Bool} {sender : Sender} : s.pc p = .sending state sender →
      s' = { s.goto p (.notifying sender) with has_shutdown_ := state } → Does s s' [.sent state]
  | notifies {p : ι} {sender : Sender} {es : List (Event ι)} : s.pc p = .notifying sender →
      (s', es) = { s with pc := fun q => (s.pc q).notify }.sent p sender → Does s s' es

variable {s s' : World ι} {a : Act ι} {es tr : List (Event ι)}

theorem does_of_step (h : step s a = some (s', es)) : Does s s' es := by
  cases a with
  | wait_shutdown p timed =>
    simp only [step] at h
    split at h
    · next hp =>
      cases h
      exact .starts hp (by simp [Pc.Starts]) rfl
    · cases h
  | wait_TAFServer p secs =>
    simp only [step] at h
    split at h
    · next hp =>
      cases h
      refine .starts hp ?_ rfl
      split_ifs <;> simp [Pc.Starts]
    · cases h
  | send_shutdown p state =>
    simp only [step] at h
    split at h
    · next hp =>
      cases h
      exact .starts hp (by simp [Pc.Starts]) rfl
    · cases h
  | shutdown p =>
    simp only [step] at h
    split at h
    · next hp =>
      cases h
      split_ifs
      · exact .ignores rfl (.inl rfl)
      · exact .starts hp (by simp [Pc.Starts]) rfl
    · cases h
  | handle_signal p signal handled =>
    simp only [step] at h
    split at h
    · next hp =>
      split_ifs at h
      · cases h
        exact .starts hp (by simp [Pc.Starts]) rfl
      · cases h
        exact .ignores rfl (.inr ⟨p, signal, rfl⟩)
    · cases h
  | run p =>
    simp only [step] at h
    split at h
    · next timed caller hp =>
      have h := Option.some.inj h
      split_ifs at h with hflag
      · exact .returns (.inl hp) (.inl ⟨rfl, hflag⟩) h.symm
      · cases h
        exact .locks hp (by simpa using hflag) rfl
    · next timed caller hp =>
      have h := Option.some.inj h
      split_ifs at h with hflag
      · exact .returns (.inr (.inl hp)) (.inl ⟨rfl, hflag⟩) h.symm
      · cases h
        exact .waits (.inr (.inl hp)) (by simp [hp]) (by simpa using hflag) rfl
    · next state sender hp =>
      cases h
      exact .sets hp rfl
    · next sender hp => exact .notifies hp (Option.some.inj h).symm
    · cases h
  | wake p r =>
    simp only [step] at h
    split at h
    · next timed notified caller hp =>
      cases r with
      | timedOut =>
        dsimp only at h
        split_ifs at h with htimed
        exact .returns (.inr (.inr ⟨notified, hp⟩)) (.inr ⟨rfl, htimed⟩) (Option.some.inj h).symm
      | woken =>
        have h := Option.some.inj h
        split_ifs at h with hflag
        · exact .returns (.inr (.inr ⟨notified, hp⟩)) (.inl ⟨rfl, hflag⟩) h.symm
        · cases h
          exact .waits (.inr (.inr ⟨notified, hp⟩)) (by simp [hp]) (by simpa using hflag) rfl
    · cases h

omit [DecidableEq ι] in
@[simp] theorem Pc.notify_eq_waiting {x : Pc} {timed notified : Bool} {caller : Caller} :
    x.notify = .waiting timed notified caller ↔ notified = true ∧ ∃ b, x = .waiting timed b caller := by
  cases x <;> simp [Pc.notify]
  grind

/-! ## What is told -/

/-- The state that was set last. -/
def lastSent (tr : List (Event ι)) : Bool :=
  tr.foldl (fun b e => match e with
    | .sent state => state
    | _ => b) false

omit [DecidableEq ι] in
theorem lastSent_append (tr es : List (Event ι)) : lastSent (tr ++ es) = es.foldl (fun b e => match e with
    | .sent state => state
    | _ => b) (lastSent tr) :=
  List.foldl_append ..

theorem World.returned_out {p : ι} {timed : Bool} {rc : ℤ} {caller : Caller} :
    (s.returned p timed rc caller).2 = [.waited p timed rc] ∧
      (s.returned p timed rc caller).1.has_shutdown_ = s.has_shutdown_ := by
  cases caller <;> exact ⟨rfl, rfl⟩

theorem World.sent_out (s : World ι) (p : ι) (sender : Sender) :
    ((s.sent p sender).2 = [] ∨ (s.sent p sender).2 = [.unhooked p]) ∧
      (s.sent p sender).1.has_shutdown_ = s.has_shutdown_ := by
  cases sender
  · exact ⟨.inl rfl, rfl⟩
  · exact ⟨.inr rfl, rfl⟩
  · exact ⟨.inl rfl, rfl⟩

/-- The state is the one that was set last, and what `wait_shutdown` has returned. -/
structure Known (tr : List (Event ι)) (s : World ι) : Prop where
  flag : s.has_shutdown_ = lastSent tr
  told : ∀ l p timed rc, l ++ [.waited p timed rc] <+: tr → rc = 0 ∧ lastSent l = true ∨ rc = -1 ∧ timed = true

/-- What a step tells. -/
theorem Does.told (hd : Does s s' es) {l : List (Event ι)} {p : ι} {timed : Bool} {rc : ℤ}
    (hl : l ++ [.waited p timed rc] <+: es) :
    l = [] ∧ (rc = 0 ∧ s.has_shutdown_ = true ∨ rc = -1 ∧ timed = true) := by
  have hmem : .waited p timed rc ∈ es := hl.subset (List.mem_append_right _ (List.mem_singleton_self _))
  cases hd with
  | starts | locks | waits => cases hmem
  | ignores _ hes =>
    rcases hes with rfl | ⟨p', signal, rfl⟩
    · cases hmem
    · cases List.mem_singleton.mp hmem
  | @returns p' timed' rc' caller es hp hrc he =>
    obtain rfl : es = [.waited p' timed' rc'] := (congrArg Prod.snd he).trans World.returned_out.1
    obtain ⟨rfl, rfl, rfl⟩ : p = p' ∧ timed = timed' ∧ rc = rc' := by simpa using hmem
    have hlen := hl.length_le
    rw [List.length_append, List.length_singleton] at hlen
    exact ⟨List.eq_nil_of_length_eq_zero (by omega), hrc⟩
  | sets => cases List.mem_singleton.mp hmem
  | @notifies p' sender es hp he =>
    obtain rfl : es = _ := congrArg Prod.snd he
    rcases (World.sent_out { s with pc := fun q => (s.pc q).notify } p' sender).1 with h | h
    · rw [h] at hmem
      cases hmem
    · rw [h] at hmem
      cases List.mem_singleton.mp hmem

theorem Does.flag (hd : Does s s' es) (h : s.has_shutdown_ = lastSent tr) : s'.has_shutdown_ = lastSent (tr ++ es) := by
  rw [lastSent_append, ← h]
  cases hd with
  | starts _ _ hs' | locks _ _ hs' | waits _ _ _ hs' | sets _ hs' =>
    rw [hs']
    rfl
  | ignores hs' hes =>
    rw [hs']
    rcases hes with rfl | ⟨p, signal, rfl⟩ <;> rfl
  | @returns p timed rc caller es hp hrc he =>
    obtain rfl : s' = _ := congrArg Prod.fst he
    obtain rfl : es = _ := congrArg Prod.snd he
    rw [World.returned_out.1, World.returned_out.2]
    rfl
  | @notifies p sender es hp he =>
    obtain rfl : s' = _ := congrArg Prod.fst he
    obtain rfl : es = _ := congrArg Prod.snd he
    have hout := World.sent_out { s with pc := fun q => (s.pc q).notify } p sender
    rw [hout.2]
    rcases hout.1 with h | h
    · rw [h]
      rfl
    · rw [h]
      rfl

variable {π : List (Taken (World ι) (Act ι) (Event ι))}

theorem known_of_run (hr : Run (machine ι) π s) : Known (events π) s := by
  have hstart : Known [] (machine ι).init := by
    refine ⟨rfl, fun l p timed rc hl => ?_⟩
    have hnil := List.prefix_nil.mp hl
    simp at hnil
  refine Run.inv (C := fun _ _ => True) hstart (fun tr s a s' es _ h hstep => ?_) hr fun _ _ => trivial
  have hd := does_of_step hstep
  refine ⟨hd.flag h.flag, fun l p timed rc hl => ?_⟩
  rcases prefix_snoc_append hl with hl | ⟨l', hl', rfl⟩
  · exact h.told l p timed rc hl
  · obtain ⟨rfl, hrc⟩ := hd.told hl'
    rw [List.append_nil, ← h.flag]
    exact hrc

/-- `wait_shutdown` returns 0 only when the state that was set last is the shutdown, and else -1 to a caller with a
time. -/
theorem waited_told (hr : Run (machine ι) π s) {l : List (Event ι)} {p : ι} {timed : Bool} {rc : ℤ}
    (hl : l ++ [.waited p timed rc] <+: events π) : rc = 0 ∧ lastSent l = true ∨ rc = -1 ∧ timed = true :=
  (known_of_run hr).told l p timed rc hl

/-- One who has waited for some time may be told so when the shutdown was sent already; the other one is told of it. -/
theorem waited_told_late : ∃ π s, Run (machine (Fin 3)) π s ∧
    events π = [.sent true, .waited 2 true (-1), .waited 0 false 0] ∧
    (∀ (p : Fin 3) timed rc, [.sent true, .waited p timed rc] <+: events π →
      rc = 0 ∧ lastSent [Event.sent (ι := Fin 3) true] = true ∨ rc = -1 ∧ timed = true) ∧
    ((0 : ℤ) = 0 ∧ lastSent [Event.sent true, .waited (2 : Fin 3) true (-1)] = true ∨ (0 : ℤ) = -1 ∧ false = true) := by
  obtain ⟨π, s, hr, hp⟩ := exists_run_of_replay (M := machine (Fin 3))
    (p := fun π _ => decide (events π = [.sent true, .waited 2 true (-1), .waited 0 false 0]))
    [.wait_shutdown 0 false, .run 0, .run 0, .wait_shutdown 2 true, .run 2, .run 2, .send_shutdown 1 true, .run 1,
      .wake 2 .timedOut, .run 1, .wake 0 .woken] (by decide)
  have hevents := of_decide_eq_true hp
  exact ⟨π, s, hr, hevents, fun p timed rc hl => waited_told hr (l := [.sent true]) hl,
    waited_told hr (l := [.sent true, .waited 2 true (-1)]) (p := 0) ⟨[], by rw [hevents]; rfl⟩⟩

/-! ## Who goes on waiting -/

/-- Where the state is set, nobody waits who is not notified, unless somebody is about to notify. -/
def NoneLeft (s : World ι) : Prop := s.has_shutdown_ = true → (∀ p sender, s.pc p ≠ .notifying sender) →
  ∀ p timed caller, s.pc p ≠ .waiting timed false caller

omit [DecidableEq ι] in
theorem NoneLeft.of_false (h : s.has_shutdown_ = false) : NoneLeft s := by
  intro hflag
  rw [h] at hflag
  cases hflag

/-- A thread goes on that does not come to wait, and was not about to notify. -/
theorem NoneLeft.goto (h : NoneLeft s) {p : ι} {x : Pc} (hp : ∀ sender, s.pc p ≠ .notifying sender)
    (hx : ∀ timed caller, x ≠ .waiting timed false caller) : NoneLeft (s.goto p x) := by
  intro hflag hno q timed caller
  show Function.update s.pc p x q ≠ _
  by_cases hq : q = p
  · rw [hq, Function.update_self]
    exact hx timed caller
  · rw [Function.update_of_ne hq]
    refine h hflag (fun q' sender hq' => ?_) q timed caller
    by_cases hqp : q' = p
    · exact hp sender (hqp ▸ hq')
    · refine hno q' sender ?_
      show Function.update s.pc p x q' = _
      rw [Function.update_of_ne hqp, hq']

theorem NoneLeft.step (h : NoneLeft s) (hd : Does s s' es) : NoneLeft s' := by
  cases hd with
  | @starts p x hp hx hs' =>
    rw [hs']
    refine h.goto (by simp [hp]) fun timed caller heq => ?_
    rw [heq] at hx
    exact hx
  | ignores hs' =>
    rw [hs']
    exact h
  | @returns p timed rc caller es hp hrc he =>
    have hno : ∀ sender, s.pc p ≠ .notifying sender := by
      rcases hp with hp | hp | ⟨_, hp⟩ <;> simp [hp]
    obtain rfl : s' = _ := congrArg Prod.fst he
    cases caller with
    | wait_shutdown | forever => exact h.goto hno (by simp)
    | seconds =>
      refine h.goto hno fun timed caller => ?_
      split_ifs <;> simp
  | locks hp hflag hs' | waits hp hno hflag hs' => exact .of_false (by rw [hs']; exact hflag)
  | @sets p state sender hp hs' =>
    -- somebody is about to notify
    intro _ hno
    refine absurd ?_ (hno p sender)
    rw [hs']
    show Function.update s.pc p _ p = _
    rw [Function.update_self]
  | @notifies p sender es hp he =>
    obtain rfl : s' = _ := congrArg Prod.fst he
    have hx : ∃ x, (∀ timed caller, x ≠ .waiting timed false caller) ∧
        (World.sent { s with pc := fun q => (s.pc q).notify } p sender).1.pc =
          Function.update (fun q => (s.pc q).notify) p x := by
      cases sender <;> exact ⟨_, by simp, rfl⟩
    obtain ⟨x, hx, hpc⟩ := hx
    intro _ _ q timed caller
    rw [hpc]
    by_cases hq : q = p
    · rw [hq, Function.update_self]
      exact hx timed caller
    · rw [Function.update_of_ne hq]
      simp

theorem noneLeft_of_run (hr : Run (machine ι) π s) : NoneLeft s := by
  have hstart : NoneLeft (machine ι).init := .of_false rfl
  exact Run.inv (C := fun _ _ => True) (P := fun _ s => NoneLeft s) hstart
    (fun tr s a s' es _ h hstep => h.step (does_of_step hstep)) hr fun _ _ => trivial

/-- When the state is set and every `send_shutdown` has notified, each thread in `wait_shutdown` goes on by itself, and is
told 0: one that waits is notified, and another one does not come to wait. -/
theorem none_left_waiting (hr : Run (machine ι) π s) (hflag : s.has_shutdown_ = true)
    (hno : ∀ p sender, s.pc p ≠ .notifying sender) {p : ι} {timed : Bool} {caller : Caller}
    (hp : (s.pc p).asks timed caller) :
    (step s (.run p) = some (s.returned p timed 0 caller) ∨
        s.pc p = .waiting timed true caller ∧ step s (.wake p .woken) = some (s.returned p timed 0 caller)) ∧
      .waited p timed 0 ∈ (s.returned p timed 0 caller).2 := by
  refine ⟨?_, by rw [World.returned_out.1]; exact List.mem_singleton_self _⟩
  rcases hp with hp | hp | ⟨notified, hp⟩
  · refine .inl ?_
    simp only [step, hp, hflag, if_true]
  · refine .inl ?_
    simp only [step, hp, hflag, if_true]
  · cases notified with
    | false => exact absurd hp (noneLeft_of_run hr hflag hno p timed caller)
    | true =>
      refine .inr ⟨hp, ?_⟩
      simp only [step, hp, hflag, if_true]

theorem none_left_waiting_signal : ∃ π s, Run (machine (Fin 2)) π s ∧ s.pc 0 = .waiting false true .wait_shutdown ∧
    step s (.wake 0 .woken) = some (s.returned 0 false 0 .wait_shutdown) := by
  obtain ⟨π, s, hr, hp⟩ := exists_run_of_replay (M := machine (Fin 2))
    (p := fun (_ : List (Taken (World (Fin 2)) (Act (Fin 2)) (Event (Fin 2)))) s => decide (s.has_shutdown_ = true ∧
      s.pc 0 = .waiting false true .wait_shutdown ∧ s.pc 1 = .idle ∧ step s (.run 0) = none))
    [.wait_shutdown 0 false, .run 0, .run 0, .handle_signal 1 15 (some 0), .run 1, .run 1] (by decide)
  obtain ⟨hflag, hwaiting, hidle, hrun⟩ := of_decide_eq_true hp
  have hno : ∀ p sender, s.pc p ≠ .notifying sender := by
    intro p sender
    fin_cases p
    · simp [hwaiting]
    · simp [hidle]
  obtain ⟨hgo | ⟨-, hgo⟩, -⟩ := none_left_waiting hr hflag hno (.inr (.inr ⟨true, hwaiting⟩))
  · rw [hrun] at hgo
    cases hgo
  · exact ⟨π, s, hr, hwaiting, hgo⟩

/-! ## `_wait_TAFServer` -/

/-- Where the state is `flag`, a `_wait_TAFServer` that has waited for its seconds does not wait. -/
def Pc.Leaves (flag : Bool) : Pc → Prop
  | .asking _ caller => caller = .forever true → flag = true
  | .locking _ caller | .waiting _ _ caller => caller ≠ .forever true
  | .sending state sender => sender = .seconds → state = true
  | .notifying sender => sender = .seconds → flag = true
  | .idle => True

omit [DecidableEq ι] in
theorem Pc.Leaves.mono {x : Pc} {flag : Bool} (h : x.Leaves flag) : x.Leaves true := by
  cases x with
  | asking | notifying => exact fun _ => rfl
  | _ => exact h

omit [DecidableEq ι] in
theorem Pc.leaves_notify {x : Pc} {flag : Bool} : x.notify.Leaves flag ↔ x.Leaves flag := by
  cases x <;> rfl

/-- One thread goes on. -/
theorem leaves_goto (h : ∀ p, (s.pc p).Leaves s.has_shutdown_) {p : ι} {x : Pc} (hx : x.Leaves s.has_shutdown_) (q : ι) :
    ((s.goto p x).pc q).Leaves s.has_shutdown_ := by
  show Pc.Leaves _ (Function.update s.pc p x q)
  by_cases hq : q = p
  · rw [hq, Function.update_self]
    exact hx
  · rw [Function.update_of_ne hq]
    exact h q

theorem leaves_step (h : ∀ p, (s.pc p).Leaves s.has_shutdown_) (hd : Does s s' es) (hes : .sent false ∉ es) :
    ∀ p, (s'.pc p).Leaves s'.has_shutdown_ := by
  cases hd with
  | @starts p x hp hx hs' =>
    rw [hs']
    refine leaves_goto h ?_
    cases x with
    | asking => exact fun heq => absurd heq hx
    | sending =>
      rintro rfl
      simp [Pc.Starts] at hx
    | idle => trivial
    | locking | waiting | notifying => exact hx.elim
  | ignores hs' =>
    rw [hs']
    exact h
  | @returns p timed rc caller es hp hrc he =>
    obtain rfl : s' = _ := congrArg Prod.fst he
    cases caller with
    | wait_shutdown | forever => exact leaves_goto h trivial
    | seconds =>
      refine leaves_goto h ?_
      split_ifs with hzero
      · exact fun _ => rfl
      · exact fun _ => (hrc.resolve_right fun hfail => hzero (by rw [hfail.1]; decide)).2
  | @locks p timed caller hp hflag hs' =>
    rw [hs']
    refine leaves_goto h fun hcaller => ?_
    have hset := h p
    rw [hp] at hset
    rw [hset hcaller] at hflag
    cases hflag
  | @waits p timed caller hp hno hflag hs' =>
    rw [hs']
    refine leaves_goto h ?_
    have hset := h p
    rcases hp with hp | hp | ⟨_, hp⟩
    · exact absurd hp (hno timed)
    · rw [hp] at hset
      exact hset
    · rw [hp] at hset
      exact hset
  | @sets p state sender hp hs' =>
    obtain rfl : state = true := by
      cases state
      · simp at hes
      · rfl
    rw [hs']
    intro q
    show Pc.Leaves true (Function.update s.pc p _ q)
    by_cases hq : q = p
    · rw [hq, Function.update_self]
      exact fun _ => rfl
    · rw [Function.update_of_ne hq]
      exact (h q).mono
  | @notifies p sender es hp he =>
    obtain rfl : s' = _ := congrArg Prod.fst he
    have hsender := h p
    rw [hp] at hsender
    have hnotified : ∀ q, ((s.pc q).notify).Leaves s.has_shutdown_ := fun q => Pc.leaves_notify.mpr (h q)
    cases sender with
    | send_shutdown | handle_signal => exact leaves_goto (s := { s with pc := fun q => (s.pc q).notify }) hnotified trivial
    | seconds =>
      exact leaves_goto (s := { s with pc := fun q => (s.pc q).notify }) hnotified fun _ => hsender rfl

/-- Where the state is not set back, a `_wait_TAFServer` that has waited for its seconds does not wait again: when it asks,
the state is set. -/
theorem wait_TAFServer_leaves (hr : Run (machine ι) π s) (hsent : .sent false ∉ events π) {p : ι} {timed : Bool}
    (hp : (s.pc p).asks timed (.forever true)) : s.pc p = .asking timed (.forever true) ∧ s.has_shutdown_ = true := by
  have hleaves : ∀ p, (s.pc p).Leaves s.has_shutdown_ := by
    have hrun := Run.inv (C := fun _ _ => True)
      (P := fun tr s => .sent false ∉ tr → ∀ p, (s.pc p).Leaves s.has_shutdown_) (fun _ _ => trivial)
      (fun tr s a s' es _ h hstep hno => by
        rw [List.mem_append, not_or] at hno
        exact leaves_step (h hno.1) (does_of_step hstep) hno.2) hr fun _ _ => trivial
    exact hrun hsent
  have hset := hleaves p
  rcases hp with hp | hp | ⟨_, hp⟩
  · rw [hp] at hset
    exact ⟨hp, hset rfl⟩
  · rw [hp] at hset
    exact absurd rfl hset
  · rw [hp] at hset
    exact absurd rfl hset

theorem wait_TAFServer_leaves_late : ∃ π s, Run (machine (Fin 1)) π s ∧ events π = [.waited 0 true (-1), .sent true] ∧
    s.pc 0 = .asking false (.forever true) ∧ s.has_shutdown_ = true := by
  obtain ⟨π, s, hr, hp⟩ := exists_run_of_replay (M := machine (Fin 1))
    (p := fun (π : List (Taken (World (Fin 1)) (Act (Fin 1)) (Event (Fin 1)))) s =>
      decide (events π = [.waited 0 true (-1), .sent true] ∧ s.pc 0 = .asking false (.forever true)))
    [.wait_TAFServer 0 5, .run 0, .run 0, .wake 0 .timedOut, .run 0, .run 0] (by decide)
  obtain ⟨hevents, hpc⟩ := of_decide_eq_true hp
  exact ⟨π, s, hr, hevents, wait_TAFServer_leaves hr (by rw [hevents]; decide) (.inl hpc)⟩

end ShutdownHandler

end Lasagne.Daf
