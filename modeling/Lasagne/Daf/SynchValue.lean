import Lasagne.Trans.Run
import Lasagne.Trans.Count
import Lasagne.Daf.Semaphore

/-!
# Lasagne.Daf.SynchValue — `DAF::SynchValue`

A setter passes `setterGate_`, counts the waiters, stores its value, wakes everybody and takes one permit of
`itemTaken_` for every waiter it has counted.  A waiter gives one whenever it returns from its wait, and then looks
at the value again.

A machine step is one section under the lock of the monitor, one section of a semaphore, or one read of
`value_` outside the lock.  A waiter that returns from its wait holds the lock over two steps: the setter may take
the permit that it gives, and return, before it has looked.  Nobody interrupts the monitor or the semaphores before
the object is destroyed.

* `Move` and `step_move`: what a step can do.
* `gate_open_iff`: when no setter is in progress the gate is open, exactly if no setter has left without giving
  its permit back.
-/

namespace Lasagne.Daf

open Lasagne.Trans

namespace SynchValue

/-! ## Threads -/

/-- Where a thread is. -/
inductive Pc (T : Type*) where
  | idle
  /-- about to run a section of `setterGate_.acquire()` -/
  | gate (value : T)
  /-- blocked in it -/
  | gateWait (value : T)
  /-- past the gate, about to compare -/
  | compare (value : T)
  /-- about to lock the monitor in `setValue` -/
  | store (value : T)
  /-- at the test of the loop in `itemTaken_.acquire(permits)` -/
  | taking (permits : ℤ)
  /-- blocked in it -/
  | takeWait (permits : ℤ)
  /-- about to call `setterGate_.release()` -/
  | ungate
  /-- about to lock the monitor in `waitValue`; `timed`: `msec` is given -/
  | enter (timed : Bool) (value : T)
  /-- in `wait`; `notified`: there was a `broadcast` since it got there -/
  | waiting (timed : Bool) (value : T) (notified : Bool)
  /-- back from it with the lock, and with its permit given: about to look at the value -/
  | looking (timed : Bool) (value : T) (notified : Bool)
deriving DecidableEq, Repr

/-- What `broadcast` does to a thread. -/
def Pc.notify {T : Type*} : Pc T → Pc T
  | .waiting timed value _ => .waiting timed value true
  | x => x

/-- The exceptions of `waitValue`. -/
inductive Exn where
  | timeout
  | illegalThreadState
deriving DecidableEq, Repr

/-- What happens in a run. -/
inductive Event (ι T : Type*) where
  | setRet (p : ι) (r : ℤ)
  /-- `p` stores its value -/
  | stored (p : ι) (value : T)
  | waitRet (p : ι) (r : ℤ)
  | waitThrew (p : ι) (e : Exn)
deriving DecidableEq, Repr

/-- The fields of the object, and the threads. -/
structure World (ι T : Type*) where
  value_ : T
  shutdown_ : Bool
  waiters_ : ℕ
  itemTaken_ : Semaphore
  setterGate_ : Semaphore
  /-- who has the lock of the monitor between two steps -/
  owner : Option ι
  pc : ι → Pc T

/-- One action of one thread; `expired`: `end_time` has passed. -/
inductive Act (ι T : Type*) where
  | setValue (p : ι) (value : T)
  | waitValue (p : ι) (timed : Bool) (value : T)
  /-- the next section of `setValue` -/
  | run (p : ι)
  /-- the first section of `waitValue` under the lock -/
  | enter (p : ι) (expired : Bool)
  /-- the section after a wait; a waiter has the lock again and gives its permit -/
  | wake (p : ι)
  /-- the rest of it -/
  | look (p : ι) (expired : Bool)
  /-- the lock of the monitor cannot be had -/
  | noGuard (p : ι)
deriving DecidableEq, Repr

/-! ## Sections -/

section Step

variable {ι T : Type*} [DecidableEq ι] [DecidableEq T]

def World.goto (s : World ι T) (p : ι) (x : Pc T) : World ι T :=
  { s with pc := Function.update s.pc p x }

/-- A section of `setterGate_.acquire()`. -/
def gateEnds (s : World ι T) (p : ι) (value : T) (r : Semaphore × Acquire) : World ι T :=
  { s.goto p (match r.2 with
      | .acquired => .compare value
      | .blocked => .gateWait value
      | .retry => .gate value
      | .failed => .compare value) with setterGate_ := r.1 }

/-- A section of `Semaphore::acquire()` in `itemTaken_.acquire(permits)`; its result does not matter. -/
def takeEnds (s : World ι T) (p : ι) (permits : ℤ) (r : Semaphore × Acquire) : World ι T :=
  { s.goto p (match r.2 with
      | .acquired => .taking (permits - 1)
      | .blocked => .takeWait permits
      | .retry => .taking permits
      | .failed => .taking (permits - 1)) with itemTaken_ := r.1 }

/-- `int(this->waiters_ - 1 + this->itemTaken_.permits())`. -/
def setWaiters (s : World ι T) : ℤ := Int.bmod (s.waiters_ - 1 + s.itemTaken_.permits_) (2 ^ 32)

/-- The section of `setValue` under the lock. -/
def store (s : World ι T) (p : ι) (value : T) : World ι T × List (Event ι T) :=
  if s.shutdown_ then (s.goto p .idle, [.setRet p (-1)])
  else
    ({ s with
        value_ := value
        pc := Function.update (fun q => (s.pc q).notify) p (.taking (setWaiters s)) }, [.stored p value])

/-- From the test of the loop in `waitValue` to the wait or the end, with the lock and counted in `waiters_`. -/
def waitLoop (s : World ι T) (p : ι) (timed : Bool) (value : T) (expired : Bool) :
    World ι T × List (Event ι T) :=
  let left := { s.goto p .idle with waiters_ := s.waiters_ - 1 }
  if s.value_ = value then
    (left, [if s.shutdown_ then .waitThrew p .illegalThreadState else .waitRet p 0])
  else if s.shutdown_ then (left, [.waitThrew p .illegalThreadState])
  else if timed ∧ expired then (left, [.waitThrew p .timeout])
  else (s.goto p (.waiting timed value false), [])

/-- One step of one thread. -/
def step (s : World ι T) : Act ι T → Option (World ι T × List (Event ι T))
  | .setValue p value =>
    match s.pc p with
    | .idle => some (if s.shutdown_ then (s, [.setRet p (-1)]) else (s.goto p (.gate value), []))
    | _ => none
  | .waitValue p timed value =>
    match s.pc p with
    | .idle =>
      some (if s.value_ = value then (s, [.waitRet p 0])
        else if s.shutdown_ then (s, [.waitThrew p .illegalThreadState])
        else (s.goto p (.enter timed value), []))
    | _ => none
  | .run p =>
    match s.pc p with
    | .gate value => some (gateEnds s p value s.setterGate_.acquire, [])
    | .compare value =>
      -- the permit of the gate is not given back
      if s.value_ = value then some (s.goto p .idle, [.setRet p 0])
      else if s.shutdown_ then some (s.goto p .ungate, [])
      else some (s.goto p (.store value), [])
    | .store value => if s.owner = none then some (store s p value) else none
    | .taking permits =>
      if permits ≥ 0 then some (takeEnds s p permits s.itemTaken_.acquire, [])
      else some (s.goto p .ungate, [])
    | .ungate => some ({ s.goto p .idle with setterGate_ := s.setterGate_.release 1 }, [.setRet p 0])
    | _ => none
  | .enter p expired =>
    match s.pc p with
    | .enter timed value =>
      if s.owner = none then some (waitLoop { s with waiters_ := s.waiters_ + 1 } p timed value expired) else none
    | _ => none
  | .wake p =>
    match s.pc p with
    | .gateWait value => some (gateEnds s p value (s.setterGate_.resume .woken), [])
    | .takeWait permits => some (takeEnds s p permits (s.itemTaken_.resume .woken), [])
    | .waiting timed value notified =>
      if s.owner = none then
        some ({ s.goto p (.looking timed value notified) with
          itemTaken_ := s.itemTaken_.release 1
          owner := some p }, [])
      else none
    | _ => none
  | .look p expired =>
    match s.pc p with
    | .looking timed value _ => some (waitLoop { s with owner := none } p timed value expired)
    | _ => none
  | .noGuard p =>
    match s.pc p with
    | .store _ => some (s.goto p .idle, [.setRet p (-1)])
    | .enter _ _ => some (s.goto p .idle, [.waitRet p (-1)])
    | _ => none

/-- Any number of threads at a new object. -/
def machine (value : T) : Machine (World ι T) (Act ι T) (Event ι T) where
  init := ⟨value, false, 0, ⟨0, 0⟩, ⟨1, 0⟩, none, fun _ => .idle⟩
  step := step

/-! ## Moves -/

/-- A setter that leaves without giving the permit of the gate back: it finds its value there, or cannot have
the lock. -/
def loses (s : World ι T) : Act ι T → Bool
  | .run p =>
    match s.pc p with
    | .compare value => s.value_ = value
    | .store _ => s.shutdown_
    | _ => false
  | .noGuard p =>
    match s.pc p with
    | .store _ => true
    | _ => false
  | _ => false

/-- What a step can do, before the object is destroyed. -/
inductive Move (s s' : World ι T) : Act ι T → List (Event ι T) → Prop
  /-- a call starts, or returns at once -/
  | call {a : Act ι T} {p : ι} {x : Pc T} {es : List (Event ι T)} : s.pc p = .idle →
      (x = .idle ∨ (∃ v, x = .gate v) ∨ ∃ timed v, x = .enter timed v) → s' = s.goto p x →
      (∀ q v, .stored q v ∉ es) → (∀ q r, .setRet q r ∉ es) → loses s a = false → Move s s' a es
  /-- a section of the gate -/
  | gate {a : Act ι T} {p : ι} {v : T} {r : Semaphore × Acquire} :
      (s.pc p = .gate v ∧ r = s.setterGate_.acquire) ∨
        (s.pc p = .gateWait v ∧ r = s.setterGate_.resume .woken) →
      s' = gateEnds s p v r → loses s a = false → Move s s' a []
  /-- a setter leaves with the permit of the gate -/
  | lose {a : Act ι T} {p : ι} {r : ℤ} :
      ((∃ v, s.pc p = .compare v) ∨ ∃ v, s.pc p = .store v) → s' = s.goto p .idle → loses s a = true →
      Move s s' a [.setRet p r]
  | pass {p : ι} {v : T} : s.pc p = .compare v → s.value_ ≠ v → s' = s.goto p (.store v) →
      Move s s' (.run p) []
  | store {p : ι} {v : T} : s.pc p = .store v → s.owner = none →
      s' = { s with
        value_ := v
        pc := Function.update (fun q => (s.pc q).notify) p (.taking (setWaiters s)) } →
      Move s s' (.run p) [.stored p v]
  /-- a section of `itemTaken_.acquire` -/
  | take {a : Act ι T} {p : ι} {n : ℤ} {r : Semaphore × Acquire} :
      (s.pc p = .taking n ∧ 0 ≤ n ∧ r = s.itemTaken_.acquire) ∨
        (s.pc p = .takeWait n ∧ r = s.itemTaken_.resume .woken) →
      s' = takeEnds s p n r → loses s a = false → Move s s' a []
  | taken {p : ι} {n : ℤ} : s.pc p = .taking n → n < 0 → s' = s.goto p .ungate → Move s s' (.run p) []
  | ungate {p : ι} : s.pc p = .ungate →
      s' = { s.goto p .idle with setterGate_ := s.setterGate_.release 1 } → Move s s' (.run p) [.setRet p 0]
  /-- a waiter comes in, and waits or leaves -/
  | enter {a : Act ι T} {p : ι} {timed : Bool} {v : T} {es : List (Event ι T)} : s.pc p = .enter timed v →
      (s' = { s.goto p (.waiting timed v false) with waiters_ := s.waiters_ + 1 } ∨ s' = s.goto p .idle) →
      (∀ q v, .stored q v ∉ es) → (∀ q r, .setRet q r ∉ es) → loses s a = false → Move s s' a es
  /-- a waiter has the lock and gives a permit -/
  | wake {p : ι} {timed : Bool} {v : T} {b : Bool} : s.pc p = .waiting timed v b → s.owner = none →
      s' = { s.goto p (.looking timed v b) with
        itemTaken_ := s.itemTaken_.release 1
        owner := some p } → Move s s' (.wake p) []
  /-- and looks, and waits again or leaves -/
  | look {p : ι} {timed expired : Bool} {v : T} {b : Bool} {es : List (Event ι T)} : s.pc p = .looking timed v b →
      ((s.value_ ≠ v ∧ s' = { s.goto p (.waiting timed v false) with owner := none }) ∨
        s' = { s.goto p .idle with waiters_ := s.waiters_ - 1, owner := none }) →
      (s.value_ = v → es = [.waitRet p 0]) → (∀ q v, .stored q v ∉ es) → (∀ q r, .setRet q r ∉ es) →
      Move s s' (.look p expired) es

variable {s s' : World ι T} {a : Act ι T} {es : List (Event ι T)}

/-- Every step is a move. -/
theorem step_move (hd : s.shutdown_ = false) (hs : step s a = some (s', es)) : Move s s' a es := by
  cases a with
  | setValue p v =>
    simp only [step] at hs
    split at hs
    · next hp =>
      simp only [hd, Bool.false_eq_true, if_false, Option.some.injEq, Prod.mk.injEq] at hs
      obtain ⟨rfl, rfl⟩ := hs
      exact .call hp (Or.inr (Or.inl ⟨v, rfl⟩)) rfl (by simp) (by simp) rfl
    · cases hs
  | waitValue p timed v =>
    simp only [step] at hs
    split at hs
    · next hp =>
      simp only [hd, Bool.false_eq_true, if_false, Option.some.injEq] at hs
      split_ifs at hs <;> obtain ⟨rfl, rfl⟩ := by simpa using hs
      · exact .call hp (Or.inl rfl) (by simp [World.goto, ← hp]) (by simp) (by simp) rfl
      · exact .call hp (Or.inr (Or.inr ⟨timed, v, rfl⟩)) rfl (by simp) (by simp) rfl
    · cases hs
  | run p =>
    simp only [step] at hs
    split at hs
    · next v hp =>
      obtain ⟨rfl, rfl⟩ := by simpa using hs
      exact .gate (Or.inl ⟨hp, rfl⟩) rfl (by simp [loses, hp])
    · next v hp =>
      simp only [hd, Bool.false_eq_true, if_false] at hs
      split_ifs at hs with hv <;> obtain ⟨rfl, rfl⟩ := by simpa using hs
      · exact .lose (Or.inl ⟨v, hp⟩) rfl (by simp [loses, hp, hv])
      · exact .pass hp hv rfl
    · next v hp =>
      split_ifs at hs with hfree
      simp only [store, hd, Bool.false_eq_true, if_false] at hs
      obtain ⟨rfl, rfl⟩ := by simpa using hs
      exact .store hp hfree (by simp [hd])
    · next n hp =>
      split_ifs at hs with hn <;> obtain ⟨rfl, rfl⟩ := by simpa using hs
      · exact .take (Or.inl ⟨hp, hn, rfl⟩) rfl (by simp [loses, hp])
      · exact .taken hp (by omega) rfl
    · next hp =>
      obtain ⟨rfl, rfl⟩ := by simpa using hs
      exact .ungate hp rfl
    · cases hs
  | enter p expired =>
    simp only [step] at hs
    split at hs
    · next timed v hp =>
      split_ifs at hs
      simp only [waitLoop, hd, Bool.false_eq_true, if_false] at hs
      split_ifs at hs <;> obtain ⟨rfl, rfl⟩ := by simpa using hs
      · exact .enter hp (Or.inr (by simp [World.goto, hd])) (by simp) (by simp) rfl
      · exact .enter hp (Or.inr (by simp [World.goto, hd])) (by simp) (by simp) rfl
      · exact .enter hp (Or.inl (by simp [World.goto, hd])) (by simp) (by simp) rfl
    · cases hs
  | wake p =>
    simp only [step] at hs
    split at hs
    · next v hp =>
      obtain ⟨rfl, rfl⟩ := by simpa using hs
      exact .gate (Or.inr ⟨hp, rfl⟩) rfl rfl
    · next n hp =>
      obtain ⟨rfl, rfl⟩ := by simpa using hs
      exact .take (Or.inr ⟨hp, rfl⟩) rfl rfl
    · next timed v b hp =>
      split_ifs at hs with hfree
      obtain ⟨rfl, rfl⟩ := by simpa using hs
      exact .wake hp hfree rfl
    · cases hs
  | look p expired =>
    simp only [step] at hs
    split at hs
    · next timed v b hp =>
      simp only [waitLoop, hd, Bool.false_eq_true, if_false] at hs
      split_ifs at hs with hv ht <;> obtain ⟨rfl, rfl⟩ := by simpa using hs
      · exact .look hp (Or.inr (by simp [World.goto, hd])) (fun _ => rfl) (by simp) (by simp)
      · exact .look hp (Or.inr (by simp [World.goto, hd])) (fun h => absurd h hv) (by simp) (by simp)
      · exact .look hp (Or.inl ⟨hv, by simp [World.goto, hd]⟩) (fun h => absurd h hv) (by simp) (by simp)
    · cases hs
  | noGuard p =>
    simp only [step] at hs
    split at hs
    · next v hp =>
      obtain ⟨rfl, rfl⟩ := by simpa using hs
      exact .lose (Or.inr ⟨v, hp⟩) rfl (by simp [loses, hp])
    · next timed v hp =>
      obtain ⟨rfl, rfl⟩ := by simpa using hs
      exact .enter hp (Or.inr rfl) (by simp) (by simp) (by simp [loses, hp])
    · cases hs

/-- Nobody destroys the object. -/
theorem Move.shutdown (h : Move s s' a es) (hd : s.shutdown_ = false) : s'.shutdown_ = false := by
  cases h with
  | call _ _ h | gate _ h | lose _ h | pass _ _ h | store _ _ h | take _ h | taken _ _ h | ungate _ h | wake _ _ h =>
    rw [h]
    exact hd
  | enter _ h => rcases h with rfl | rfl <;> exact hd
  | look _ h => rcases h with ⟨-, rfl⟩ | rfl <;> exact hd

/-! ## The gate -/

/-- A setter past the gate. -/
def Pc.isPast : Pc T → Bool
  | .compare _ | .store _ | .taking _ | .takeWait _ | .ungate => true
  | _ => false

/-- Blocked at the gate. -/
def Pc.isGateWait : Pc T → Bool
  | .gateWait _ => true
  | _ => false

/-- In `setValue`. -/
def Pc.isSetter : Pc T → Bool
  | .gate _ | .gateWait _ | .compare _ | .store _ | .taking _ | .takeWait _ | .ungate => true
  | _ => false

omit [DecidableEq T] in
@[simp] theorem Pc.isPast_notify (x : Pc T) : x.notify.isPast = x.isPast := by
  cases x <;> rfl

omit [DecidableEq T] in
@[simp] theorem Pc.isGateWait_notify (x : Pc T) : x.notify.isGateWait = x.isGateWait := by
  cases x <;> rfl

variable [Fintype ι]

/-- The permit of the gate is free, with a setter, or lost; and the gate knows who is blocked at it. -/
structure Gated (s : World ι T) (lost : ℕ) : Prop where
  permits : s.setterGate_.permits_ + count Pc.isPast s.pc + lost = 1
  free : 0 ≤ s.setterGate_.permits_
  waiters : s.setterGate_.waiters = count Pc.isGateWait s.pc

namespace Gated

variable {lost : ℕ} {p : ι} {x : Pc T}

omit [DecidableEq T] in
/-- One thread moves, and its permit goes with it. -/
theorem one (h : Gated s lost) {lost' : ℕ} (hpc : s'.pc = Function.update s.pc p x)
    (hperm : s'.setterGate_.permits_ + x.isPast.toNat + lost' =
      s.setterGate_.permits_ + (s.pc p).isPast.toNat + lost) (hfree : 0 ≤ s'.setterGate_.permits_)
    (hwait : s'.setterGate_.waiters + (s.pc p).isGateWait.toNat =
      s.setterGate_.waiters + x.isGateWait.toNat) : Gated s' lost' := by
  have hp := count_update Pc.isPast s.pc p x
  have hw := count_update Pc.isGateWait s.pc p x
  obtain ⟨h1, h2, h3⟩ := h
  refine ⟨?_, hfree, ?_⟩ <;> rw [hpc] <;> omega

omit [DecidableEq T] in
/-- One thread moves on its side of the gate. -/
theorem outside (h : Gated s lost) (hgate : s'.setterGate_ = s.setterGate_)
    (hpc : s'.pc = Function.update s.pc p x) (hpast : x.isPast = (s.pc p).isPast)
    (hwait : x.isGateWait = (s.pc p).isGateWait) : Gated s' lost :=
  h.one hpc (by rw [hgate, hpast]) (by rw [hgate]; exact h.free) (by rw [hgate, hwait])

omit [DecidableEq T] in
/-- A section of the gate. -/
theorem gate (h : Gated s lost) {v : T} {r : Semaphore × Acquire}
    (hr : (s.pc p = .gate v ∧ r = s.setterGate_.acquire) ∨
      (s.pc p = .gateWait v ∧ r = s.setterGate_.resume .woken)) : Gated (gateEnds s p v r) lost := by
  have hfree := h.free
  rcases hr with ⟨hp, rfl⟩ | ⟨hp, rfl⟩
  · rcases s.setterGate_.acquire_cases with ⟨hlt, hr⟩ | ⟨-, hr⟩ <;> rw [hr]
    · refine h.one (p := p) rfl ?_ ?_ ?_ <;> simp only [gateEnds, hp, Pc.isPast, Pc.isGateWait]
      · simp
      · omega
    · refine h.one (p := p) rfl ?_ hfree ?_ <;> simp [gateEnds, hp, Pc.isPast, Pc.isGateWait]
  · have hpos : 0 < s.setterGate_.waiters := by
      rw [h.waiters]
      exact count_pos (i := p) (by rw [hp]; rfl)
    rcases s.setterGate_.resume_cases .woken with ⟨hlt, hr⟩ | ⟨-, hr⟩ <;> rw [hr]
    · refine h.one (p := p) rfl ?_ ?_ ?_ <;> simp only [gateEnds, hp, Pc.isPast, Pc.isGateWait]
      · simp
      · omega
      · simp
        omega
    · refine h.one (p := p) rfl ?_ hfree ?_ <;> simp only [gateEnds, hp, Pc.isPast, Pc.isGateWait]
      simp
      omega

theorem move (h : Gated s lost) (hd : s.shutdown_ = false) (hm : Move s s' a es) :
    Gated s' (lost + (loses s a).toNat) := by
  cases hm with
  | @call a p x es hp hx hs' _ _ hl =>
    rw [hl, hs']
    refine h.outside (p := p) rfl rfl ?_ ?_ <;> rw [hp] <;>
      rcases hx with rfl | ⟨v, rfl⟩ | ⟨t, v, rfl⟩ <;> rfl
  | gate hr hs' hl =>
    rw [hl, hs']
    exact h.gate hr
  | @lose a p r hp hs' hl =>
    rw [hl, hs']
    have hpast : (s.pc p).isPast = true ∧ (s.pc p).isGateWait = false := by
      rcases hp with ⟨v, hp⟩ | ⟨v, hp⟩ <;> rw [hp] <;> exact ⟨rfl, rfl⟩
    refine h.one (p := p) rfl ?_ h.free ?_
    · rw [hpast.1]
      simp [World.goto, Pc.isPast, Int.add_right_comm, Int.add_assoc]
    · rw [hpast.2]
      rfl
  | @pass p v hp hv hs' =>
    rw [show loses s (.run p) = false by simp [loses, hp, hv], hs']
    exact h.outside (p := p) rfl rfl (by rw [hp]; rfl) (by rw [hp]; rfl)
  | @store p v hp _ hs' =>
    rw [show loses s (.run p) = false by simp [loses, hp, hd], hs']
    -- `broadcast` moves nobody to or from the gate
    have hnotify : Gated { s with pc := fun q => (s.pc q).notify } lost := by
      refine ⟨?_, h.free, ?_⟩
      · simpa [count] using h.permits
      · simpa [count] using h.waiters
    refine hnotify.outside (p := p) (x := .taking (setWaiters s)) rfl rfl ?_ ?_
    · show true = (s.pc p).notify.isPast
      rw [hp]
      rfl
    · show false = (s.pc p).notify.isGateWait
      rw [hp]
      rfl
  | @take a p n r hr hs' hl =>
    rw [hl, hs']
    obtain ⟨hpast, hwait⟩ : (s.pc p).isPast = true ∧ (s.pc p).isGateWait = false := by
      rcases hr with ⟨hp, -⟩ | ⟨hp, -⟩ <;> rw [hp] <;> exact ⟨rfl, rfl⟩
    refine h.outside (p := p) rfl rfl ?_ ?_
    · rw [hpast]
      split <;> rfl
    · rw [hwait]
      split <;> rfl
  | @taken p n hp hn hs' =>
    rw [show loses s (.run p) = false by simp [loses, hp], hs']
    exact h.outside (p := p) rfl rfl (by rw [hp]; rfl) (by rw [hp]; rfl)
  | @ungate p hp hs' =>
    rw [show loses s (.run p) = false by simp [loses, hp], hs']
    have hfree := h.free
    have hpermits := h.permits
    have hrelease : (s.setterGate_.release 1).permits_ = s.setterGate_.permits_ + 1 :=
      Semaphore.release_one (by omega) (by omega)
    refine h.one (p := p) rfl ?_ ?_ ?_
    · simp [hp, Pc.isPast, hrelease]
    · simp only [hrelease]
      omega
    · rw [hp]
      simp [Pc.isGateWait]
  | @enter a p timed v es hp hs' _ _ hl =>
    rw [hl]
    rcases hs' with rfl | rfl <;> exact h.outside (p := p) rfl rfl (by rw [hp]; rfl) (by rw [hp]; rfl)
  | @wake p timed v b hp _ hs' =>
    rw [show loses s (.wake p) = false from rfl, hs']
    exact h.outside (p := p) rfl rfl (by rw [hp]; rfl) (by rw [hp]; rfl)
  | @look p timed expired v b es hp hs' =>
    rcases hs' with ⟨-, rfl⟩ | rfl <;> exact h.outside (p := p) rfl rfl (by rw [hp]; rfl) (by rw [hp]; rfl)

end Gated

variable {value : T} {π : List (Taken (World ι T) (Act ι T) (Event ι T))}

omit [Fintype ι] in
/-- The object is not destroyed. -/
theorem run_shutdown (hr : Run (machine value) π s) : s.shutdown_ = false := by
  induction hr with
  | start => rfl
  | snoc _ hstep ih => exact (step_move ih hstep).shutdown ih

/-- The setters that left with the permit of the gate. -/
def lost (π : List (Taken (World ι T) (Act ι T) (Event ι T))) : ℕ := π.countP fun x => loses x.pre x.act

theorem run_gated (hr : Run (machine value) π s) : Gated s (lost π) := by
  induction hr with
  | start =>
    refine ⟨?_, by simp [machine], ?_⟩
    · rw [count_eq_zero.mpr fun _ => rfl]
      rfl
    · rw [count_eq_zero.mpr fun _ => rfl]
      rfl
  | @snoc π s s' a es hr hstep ih =>
    have hd := run_shutdown hr
    have hlost : lost (π ++ [⟨s, a, es⟩]) = lost π + (loses s a).toNat := by
      unfold lost
      rw [List.countP_append, List.countP_singleton]
      cases loses s a <;> rfl
    rw [hlost]
    exact ih.move hd (step_move hd hstep)

/-- The next setter passes the gate at once. -/
structure Open (s : World ι T) : Prop where
  permits : s.setterGate_.permits_ = 1
  acquired : s.setterGate_.acquire.2 = .acquired

/-- **The gate.**  At the end of a run, with no setter in progress, the gate holds its one permit and lets the
next setter pass, exactly if no setter has left without giving the permit back. -/
theorem gate_open_iff (hr : Run (machine value) π s) (hno : ∀ p, (s.pc p).isSetter = false) :
    Open s ↔ Meets (fun s a => loses s a = false) π := by
  obtain ⟨hpermits, -, hwaiters⟩ := run_gated hr
  have hpast : count Pc.isPast s.pc = 0 := count_eq_zero.mpr fun p => by
    have := hno p
    cases hp : s.pc p <;> simp_all [Pc.isSetter, Pc.isPast]
  have hblocked : count Pc.isGateWait s.pc = 0 := count_eq_zero.mpr fun p => by
    have := hno p
    cases hp : s.pc p <;> simp_all [Pc.isSetter, Pc.isGateWait]
  have hmeets : Meets (fun s a => loses s a = false) π ↔ lost π = 0 := by
    simp [Meets, lost, List.countP_eq_zero]
  rw [hmeets]
  constructor
  · intro h
    have := h.permits
    omega
  · intro h
    have hone : s.setterGate_.permits_ = 1 := by omega
    refine ⟨hone, ?_⟩
    rcases s.setterGate_.acquire_cases with ⟨-, hr⟩ | ⟨hle, hr⟩
    · rw [hr]
    · omega

/-- Thread 0 sets 7 while thread 1 waits for it. -/
theorem gate_open_iff_two :
    ∃ (π : _) (s : World (Fin 2) ℕ), Run (machine 0) π s ∧ .setRet 0 0 ∈ events π ∧
      .waitRet 1 0 ∈ events π ∧ Open s := by
  obtain ⟨π, s, hr, hp⟩ := exists_run_of_replay (M := machine 0)
    (p := fun π s => decide ((.setRet 0 0 : Event (Fin 2) ℕ) ∈ events π ∧
      (.waitRet 1 0 : Event (Fin 2) ℕ) ∈ events π ∧
      Meets (fun s (a : Act (Fin 2) ℕ) => loses s a = false) π ∧ ∀ p, (s.pc p).isSetter = false))
    [.waitValue (1 : Fin 2) false 7, .enter 1 false, .setValue 0 7, .run 0, .run 0, .run 0, .run 0,
      .wake 1, .look 1 false, .wake 0, .run 0, .run 0] (by decide)
  obtain ⟨hset, hwait, hC, hno⟩ := of_decide_eq_true hp
  exact ⟨π, s, hr, hset, hwait, (gate_open_iff hr hno).mpr hC⟩

/-- Thread 0 sets the value that is there already, and the gate stays shut. -/
theorem gate_shut_one :
    ¬ ∀ (π : _) (s : World (Fin 1) ℕ), Run (machine 0) π s → (∀ p, (s.pc p).isSetter = false) → Open s := by
  intro h
  obtain ⟨π, s, hr, hp⟩ := exists_run_of_replay (M := machine 0)
    (p := fun _ (s : World (Fin 1) ℕ) => decide (s.setterGate_.permits_ = 0 ∧
      ∀ p, (s.pc p).isSetter = false))
    [.setValue (0 : Fin 1) 0, .run 0, .run 0] (by decide)
  obtain ⟨hpermits, hno⟩ := of_decide_eq_true hp
  have := (h π s hr hno).permits
  omega


end Step

end SynchValue

end Lasagne.Daf
