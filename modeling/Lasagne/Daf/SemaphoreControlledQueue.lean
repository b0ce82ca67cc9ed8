import Lasagne.Trans.Count
import Lasagne.Trans.Calls
import Lasagne.Daf.Semaphore

/-!
# Lasagne.Daf.SemaphoreControlledQueue — `DAF::SemaphoreControlledChannel` over a queue

A `put` takes a permit of `putGuard_`, inserts and gives a permit to `takeGuard_`; a `take` does the same the
other way round.  A copy that throws is made good by giving the first permit back.

A machine step is one section under one of the three locks: of a guard, or of the queue.  Nobody interrupts the
channel, and `copy` says whether the copy of an item throws.

* `Guarded`: where the permits are, and which of them stand for the items of the queue.
* `sound_iff`: the channel is a bounded queue in every run, exactly if its capacity fits an `int`.
-/

namespace Lasagne.Daf

open Lasagne.Trans

namespace SemaphoreControlledQueue

/-! ## Threads -/

/-- Where a thread is in its call number `c` (a put) or `d` (a take); `timed`: `abstime` is given. -/
inductive Pc (T : Type*) where
  | idle
  /-- about to run a section of `putGuard_.acquire` -/
  | putGate (timed : Bool) (c : ℕ) (t : T)
  /-- blocked in it -/
  | putWait (timed : Bool) (c : ℕ) (t : T)
  /-- about to insert -/
  | inserting (c : ℕ) (t : T)
  /-- about to call `takeGuard_.release()` -/
  | filled (c : ℕ)
  /-- the copy threw: about to call `putGuard_.release()` -/
  | unput (c : ℕ)
  | takeGate (timed : Bool) (d : ℕ)
  | takeWait (timed : Bool) (d : ℕ)
  /-- about to extract -/
  | extracting (d : ℕ)
  /-- about to call `putGuard_.release()` -/
  | emptied (d : ℕ) (t : T)
  /-- the copy threw: about to call `takeGuard_.release()` -/
  | untake (d : ℕ)
deriving DecidableEq, Repr

inductive Exn where
  | timeout
  /-- what the copy threw -/
  | copy
deriving DecidableEq, Repr

/-- What happens in a run. -/
inductive Event (T : Type*) where
  /-- `put(t)` is called -/
  | put (c : ℕ) (t : T)
  | inserted (c : ℕ) (t : T)
  | extracted (d : ℕ) (t : T)
  /-- `c` returns `0` -/
  | putRet (c : ℕ)
  /-- `c` returns `-1` -/
  | putFail (c : ℕ)
  | putThrew (c : ℕ)
  | takeRet (d : ℕ) (t : T)
  | takeThrew (d : ℕ) (e : Exn)
deriving DecidableEq, Repr

/-- The fields of the channel, and the threads. -/
structure World (ι T : Type*) where
  channelQ_ : List T
  putGuard_ : Semaphore
  takeGuard_ : Semaphore
  pc : ι → Pc T
  calls : ℕ

/-- One action of one thread. -/
inductive Act (ι T : Type*) where
  | put (p : ι) (timed : Bool) (t : T)
  | take (p : ι) (timed : Bool)
  /-- the next section of a guard -/
  | run (p : ι)
  /-- the section of a guard after its wait -/
  | wake (p : ι) (r : WaitResult)
  /-- the section of the queue -/
  | copy (p : ι) (throws : Bool)
deriving DecidableEq, Repr

/-! ## Sections -/

section Step

variable {ι T : Type*} [DecidableEq ι]

def World.goto (s : World ι T) (p : ι) (x : Pc T) : World ι T :=
  { s with pc := Function.update s.pc p x }

/-- A section of `putGuard_.acquire(abstime)`. -/
def putEnds (s : World ι T) (p : ι) (timed : Bool) (c : ℕ) (t : T) (r : Semaphore × Acquire) :
    World ι T × List (Event T) :=
  let s' := { s with putGuard_ := r.1 }
  match r.2 with
  | .acquired => (s'.goto p (.inserting c t), [])
  | .blocked => (s'.goto p (.putWait timed c t), [])
  | .retry => (s'.goto p (.putGate timed c t), [])
  | .failed => (s'.goto p .idle, [.putFail c])

/-- A section of `takeGuard_.acquire(abstime)`. -/
def takeEnds (s : World ι T) (p : ι) (timed : Bool) (d : ℕ) (r : Semaphore × Acquire) :
    World ι T × List (Event T) :=
  let s' := { s with takeGuard_ := r.1 }
  match r.2 with
  | .acquired => (s'.goto p (.extracting d), [])
  | .blocked => (s'.goto p (.takeWait timed d), [])
  | .retry => (s'.goto p (.takeGate timed d), [])
  | .failed => (s'.goto p .idle, [.takeThrew d .timeout])

/-- `insert(t)`: `push_back` leaves the queue as it is if the copy throws. -/
def insert (s : World ι T) (p : ι) (c : ℕ) (t : T) (throws : Bool) : World ι T × List (Event T) :=
  if throws then (s.goto p (.unput c), [])
  else ({ s.goto p (.filled c) with channelQ_ := s.channelQ_ ++ [t] }, [.inserted c t])

/-- `extract(t)`: the front is copied before it is popped; `none`: there is no front. -/
def extract (s : World ι T) (p : ι) (d : ℕ) (throws : Bool) : Option (World ι T × List (Event T)) :=
  match s.channelQ_ with
  | [] => none
  | t :: queue =>
    if throws then some (s.goto p (.untake d), [])
    else some ({ s.goto p (.emptied d t) with channelQ_ := queue }, [.extracted d t])

/-- One step of one thread. -/
def step (s : World ι T) : Act ι T → Option (World ι T × List (Event T))
  | .put p timed t =>
    match s.pc p with
    | .idle => some ({ s.goto p (.putGate timed s.calls t) with calls := s.calls + 1 }, [.put s.calls t])
    | _ => none
  | .take p timed =>
    match s.pc p with
    | .idle => some ({ s.goto p (.takeGate timed s.calls) with calls := s.calls + 1 }, [])
    | _ => none
  | .run p =>
    match s.pc p with
    | .putGate timed c t => some (putEnds s p timed c t s.putGuard_.acquire)
    | .filled c => some ({ s.goto p .idle with takeGuard_ := s.takeGuard_.release 1 }, [.putRet c])
    | .unput c => some ({ s.goto p .idle with putGuard_ := s.putGuard_.release 1 }, [.putThrew c])
    | .takeGate timed d => some (takeEnds s p timed d s.takeGuard_.acquire)
    | .emptied d t => some ({ s.goto p .idle with putGuard_ := s.putGuard_.release 1 }, [.takeRet d t])
    | .untake d =>
      some ({ s.goto p .idle with takeGuard_ := s.takeGuard_.release 1 }, [.takeThrew d .copy])
    | _ => none
  | .wake p r =>
    match s.pc p with
    | .putWait timed c t =>
      -- a wait without `abstime` does not time out
      if r = .timedOut ∧ timed = false then none
      else some (putEnds s p timed c t (s.putGuard_.resume r))
    | .takeWait timed d =>
      if r = .timedOut ∧ timed = false then none
      else some (takeEnds s p timed d (s.takeGuard_.resume r))
    | _ => none
  | .copy p throws =>
    match s.pc p with
    | .inserting c t => some (insert s p c t throws)
    | .extracting d => extract s p d throws
    | _ => none

/-- Any number of threads at a new channel. -/
def machine (capacity : ℕ) : Machine (World ι T) (Act ι T) (Event T) where
  init := ⟨[], ⟨toInt capacity, 0⟩, ⟨0, 0⟩, fun _ => .idle, 0⟩
  step := step

end Step

/-! ## Moves -/

section Moves

variable {ι T : Type*}

/-- The call a thread is in. -/
def Pc.call : Pc T → Option ℕ
  | .idle => none
  | .putGate _ c _ | .putWait _ c _ | .inserting c _ | .filled c | .unput c => some c
  | .takeGate _ d | .takeWait _ d | .extracting d | .emptied d _ | .untake d => some d

/-- A thread that holds a permit. -/
def Pc.holds : Pc T → Bool
  | .inserting _ _ | .filled _ | .unput _ | .extracting _ | .emptied _ _ | .untake _ => true
  | _ => false

/-- A thread whose permit stands for an item of the queue. -/
def Pc.owns : Pc T → Bool
  | .filled _ | .extracting _ | .untake _ => true
  | _ => false

/-- The call that an event ends. -/
def Event.ends : Event T → Option ℕ
  | .putRet c | .putFail c | .putThrew c => some c
  | .takeRet d _ | .takeThrew d _ => some d
  | _ => none

/-- The item that is inserted. -/
def Event.item : Event T → Option T
  | .inserted _ t => some t
  | _ => none

/-- The item that is extracted. -/
def Event.out : Event T → Option T
  | .extracted _ t => some t
  | _ => none

variable [DecidableEq ι]

/-- What a step can do. -/
inductive Move (s s' : World ι T) : List (Event T) → Prop
  | put {p : ι} {timed : Bool} {t : T} : s.pc p = .idle →
      s' = { s.goto p (.putGate timed s.calls t) with calls := s.calls + 1 } → Move s s' [.put s.calls t]
  | take {p : ι} {timed : Bool} : s.pc p = .idle →
      s' = { s.goto p (.takeGate timed s.calls) with calls := s.calls + 1 } → Move s s' []
  /-- a section of `putGuard_.acquire` -/
  | putGuard {p : ι} {timed : Bool} {c : ℕ} {t : T} {r : Semaphore × Acquire} {es : List (Event T)} :
      s.pc p = .putGate timed c t ∨ s.pc p = .putWait timed c t → s.putGuard_.Took r.1 r.2 →
      (s', es) = putEnds s p timed c t r → Move s s' es
  /-- a section of `takeGuard_.acquire` -/
  | takeGuard {p : ι} {timed : Bool} {d : ℕ} {r : Semaphore × Acquire} {es : List (Event T)} :
      s.pc p = .takeGate timed d ∨ s.pc p = .takeWait timed d → s.takeGuard_.Took r.1 r.2 →
      (s', es) = takeEnds s p timed d r → Move s s' es
  | insert {p : ι} {c : ℕ} {t : T} : s.pc p = .inserting c t →
      s' = { s.goto p (.filled c) with channelQ_ := s.channelQ_ ++ [t] } → Move s s' [.inserted c t]
  | insertThrows {p : ι} {c : ℕ} {t : T} : s.pc p = .inserting c t → s' = s.goto p (.unput c) → Move s s' []
  | extract {p : ι} {d : ℕ} {t : T} {queue : List T} : s.pc p = .extracting d → s.channelQ_ = t :: queue →
      s' = { s.goto p (.emptied d t) with channelQ_ := queue } → Move s s' [.extracted d t]
  | extractThrows {p : ι} {d : ℕ} : s.pc p = .extracting d → s' = s.goto p (.untake d) → Move s s' []
  | filled {p : ι} {c : ℕ} : s.pc p = .filled c →
      s' = { s.goto p .idle with takeGuard_ := s.takeGuard_.release 1 } → Move s s' [.putRet c]
  | unput {p : ι} {c : ℕ} : s.pc p = .unput c →
      s' = { s.goto p .idle with putGuard_ := s.putGuard_.release 1 } → Move s s' [.putThrew c]
  | emptied {p : ι} {d : ℕ} {t : T} : s.pc p = .emptied d t →
      s' = { s.goto p .idle with putGuard_ := s.putGuard_.release 1 } → Move s s' [.takeRet d t]
  | untake {p : ι} {d : ℕ} : s.pc p = .untake d →
      s' = { s.goto p .idle with takeGuard_ := s.takeGuard_.release 1 } → Move s s' [.takeThrew d .copy]

variable {s s' : World ι T} {a : Act ι T} {es : List (Event T)}

/-- Every step is a move. -/
theorem step_move (hs : step s a = some (s', es)) : Move s s' es := by
  cases a with
  | put p timed t =>
    simp only [step] at hs
    split at hs
    · next hp =>
      obtain ⟨rfl, rfl⟩ := by simpa using hs
      exact .put hp rfl
    · cases hs
  | take p timed =>
    simp only [step] at hs
    split at hs
    · next hp =>
      obtain ⟨rfl, rfl⟩ := by simpa using hs
      exact .take hp rfl
    · cases hs
  | run p =>
    simp only [step] at hs
    split at hs
    · next timed c t hp => exact .putGuard (Or.inl hp) s.putGuard_.acquire_took (Option.some.inj hs).symm
    · next c hp =>
      obtain ⟨rfl, rfl⟩ := by simpa using hs
      exact .filled hp rfl
    · next c hp =>
      obtain ⟨rfl, rfl⟩ := by simpa using hs
      exact .unput hp rfl
    · next timed d hp => exact .takeGuard (Or.inl hp) s.takeGuard_.acquire_took (Option.some.inj hs).symm
    · next d t hp =>
      obtain ⟨rfl, rfl⟩ := by simpa using hs
      exact .emptied hp rfl
    · next d hp =>
      obtain ⟨rfl, rfl⟩ := by simpa using hs
      exact .untake hp rfl
    · cases hs
  | wake p r =>
    simp only [step] at hs
    split at hs
    · next timed c t hp =>
      split_ifs at hs
      exact .putGuard (Or.inr hp) (s.putGuard_.resume_took r) (Option.some.inj hs).symm
    · next timed d hp =>
      split_ifs at hs
      exact .takeGuard (Or.inr hp) (s.takeGuard_.resume_took r) (Option.some.inj hs).symm
    · cases hs
  | copy p throws =>
    simp only [step] at hs
    split at hs
    · next c t hp =>
      unfold insert at hs
      split_ifs at hs <;> obtain ⟨rfl, rfl⟩ := by simpa using hs
      · exact .insertThrows hp rfl
      · exact .insert hp rfl
    · next d hp =>
      unfold extract at hs
      split at hs
      · cases hs
      · next t queue hq =>
        split_ifs at hs <;> obtain ⟨rfl, rfl⟩ := by simpa using hs
        · exact .extractThrows hp rfl
        · exact .extract hp hq rfl
    · cases hs

/-- What a section of `putGuard_.acquire` does, by its result. -/
theorem of_putEnds {p : ι} {timed : Bool} {c : ℕ} {t : T} {r : Semaphore × Acquire}
    (h : (s', es) = putEnds s p timed c t r) : ∃ x, s' = { s.goto p x with putGuard_ := r.1 } ∧
      ((r.2 = .acquired ∧ x = .inserting c t ∧ es = []) ∨ (r.2 ≠ .acquired ∧ x = .idle ∧ es = [.putFail c]) ∨
        (r.2 ≠ .acquired ∧ (x = .putWait timed c t ∨ x = .putGate timed c t) ∧ es = [])) := by
  unfold putEnds at h
  dsimp only at h
  split at h <;> obtain ⟨rfl, rfl⟩ := Prod.mk.inj h <;> refine ⟨_, rfl, ?_⟩ <;> simp_all

/-- What a section of `takeGuard_.acquire` does, by its result. -/
theorem of_takeEnds {p : ι} {timed : Bool} {d : ℕ} {r : Semaphore × Acquire}
    (h : (s', es) = takeEnds s p timed d r) : ∃ x, s' = { s.goto p x with takeGuard_ := r.1 } ∧
      ((r.2 = .acquired ∧ x = .extracting d ∧ es = []) ∨
        (r.2 ≠ .acquired ∧ x = .idle ∧ es = [.takeThrew d .timeout]) ∨
        (r.2 ≠ .acquired ∧ (x = .takeWait timed d ∨ x = .takeGate timed d) ∧ es = [])) := by
  unfold takeEnds at h
  dsimp only at h
  split at h <;> obtain ⟨rfl, rfl⟩ := Prod.mk.inj h <;> refine ⟨_, rfl, ?_⟩ <;> simp_all

/-! ## Permits -/

variable [Fintype ι]

/-- Every permit is with a guard or with a thread; those of `takeGuard_` and of some threads stand for the items
of the queue. -/
structure Guarded (total : ℤ) (s : World ι T) : Prop where
  total_eq : s.putGuard_.permits_ + s.takeGuard_.permits_ + count Pc.holds s.pc = total
  items : s.channelQ_.length = s.takeGuard_.permits_ + count Pc.owns s.pc
  put_nonneg : 0 ≤ s.putGuard_.permits_
  take_nonneg : 0 ≤ s.takeGuard_.permits_

namespace Guarded

variable {total : ℤ} {p : ι} {x : Pc T}

/-- One thread moves, and its permits with it. -/
theorem one (h : Guarded total s) (hpc : s'.pc = Function.update s.pc p x)
    (htotal : s'.putGuard_.permits_ + s'.takeGuard_.permits_ + x.holds.toNat =
      s.putGuard_.permits_ + s.takeGuard_.permits_ + (s.pc p).holds.toNat)
    (hitems : s'.channelQ_.length + s.takeGuard_.permits_ + (s.pc p).owns.toNat =
      s.channelQ_.length + s'.takeGuard_.permits_ + x.owns.toNat)
    (hput : 0 ≤ s'.putGuard_.permits_) (htake : 0 ≤ s'.takeGuard_.permits_) : Guarded total s' := by
  have hholds := count_update Pc.holds s.pc p x
  have howns := count_update Pc.owns s.pc p x
  obtain ⟨h1, h2, -, -⟩ := h
  refine ⟨?_, ?_, hput, htake⟩ <;> rw [hpc] <;> omega

/-- One thread moves without a permit. -/
theorem outside (h : Guarded total s) (hpc : s'.pc = Function.update s.pc p x)
    (hput : s'.putGuard_.permits_ = s.putGuard_.permits_)
    (htake : s'.takeGuard_.permits_ = s.takeGuard_.permits_) (hq : s'.channelQ_ = s.channelQ_)
    (hholds : x.holds = (s.pc p).holds) (howns : x.owns = (s.pc p).owns) : Guarded total s' :=
  h.one hpc (by rw [hput, htake, hholds]) (by rw [htake, hq, howns]) (hput ▸ h.put_nonneg)
    (htake ▸ h.take_nonneg)

theorem putGuard (h : Guarded total s) {timed : Bool} {c : ℕ} {t : T} {r : Semaphore × Acquire}
    (hp : s.pc p = .putGate timed c t ∨ s.pc p = .putWait timed c t) (ht : s.putGuard_.Took r.1 r.2)
    (he : (s', es) = putEnds s p timed c t r) : Guarded total s' := by
  obtain ⟨x, rfl, hx⟩ := of_putEnds he
  have hfree : (s.pc p).holds = false ∧ (s.pc p).owns = false := by
    rcases hp with hp | hp <;> rw [hp] <;> exact ⟨rfl, rfl⟩
  rcases ht with ⟨hacq, hpos, hperm⟩ | ⟨hacq, hperm⟩
  · obtain ⟨rfl, -⟩ : x = .inserting c t ∧ es = [] := by simpa [hacq] using hx
    refine h.one (p := p) rfl ?_ ?_ ?_ h.take_nonneg
    · rw [hfree.1]
      simp [World.goto, hperm, Pc.holds]
      omega
    · rw [hfree.2]
      rfl
    · simp only [hperm]
      omega
  · have hx' : x.holds = false ∧ x.owns = false := by
      rcases hx with ⟨hr, -⟩ | ⟨-, rfl, -⟩ | ⟨-, rfl | rfl, -⟩
      · exact absurd hr hacq
      all_goals exact ⟨rfl, rfl⟩
    exact h.outside (p := p) rfl hperm rfl rfl (hx'.1.trans hfree.1.symm) (hx'.2.trans hfree.2.symm)

theorem takeGuard (h : Guarded total s) {timed : Bool} {d : ℕ} {r : Semaphore × Acquire}
    (hp : s.pc p = .takeGate timed d ∨ s.pc p = .takeWait timed d) (ht : s.takeGuard_.Took r.1 r.2)
    (he : (s', es) = takeEnds s p timed d r) : Guarded total s' := by
  obtain ⟨x, rfl, hx⟩ := of_takeEnds he
  have hfree : (s.pc p).holds = false ∧ (s.pc p).owns = false := by
    rcases hp with hp | hp <;> rw [hp] <;> exact ⟨rfl, rfl⟩
  rcases ht with ⟨hacq, hpos, hperm⟩ | ⟨hacq, hperm⟩
  · obtain ⟨rfl, -⟩ : x = .extracting d ∧ es = [] := by simpa [hacq] using hx
    refine h.one (p := p) rfl ?_ ?_ h.put_nonneg ?_
    · rw [hfree.1]
      simp [World.goto, hperm, Pc.holds]
      omega
    · rw [hfree.2]
      simp [World.goto, hperm, Pc.owns]
      omega
    · simp only [hperm]
      omega
  · have hx' : x.holds = false ∧ x.owns = false := by
      rcases hx with ⟨hr, -⟩ | ⟨-, rfl, -⟩ | ⟨-, rfl | rfl, -⟩
      · exact absurd hr hacq
      all_goals exact ⟨rfl, rfl⟩
    exact h.outside (p := p) rfl rfl hperm rfl (hx'.1.trans hfree.1.symm) (hx'.2.trans hfree.2.symm)

omit [DecidableEq ι] in
/-- Where a thread has a permit there is room for it in either guard. -/
theorem room (h : Guarded total s) (hlt : total < 2 ^ 31) (hholds : (s.pc p).holds = true) :
    (s.putGuard_.release 1).permits_ = s.putGuard_.permits_ + 1 ∧
      (s.takeGuard_.release 1).permits_ = s.takeGuard_.permits_ + 1 := by
  have hone : 0 < count Pc.holds s.pc := count_pos (i := p) hholds
  obtain ⟨htotal, -, hput, htake⟩ := h
  exact ⟨Semaphore.release_one (by omega) (by omega), Semaphore.release_one (by omega) (by omega)⟩

/-- A thread gives its permit to `putGuard_`. -/
theorem giveBack (h : Guarded total s) (hlt : total < 2 ^ 31) (hholds : (s.pc p).holds = true)
    (howns : (s.pc p).owns = false)
    (hs' : s' = { s.goto p .idle with putGuard_ := s.putGuard_.release 1 }) : Guarded total s' := by
  have hput := h.put_nonneg
  have hrelease := (h.room hlt hholds).1
  rw [hs']
  refine h.one (p := p) rfl ?_ ?_ ?_ h.take_nonneg
  · rw [hholds]
    simp [World.goto, Pc.holds, hrelease]
    omega
  · rw [howns]
    rfl
  · simp only [hrelease]
    omega

/-- A thread gives its permit, which stands for an item, to `takeGuard_`. -/
theorem giveOn (h : Guarded total s) (hlt : total < 2 ^ 31) (hholds : (s.pc p).holds = true)
    (howns : (s.pc p).owns = true)
    (hs' : s' = { s.goto p .idle with takeGuard_ := s.takeGuard_.release 1 }) : Guarded total s' := by
  have htake := h.take_nonneg
  have hrelease := (h.room hlt hholds).2
  rw [hs']
  refine h.one (p := p) rfl ?_ ?_ h.put_nonneg ?_
  · rw [hholds]
    simp [World.goto, Pc.holds, hrelease]
    omega
  · rw [howns]
    simp [World.goto, Pc.owns, hrelease]
    omega
  · simp only [hrelease]
    omega

theorem move (h : Guarded total s) (hlt : total < 2 ^ 31) (hm : Move s s' es) : Guarded total s' := by
  cases hm with
  | @put p timed t hp hs' | @take p timed hp hs' =>
    rw [hs']
    exact h.outside (p := p) rfl rfl rfl rfl (by rw [hp]; rfl) (by rw [hp]; rfl)
  | putGuard hp ht he => exact h.putGuard hp ht he
  | takeGuard hp ht he => exact h.takeGuard hp ht he
  | @insert p c t hp hs' =>
    rw [hs']
    refine h.one (p := p) rfl (by rw [hp]; rfl) ?_ h.put_nonneg h.take_nonneg
    rw [hp]
    simp [World.goto, Pc.owns]
    omega
  | @extract p d t queue hp hq hs' =>
    rw [hs']
    refine h.one (p := p) rfl (by rw [hp]; rfl) ?_ h.put_nonneg h.take_nonneg
    rw [hp, hq]
    simp [World.goto, Pc.owns]
    omega
  | @insertThrows p c t hp hs' | @extractThrows p d hp hs' =>
    rw [hs']
    exact h.outside (p := p) rfl rfl rfl rfl (by rw [hp]; rfl) (by rw [hp]; rfl)
  | filled hp hs' | untake hp hs' => exact h.giveOn hlt (by rw [hp]; rfl) (by rw [hp]; rfl) hs'
  | unput hp hs' | emptied hp hs' => exact h.giveBack hlt (by rw [hp]; rfl) (by rw [hp]; rfl) hs'

end Guarded

/-! ## Items -/

/-- What has happened in the call a thread is in. -/
def Pc.Told (tr : List (Event T)) : Pc T → Prop
  | .putGate _ c t | .putWait _ c t | .inserting c t => .put c t ∈ tr
  | .filled c => ∃ t, .put c t ∈ tr ∧ .inserted c t ∈ tr
  | .emptied d t => .extracted d t ∈ tr
  | _ => True

omit [DecidableEq ι] [Fintype ι] in
theorem Pc.Told.mono {x : Pc T} {tr : List (Event T)} (h : x.Told tr) (es : List (Event T)) :
    x.Told (tr ++ es) := by
  cases x with
  | putGate | putWait | inserting | emptied => exact List.mem_append_left _ h
  | filled c =>
    obtain ⟨t, hput, hins⟩ := h
    exact ⟨t, List.mem_append_left _ hput, List.mem_append_left _ hins⟩
  | idle | unput | takeGate | takeWait | extracting | untake => trivial

/-- The items that went in and came out, and the calls that brought and got them. -/
structure History (tr : List (Event T)) (s : World ι T) : Prop where
  numbered : Numbered Pc.call Event.ends tr s.pc s.calls
  fifo : tr.filterMap Event.item = tr.filterMap Event.out ++ s.channelQ_
  told : ∀ p, (s.pc p).Told tr
  put_lt : ∀ c t, .put c t ∈ tr → c < s.calls
  put_inj : ∀ c t t', .put c t ∈ tr → .put c t' ∈ tr → t = t'
  putRet : ∀ c, .putRet c ∈ tr → ∃ t, .put c t ∈ tr ∧ .inserted c t ∈ tr
  takeRet : ∀ d t, .takeRet d t ∈ tr → .extracted d t ∈ tr
  inserted : ∀ c t, .inserted c t ∈ tr → (∃ p, s.pc p = .filled c) ∨ .putRet c ∈ tr
  extracted : ∀ d t, .extracted d t ∈ tr → (∃ p, s.pc p = .emptied d t) ∨ .takeRet d t ∈ tr

namespace History

variable {tr : List (Event T)} {p : ι} {x : Pc T}

omit [Fintype ι] in
/-- One thread goes on. -/
theorem one (h : History tr s) (hpc : s'.pc = Function.update s.pc p x)
    (hnum : Numbered Pc.call Event.ends (tr ++ es) s'.pc s'.calls) (hcalls : s.calls ≤ s'.calls)
    (hfifo : s.channelQ_ ++ es.filterMap Event.item = es.filterMap Event.out ++ s'.channelQ_)
    (hput : ∀ c t, .put c t ∈ es → c = s.calls ∧ s.calls < s'.calls ∧ ∀ t', .put c t' ∈ es → t = t')
    (hx : x.Told (tr ++ es))
    (hret : ∀ c, .putRet c ∈ es → ∃ t, .put c t ∈ tr ∧ .inserted c t ∈ tr)
    (htake : ∀ d t, .takeRet d t ∈ es → .extracted d t ∈ tr)
    (hins : ∀ c t, .inserted c t ∈ es → x = .filled c)
    (hleave : ∀ c, s.pc p = .filled c → .putRet c ∈ es)
    (hext : ∀ d t, .extracted d t ∈ es → x = .emptied d t)
    (hgo : ∀ d t, s.pc p = .emptied d t → .takeRet d t ∈ es) : History (tr ++ es) s' := by
  refine ⟨hnum, ?_, ?_, ?_, ?_, ?_, ?_, ?_, ?_⟩
  · rw [List.filterMap_append, List.filterMap_append, h.fifo, List.append_assoc, hfifo, List.append_assoc]
  · intro q
    rw [hpc]
    by_cases hq : q = p
    · rw [hq, Function.update_self]
      exact hx
    · rw [Function.update_of_ne hq]
      exact (h.told q).mono es
  · intro c t hc
    rcases List.mem_append.mp hc with hc | hc
    · exact (h.put_lt c t hc).trans_le hcalls
    · obtain ⟨rfl, hlt, -⟩ := hput c t hc
      exact hlt
  · intro c t t' hc hc'
    rcases List.mem_append.mp hc with hc | hc <;> rcases List.mem_append.mp hc' with hc' | hc'
    · exact h.put_inj c t t' hc hc'
    · exact absurd (h.put_lt c t hc) (by rw [(hput c t' hc').1]; exact lt_irrefl _)
    · exact absurd (h.put_lt c t' hc') (by rw [(hput c t hc).1]; exact lt_irrefl _)
    · exact (hput c t hc).2.2 t' hc'
  · intro c hc
    obtain ⟨t, hput, hins⟩ := (List.mem_append.mp hc).elim (h.putRet c) (hret c)
    exact ⟨t, List.mem_append_left _ hput, List.mem_append_left _ hins⟩
  · intro d t hd
    exact List.mem_append_left _ ((List.mem_append.mp hd).elim (h.takeRet d t) (htake d t))
  · intro c t hc
    rcases List.mem_append.mp hc with hc | hc
    · rcases h.inserted c t hc with ⟨q, hq⟩ | hdone
      · by_cases hqp : q = p
        · exact Or.inr (List.mem_append_right _ (hleave c (hqp ▸ hq)))
        · exact Or.inl ⟨q, by rw [hpc, Function.update_of_ne hqp, hq]⟩
      · exact Or.inr (List.mem_append_left _ hdone)
    · exact Or.inl ⟨p, by rw [hpc, Function.update_self, hins c t hc]⟩
  · intro d t hd
    rcases List.mem_append.mp hd with hd | hd
    · rcases h.extracted d t hd with ⟨q, hq⟩ | hdone
      · by_cases hqp : q = p
        · exact Or.inr (List.mem_append_right _ (hgo d t (hqp ▸ hq)))
        · exact Or.inl ⟨q, by rw [hpc, Function.update_of_ne hqp, hq]⟩
      · exact Or.inr (List.mem_append_left _ hdone)
    · exact Or.inl ⟨p, by rw [hpc, Function.update_self, hext d t hd]⟩

omit [Fintype ι] in
/-- One thread goes on, and neither inserts nor extracts nor returns an item. -/
theorem quiet (h : History tr s) (hpc : s'.pc = Function.update s.pc p x)
    (hnum : Numbered Pc.call Event.ends (tr ++ es) s'.pc s'.calls) (hcalls : s'.calls = s.calls)
    (hq : s'.channelQ_ = s.channelQ_) (hes : es = [] ∨ ∃ e, es = [e] ∧ ((∃ c, e = .putFail c) ∨
      (∃ c, e = .putThrew c) ∨ ∃ d ex, e = .takeThrew d ex)) (hx : x.Told tr)
    (hp : (∀ c, s.pc p ≠ .filled c) ∧ ∀ d t, s.pc p ≠ .emptied d t) : History (tr ++ es) s' := by
  have hnone : ∀ e ∈ es, (∃ c, e = .putFail c) ∨ (∃ c, e = .putThrew c) ∨ ∃ d ex, e = .takeThrew d ex := by
    rcases hes with rfl | ⟨e, rfl, he⟩
    · exact fun e he => absurd he (by simp)
    · intro e' he'
      rw [List.mem_singleton.mp he']
      exact he
  have hno : ∀ e ∈ es, e.item = none ∧ e.out = none := by
    intro e he
    rcases hnone e he with ⟨c, rfl⟩ | ⟨c, rfl⟩ | ⟨d, ex, rfl⟩ <;> exact ⟨rfl, rfl⟩
  refine h.one hpc hnum (le_of_eq hcalls.symm) ?_ ?_ (hx.mono es) ?_ ?_ ?_ ?_ ?_ ?_
  · rw [List.filterMap_eq_nil_iff.mpr fun e he => (hno e he).1,
      List.filterMap_eq_nil_iff.mpr fun e he => (hno e he).2, hq, List.append_nil, List.nil_append]
  · intro c t he
    simpa using hnone _ he
  · intro c he
    simpa using hnone _ he
  · intro d t he
    simpa using hnone _ he
  · intro c t he
    simpa using hnone _ he
  · exact fun c hc => absurd hc (hp.1 c)
  · intro d t he
    simpa using hnone _ he
  · exact fun d t hd => absurd hd (hp.2 d t)

omit [Fintype ι] in
/-- A section of `putGuard_.acquire`. -/
theorem putGuard (h : History tr s) {timed : Bool} {c : ℕ} {t : T} {r : Semaphore × Acquire}
    (hp : s.pc p = .putGate timed c t ∨ s.pc p = .putWait timed c t) (he : (s', es) = putEnds s p timed c t r) :
    History (tr ++ es) s' := by
  have hN := h.numbered
  have htold : .put c t ∈ tr := by
    have := h.told p
    rcases hp with hp | hp <;> rw [hp] at this <;> exact this
  have hcall : (s.pc p).call = some c := by rcases hp with hp | hp <;> rw [hp] <;> rfl
  have hout : (∀ c, s.pc p ≠ .filled c) ∧ ∀ d t, s.pc p ≠ .emptied d t := by
    rcases hp with hp | hp <;> rw [hp] <;> simp
  obtain ⟨x, rfl, hx⟩ := of_putEnds he
  rcases hx with ⟨-, rfl, rfl⟩ | ⟨-, rfl, rfl⟩ | ⟨-, rfl | rfl, rfl⟩
  · exact h.quiet (p := p) rfl (hN.goOn hcall.symm rfl) rfl rfl (Or.inl rfl) htold hout
  · exact h.quiet (p := p) rfl (hN.finish hcall rfl rfl) rfl rfl (Or.inr ⟨_, rfl, Or.inl ⟨c, rfl⟩⟩) trivial
      hout
  · exact h.quiet (p := p) rfl (hN.goOn hcall.symm rfl) rfl rfl (Or.inl rfl) htold hout
  · exact h.quiet (p := p) rfl (hN.goOn hcall.symm rfl) rfl rfl (Or.inl rfl) htold hout

omit [Fintype ι] in
/-- A section of `takeGuard_.acquire`. -/
theorem takeGuard (h : History tr s) {timed : Bool} {d : ℕ} {r : Semaphore × Acquire}
    (hp : s.pc p = .takeGate timed d ∨ s.pc p = .takeWait timed d) (he : (s', es) = takeEnds s p timed d r) :
    History (tr ++ es) s' := by
  have hN := h.numbered
  have hcall : (s.pc p).call = some d := by rcases hp with hp | hp <;> rw [hp] <;> rfl
  have hout : (∀ c, s.pc p ≠ .filled c) ∧ ∀ d t, s.pc p ≠ .emptied d t := by
    rcases hp with hp | hp <;> rw [hp] <;> simp
  obtain ⟨x, rfl, hx⟩ := of_takeEnds he
  rcases hx with ⟨-, rfl, rfl⟩ | ⟨-, rfl, rfl⟩ | ⟨-, rfl | rfl, rfl⟩
  · exact h.quiet (p := p) rfl (hN.goOn hcall.symm rfl) rfl rfl (Or.inl rfl) trivial hout
  · exact h.quiet (p := p) rfl (hN.finish hcall rfl rfl) rfl rfl
      (Or.inr ⟨_, rfl, Or.inr (Or.inr ⟨d, _, rfl⟩)⟩) trivial hout
  · exact h.quiet (p := p) rfl (hN.goOn hcall.symm rfl) rfl rfl (Or.inl rfl) trivial hout
  · exact h.quiet (p := p) rfl (hN.goOn hcall.symm rfl) rfl rfl (Or.inl rfl) trivial hout

omit [Fintype ι] in
theorem move (h : History tr s) (hm : Move s s' es) : History (tr ++ es) s' := by
  have hN := h.numbered
  cases hm with
  | @put p timed t hp hs' =>
    rw [hs']
    refine h.one (p := p) rfl (hN.start rfl rfl) (Nat.le_succ _) ?_ ?_ ?_ (by simp) (by simp) (by simp) ?_
      (by simp) ?_
    · exact List.append_nil _
    · intro c t' hc
      obtain ⟨rfl, rfl⟩ : c = s.calls ∧ t' = t := by simpa using hc
      exact ⟨rfl, Nat.lt_succ_self _, by simp⟩
    · exact List.mem_append_right _ (List.mem_singleton_self _)
    · simp [hp]
    · simp [hp]
  | @take p timed hp hs' =>
    rw [hs']
    refine h.one (p := p) rfl (hN.start rfl rfl) (Nat.le_succ _) ?_ (by simp) trivial (by simp) (by simp)
      (by simp) ?_ (by simp) ?_
    · simp [World.goto]
    · simp [hp]
    · simp [hp]
  | putGuard hp ht he => exact h.putGuard hp he
  | takeGuard hp ht he => exact h.takeGuard hp he
  | @insert p c t hp hs' =>
    rw [hs']
    have htold : .put c t ∈ tr := by
      have := h.told p
      rwa [hp] at this
    refine h.one (p := p) rfl (hN.goOn (by rw [hp]; rfl) rfl) (Nat.le_refl _) ?_ (by simp) ?_ (by simp) (by simp)
      ?_ ?_ (by simp) ?_
    · simp [Event.item, Event.out]
    · exact ⟨t, List.mem_append_left _ htold, List.mem_append_right _ (List.mem_singleton_self _)⟩
    · intro c' t' hc
      obtain ⟨rfl, -⟩ : c' = c ∧ t' = t := by simpa using hc
      rfl
    · simp [hp]
    · simp [hp]
  | @extract p d t queue hp hq hs' =>
    rw [hs']
    refine h.one (p := p) rfl (hN.goOn (by rw [hp]; rfl) rfl) (Nat.le_refl _) ?_ (by simp) ?_ (by simp) (by simp)
      (by simp) ?_ ?_ ?_
    · simp [hq, Event.item, Event.out]
    · exact List.mem_append_right _ (List.mem_singleton_self _)
    · simp [hp]
    · intro d' t' hd
      obtain ⟨rfl, rfl⟩ : d' = d ∧ t' = t := by simpa using hd
      rfl
    · simp [hp]
  | @insertThrows p c t hp hs' =>
    rw [hs']
    exact h.quiet (p := p) rfl (hN.goOn (by rw [hp]; rfl) rfl) rfl rfl (Or.inl rfl) trivial
      (by rw [hp]; simp)
  | @extractThrows p d hp hs' =>
    rw [hs']
    exact h.quiet (p := p) rfl (hN.goOn (by rw [hp]; rfl) rfl) rfl rfl (Or.inl rfl) trivial
      (by rw [hp]; simp)
  | @filled p c hp hs' =>
    rw [hs']
    have htold := h.told p
    rw [hp] at htold
    refine h.one (p := p) rfl (hN.finish (by rw [hp]; rfl) rfl rfl) (Nat.le_refl _) ?_ (by simp) trivial ?_
      (by simp) (by simp) ?_ (by simp) ?_
    · exact List.append_nil _
    · intro c' hc
      obtain rfl : c' = c := by simpa using hc
      exact htold
    · simp [hp]
    · simp [hp]
  | @unput p c hp hs' =>
    rw [hs']
    exact h.quiet (p := p) rfl (hN.finish (by rw [hp]; rfl) rfl rfl) rfl rfl
      (Or.inr ⟨_, rfl, Or.inr (Or.inl ⟨c, rfl⟩)⟩) trivial (by rw [hp]; simp)
  | @emptied p d t hp hs' =>
    rw [hs']
    have htold := h.told p
    rw [hp] at htold
    refine h.one (p := p) rfl (hN.finish (by rw [hp]; rfl) rfl rfl) (Nat.le_refl _) ?_ (by simp) trivial (by simp)
      ?_ (by simp) ?_ (by simp) ?_
    · exact List.append_nil _
    · intro d' t' hd
      obtain ⟨rfl, rfl⟩ : d' = d ∧ t' = t := by simpa using hd
      exact htold
    · simp [hp]
    · simp [hp]
  | @untake p d hp hs' =>
    rw [hs']
    exact h.quiet (p := p) rfl (hN.finish (by rw [hp]; rfl) rfl rfl) rfl rfl
      (Or.inr ⟨_, rfl, Or.inr (Or.inr ⟨d, _, rfl⟩)⟩) trivial (by rw [hp]; simp)

end History

/-! ## Runs -/

variable {capacity : ℕ} {π : List (Taken (World ι T) (Act ι T) (Event T))}

omit [Fintype ι] in
theorem run_history (hr : Run (machine capacity) π s) : History (events π) s := by
  induction hr with
  | start =>
    exact ⟨.new fun _ => rfl, rfl, fun _ => trivial, fun _ _ h => (by cases h), fun _ _ _ h => (by cases h),
      fun _ h => (by cases h), fun _ _ h => (by cases h), fun _ _ h => (by cases h), fun _ _ h => (by cases h)⟩
  | snoc _ hstep ih =>
    rw [events_snoc]
    exact ih.move (step_move hstep)

theorem run_guarded (hcap : capacity < 2 ^ 31) (hr : Run (machine capacity) π s) :
    Guarded (capacity : ℤ) s := by
  induction hr with
  | start =>
    have hholds : count Pc.holds (machine (ι := ι) (T := T) capacity).init.pc = 0 :=
      count_eq_zero.mpr fun _ => rfl
    have howns : count Pc.owns (machine (ι := ι) (T := T) capacity).init.pc = 0 :=
      count_eq_zero.mpr fun _ => rfl
    have hput : (machine (ι := ι) (T := T) capacity).init.putGuard_.permits_ = capacity := by
      simp only [machine]
      exact toInt_eq_iff.mpr hcap
    have htake : (machine (ι := ι) (T := T) capacity).init.takeGuard_.permits_ = 0 := by
      simp only [machine]
    have hq : (machine (ι := ι) (T := T) capacity).init.channelQ_ = [] := by simp only [machine]
    refine ⟨?_, ?_, ?_, ?_⟩
    · rw [hput, htake, hholds]
      simp
    · rw [hq, htake, howns]
      simp
    · rw [hput]
      exact Int.natCast_nonneg _
    · rw [htake]
  | snoc _ hstep ih => exact ih.move (by omega) (step_move hstep)

/-- The threads between two permits. -/
def inFlight (s : World ι T) : ℕ := count Pc.holds s.pc

/-- A bounded queue, after the events `tr`. -/
structure Sound (capacity : ℕ) (tr : List (Event T)) (s : World ι T) : Prop where
  permits : s.putGuard_.permits_ + s.takeGuard_.permits_ + inFlight s = capacity
  bounded : s.channelQ_.length ≤ capacity
  /-- `extract` finds a front -/
  nonempty : ∀ p d, s.pc p = .extracting d → s.channelQ_ ≠ []
  /-- what came out and what is there is what went in, in that order -/
  fifo : tr.filterMap Event.item = tr.filterMap Event.out ++ s.channelQ_
  /-- a put that returned `0` has put its item in, and one that failed has not -/
  put_inserted : ∀ c t, .put c t ∈ tr → .putRet c ∈ tr → .inserted c t ∈ tr
  put_failed : ∀ c t, .putFail c ∈ tr ∨ .putThrew c ∈ tr → .inserted c t ∉ tr
  /-- a take returns what it took out, and one that throws has taken nothing -/
  take_extracted : ∀ d t, .takeRet d t ∈ tr → .extracted d t ∈ tr
  extracted_returns : ∀ d t, .extracted d t ∈ tr → .takeRet d t ∈ tr ∨ ∃ p, s.pc p = .emptied d t
  take_failed : ∀ d e t, .takeThrew d e ∈ tr → .extracted d t ∉ tr

omit [DecidableEq ι] in
theorem sound_of (hg : Guarded (capacity : ℤ) s) {tr : List (Event T)} (h : History tr s) :
    Sound capacity tr s := by
  have hlater : ∀ {e : Event T} {c : ℕ} {p : ι}, e ∈ tr → e.ends = some c → (s.pc p).call ≠ some c :=
    fun he hc => (h.numbered.ended _ he _ hc).2 _
  refine ⟨hg.total_eq, ?_, ?_, h.fifo, ?_, ?_, h.takeRet, fun d t hd => (h.extracted d t hd).symm, ?_⟩
  · have howns : count Pc.owns s.pc ≤ count Pc.holds s.pc := by
      refine Finset.card_le_card (Finset.monotone_filter_right _ fun p hp => ?_)
      cases hx : s.pc p <;> simp_all [Pc.owns, Pc.holds]
    obtain ⟨h1, h2, h3, h4⟩ := hg
    omega
  · intro p d hp hq
    have hpos : 0 < count Pc.owns s.pc := count_pos (i := p) (by rw [hp]; rfl)
    obtain ⟨-, h2, -, h4⟩ := hg
    rw [hq] at h2
    simp only [List.length_nil] at h2
    omega
  · intro c t hput hret
    obtain ⟨t', hput', hins⟩ := h.putRet c hret
    rwa [h.put_inj c t t' hput hput']
  · intro c t hfail hins
    rcases h.inserted c t hins with ⟨p, hp⟩ | hret
    · rcases hfail with hc | hc <;> exact hlater hc rfl (p := p) (by rw [hp]; rfl)
    · rcases hfail with hc | hc <;> cases h.numbered.eq_of_ends hc hret rfl rfl
  · intro d e t hthrew hext
    rcases h.extracted d t hext with ⟨p, hp⟩ | hret
    · exact hlater hthrew rfl (p := p) (by rw [hp]; rfl)
    · cases h.numbered.eq_of_ends hthrew hret rfl rfl

/-- **A bounded queue.**  For every capacity, the channel is sound in every run exactly if the capacity fits the
`int` that `putGuard_` is made with. -/
theorem sound_iff (capacity : ℕ) :
    (∀ (π : List (Taken (World ι T) (Act ι T) (Event T))) (s : World ι T), Run (machine capacity) π s →
      Sound capacity (events π) s) ↔ capacity < 2 ^ 31 := by
  constructor
  · intro h
    have hinit := (h [] _ .start).permits
    unfold inFlight at hinit
    rw [count_eq_zero.mpr fun _ => rfl] at hinit
    exact toInt_eq_iff.mp (by simpa [machine] using hinit)
  · exact fun hcap π s hr => sound_of (run_guarded hcap hr) (run_history hr)

/-- A channel for `2 ^ 31` items has a negative number of permits. -/
theorem unsound_capacity : ¬ ∀ capacity : ℕ, 1 ≤ capacity →
    ∀ (π : List (Taken (World (Fin 1) ℕ) (Act (Fin 1) ℕ) (Event ℕ))) (s : World (Fin 1) ℕ),
      Run (machine capacity) π s → Sound capacity (events π) s := by
  intro h
  have hinit := (h (2 ^ 31) (by norm_num) [] _ .start).permits
  revert hinit
  decide

end Moves

end SemaphoreControlledQueue

end Lasagne.Daf
