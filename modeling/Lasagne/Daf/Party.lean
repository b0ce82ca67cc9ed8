import Lasagne.Trans.Run
import Lasagne.Trans.Count
import Lasagne.Daf.Semaphore

/-!
# Lasagne.Daf.Party — what `DAF::Barrier` and `DAF::Rendezvous` have in common

Both classes keep the same counters and flags behind an entry gate, and both let a thread through
the same stations: the gate, the monitor, the wait loop, the way out.  `Core` holds the shared
fields.  A `Party` is one of the two classes, given by its lock-protected sections; `Party.machine`
interleaves any number of threads that call it.  A section runs from the point where a thread owns
the monitor to the point where it waits or leaves, so a machine step is one section.  Waiting
threads may wake at any time, with or without a notification.

`Finished` lists what a section of an entrant can do to the core, and `Party.Lawful` says that a
class does nothing else.  `step_moves` then splits every step into moves; invariants are proved
once per move.
-/

namespace Lasagne.Daf

open Lasagne.Trans

/-! ## The shared fields -/

/-- The fields that `Barrier` and `Rendezvous` both declare. -/
structure Core where
  entryGate_ : Semaphore
  parties_ : ℕ
  synch_ : ℕ
  count_ : ℕ
  resets_ : ℕ
  broken_ : Bool
  shutdown_ : Bool
  triggered_ : Bool
deriving DecidableEq, Repr

namespace Core

/-- The member initialisers of both constructors. -/
def new (parties : ℕ) : Core where
  entryGate_ := ⟨toInt parties, 0⟩
  parties_ := parties
  synch_ := 0
  count_ := 0
  resets_ := 0
  broken_ := false
  shutdown_ := false
  triggered_ := false

/-- `this->resets_ = ++this->count_`. -/
def enter (c : Core) : Core := { c with count_ := c.count_ + 1, resets_ := c.count_ + 1 }

/-- `if (--this->resets_ == 0) { ... }`: the last thread out opens the gate for the next cycle. -/
def leave (c : Core) : Core :=
  let c := { c with resets_ := c.resets_ - 1 }
  if c.resets_ = 0 then
    { c with
      entryGate_ := c.entryGate_.release (toInt c.count_)
      broken_ := false
      triggered_ := false
      synch_ := c.synch_ + 1
      count_ := 0 }
  else c

@[simp] theorem leave_parties (c : Core) : c.leave.parties_ = c.parties_ := by
  unfold leave
  dsimp only
  split <;> rfl

@[simp] theorem leave_shutdown (c : Core) : c.leave.shutdown_ = c.shutdown_ := by
  unfold leave
  dsimp only
  split <;> rfl

theorem leave_last {c : Core} (h : c.resets_ - 1 = 0) : c.leave =
    { c with
      resets_ := c.resets_ - 1
      entryGate_ := c.entryGate_.release (toInt c.count_)
      broken_ := false
      triggered_ := false
      synch_ := c.synch_ + 1
      count_ := 0 } := by
  unfold leave
  exact if_pos h

theorem leave_other {c : Core} (h : c.resets_ - 1 ≠ 0) :
    c.leave = { c with resets_ := c.resets_ - 1 } := by
  unfold leave
  exact if_neg h

end Core

/-! ## Threads -/

/-- The exceptions a call can leave with; `foreign` is what the command or the functor threw. -/
inductive Exn where
  | timeout
  | brokenBarrier
  | illegalThreadState
  | foreign
deriving DecidableEq, Repr

/-- How a call leaves: by returning a value or by an exception. -/
inductive Exit (β : Type*) where
  | value (v : β)
  | exn (e : Exn)
deriving DecidableEq, Repr

/-- The call returned normally. -/
def Exit.isValue {β : Type*} : Exit β → Bool
  | .value _ => true
  | .exn _ => false

/-- What the call returned, if it did. -/
def Exit.value? {β : Type*} : Exit β → Option β
  | .value v => some v
  | .exn _ => none

theorem Exit.value?_eq_some {β : Type*} {r : Exit β} {v : β} : r.value? = some v ↔ r = .value v := by
  cases r <;> simp [Exit.value?]

/-- Where a thread is; `timed` tells `barrier(msecs)` from `barrier()`, `arg` is what it presents. -/
inductive Pc (α : Type*) where
  | idle
  /-- in `entryGate_`, about to run a section of `acquire` -/
  | gate (timed : Bool) (arg : α)
  /-- blocked in the condition of `entryGate_` -/
  | gateWait (timed : Bool) (arg : α)
  /-- holds a permit, about to lock the monitor -/
  | admitted (timed : Bool) (arg : α)
  /-- past the `count_` increment, blocked in `this->wait` -/
  | waiting (timed : Bool) (arg : α) (index : ℕ)
  /-- in `waitReset`, blocked in `this->wait`, having read `synch` -/
  | resetting (synch : ℕ)
deriving DecidableEq, Repr

namespace Pc

variable {α : Type*}

/-- The thread holds a permit of the gate and has not entered. -/
def isAdmitted : Pc α → Bool
  | .admitted _ _ => true
  | _ => false

/-- The thread is past the `count_` increment and has not left. -/
def isInside : Pc α → Bool
  | .waiting _ _ _ => true
  | _ => false

/-- The thread is in a timed call. -/
def isTimed : Pc α → Bool
  | .gate timed _ | .gateWait timed _ | .admitted timed _ | .waiting timed _ _ => timed
  | .idle | .resetting _ => false

end Pc

/-- What the run of a machine shows to the callers.  `cyc` is the value of `synch_`. -/
inductive Event (ι α β : Type*) where
  | entered (cyc : ℕ) (t : ι) (index : ℕ) (arg : α)
  /-- the command or functor was run; `ok = false`: it threw -/
  | ran (cyc : ℕ) (ok : Bool)
  | left (cyc : ℕ) (t : ι) (index : ℕ) (r : Exit β)
  /-- turned away before the monitor -/
  | refused (t : ι) (e : Exn)
  /-- `waitReset` returned; `none`: it threw -/
  | waitedReset (t : ι) (r : Option Bool)
deriving DecidableEq, Repr

/-- The cycle an event belongs to. -/
def Event.cycle {ι α β : Type*} : Event ι α β → Option ℕ
  | .entered c _ _ _ | .ran c _ | .left c _ _ _ => some c
  | .refused _ _ | .waitedReset _ _ => none

/-- What a lock-protected section of an entrant ends in: the object, whether the command ran (and
completed), and how the call left (`none`: it waits). -/
structure Section (Obj β : Type*) where
  obj : Obj
  ran : Option Bool
  exit : Option (Exit β)

/-- A class of this kind, by its sections.  `Ω` is the outside world of the command. -/
structure Party (α β Obj Ω : Type*) where
  core : Obj → Core
  setGate : Obj → Semaphore → Obj
  /-- entering, up to and with `resets_ = ++count_` -/
  enter : Obj → α → Except Exn Obj
  /-- the wait loop and the way out, with the clock test of the timed calls -/
  finish : Obj → Bool → Ω → α → ℕ → Section Obj β
  /-- the loop test of `waitReset` -/
  busy : Obj → Bool
  /-- `broken_ = true` of a timed-out `waitReset` -/
  breakUp : Obj → Obj
  /-- what `waitReset` does before it throws on shutdown -/
  resetShutdown : Obj → Obj

/-- The object and the threads. -/
structure World (ι α Obj : Type*) where
  obj : Obj
  pc : ι → Pc α

/-- Thread `t` leaves the object `o` behind and goes to `x`. -/
def World.goto {ι α Obj : Type*} [DecidableEq ι] (s : World ι α Obj) (t : ι) (o : Obj) (x : Pc α) :
    World ι α Obj :=
  ⟨o, Function.update s.pc t x⟩

section Goto

variable {ι α Obj : Type*} [DecidableEq ι] (s : World ι α Obj) (t : ι) (o : Obj) (x : Pc α)

@[simp] theorem World.goto_obj : (s.goto t o x).obj = o := rfl

@[simp] theorem World.goto_pc_self : (s.goto t o x).pc t = x := by simp [World.goto]

theorem World.goto_pc_of_ne {u : ι} (h : u ≠ t) : (s.goto t o x).pc u = s.pc u := by
  simp [World.goto, h]

@[simp] theorem World.goto_goto (o' : Obj) (y : Pc α) :
    (s.goto t o x).goto t o' y = s.goto t o' y := by
  simp [World.goto]

end Goto

/-- One action of one thread.  `expired` is the outcome of the clock test in the wait loop. -/
inductive Act (ι α Ω : Type*) where
  | call (t : ι) (timed : Bool) (arg : α)
  | acquire (t : ι)
  | resume (t : ι) (r : WaitResult)
  | enter (t : ι) (expired : Bool) (ω : Ω)
  | wake (t : ι) (expired : Bool) (ω : Ω)
  | waitReset (t : ι)
  | wakeReset (t : ι) (r : WaitResult)
deriving DecidableEq, Repr

namespace Party

variable {ι α β Obj Ω : Type*} [DecidableEq ι] (P : Party α β Obj Ω)

/-- Where a section of the gate's `acquire` leaves its thread. -/
def afterGate (s : World ι α Obj) (t : ι) (timed : Bool) (arg : α) (g : Semaphore × Acquire) :
    World ι α Obj × List (Event ι α β) :=
  let o := P.setGate s.obj g.1
  match g.2 with
  | .acquired => (s.goto t o (.admitted timed arg), [])
  | .blocked => (s.goto t o (.gateWait timed arg), [])
  | .retry => (s.goto t o (.gate timed arg), [])
  | .failed => (s.goto t o .idle, [.refused t .timeout])

/-- Where a section of the monitor leaves its thread, with its events, in cycle `cyc`. -/
def afterSection (s : World ι α Obj) (cyc : ℕ) (t : ι) (timed : Bool) (arg : α) (i : ℕ)
    (r : Section Obj β) : World ι α Obj × List (Event ι α β) :=
  (s.goto t r.obj (if r.exit.isSome then .idle else .waiting timed arg i),
    (r.ran.map (Event.ran cyc)).toList ++ (r.exit.map (Event.left cyc t i)).toList)

theorem afterSection_goto (s : World ι α Obj) (o : Obj) (x : Pc α) (cyc : ℕ) (t : ι) (timed : Bool)
    (arg : α) (i : ℕ) (r : Section Obj β) :
    afterSection (s.goto t o x) cyc t timed arg i r = afterSection s cyc t timed arg i r := by
  simp [afterSection]

theorem mem_afterSection_left {s : World ι α Obj} {cyc : ℕ} {t : ι} {timed : Bool} {arg : α} {i : ℕ}
    {r : Section Obj β} {c : ℕ} {u : ι} {j : ℕ} {x : Exit β} :
    .left c u j x ∈ (afterSection s cyc t timed arg i r).2 ↔
      c = cyc ∧ u = t ∧ j = i ∧ r.exit = some x := by
  obtain ⟨o, ran, ex⟩ := r
  cases ran <;> cases ex <;> simp [afterSection, eq_comm]

/-- One round of the loop of `waitReset`, which has read `synch`. -/
def resetRound (s : World ι α Obj) (t : ι) (synch : ℕ) : World ι α Obj × List (Event ι α β) :=
  if P.busy s.obj then
    if (P.core s.obj).shutdown_ then
      (s.goto t (P.resetShutdown s.obj) .idle, [.waitedReset t none])
    else if (P.core s.obj).synch_ = synch then (s.goto t s.obj (.resetting synch), [])
    else (s.goto t s.obj .idle, [.waitedReset t (some true)])
  else (s.goto t s.obj .idle, [.waitedReset t (some true)])

/-- One step of one thread. -/
def step (s : World ι α Obj) : Act ι α Ω → Option (World ι α Obj × List (Event ι α β))
  | .call t timed arg =>
    match s.pc t with
    | .idle => some (s.goto t s.obj (.gate timed arg), [])
    | _ => none
  | .acquire t =>
    match s.pc t with
    | .gate timed arg => some (P.afterGate s t timed arg (P.core s.obj).entryGate_.acquire)
    | _ => none
  | .resume t r =>
    match s.pc t with
    | .gateWait timed arg =>
      -- an untimed wait does not time out
      if r = .timedOut ∧ timed = false then none
      else some (P.afterGate s t timed arg ((P.core s.obj).entryGate_.resume r))
    | _ => none
  | .enter t expired ω =>
    match s.pc t with
    | .admitted timed arg =>
      match P.enter s.obj arg with
      | .error e => some (s.goto t s.obj .idle, [.refused t e])
      | .ok o =>
        let c := P.core s.obj
        let r := afterSection s c.synch_ t timed arg c.count_
          (P.finish o (timed && expired) ω arg c.count_)
        some (r.1, .entered c.synch_ t c.count_ arg :: r.2)
    | _ => none
  | .wake t expired ω =>
    match s.pc t with
    | .waiting timed arg i =>
      some (afterSection s (P.core s.obj).synch_ t timed arg i
        (P.finish s.obj (timed && expired) ω arg i))
    | _ => none
  | .waitReset t =>
    match s.pc t with
    | .idle => some (P.resetRound s t (P.core s.obj).synch_)
    | _ => none
  | .wakeReset t r =>
    match s.pc t with
    | .resetting synch =>
      match r with
      | .timedOut => some (s.goto t (P.breakUp s.obj) .idle, [.waitedReset t (some false)])
      | .woken => some (P.resetRound s t synch)
    | _ => none

/-- Any number of threads calling the object `o`. -/
def machine (o : Obj) : Machine (World ι α Obj) (Act ι α Ω) (Event ι α β) where
  init := ⟨o, fun _ => .idle⟩
  step := P.step

end Party

/-! ## What a section may do -/

/-- What the wait loop and the way out can do to the core `c`: whether the command ran, how the call
left (`some true`: with a value), and the core after.  `loud`: there is a command to run; `drop`: how
much the handler of a throwing command takes off `count_`; `short`: the entrant found no slot. -/
inductive Finished (loud : Bool) (drop : ℕ) (mayThrow : Prop) (expired : Bool) (c : Core) :
    Option Bool → Option Bool → Core → Prop
  | wait : c.broken_ = false → c.triggered_ = false → c.count_ ≠ c.parties_ →
      Finished loud drop mayThrow expired c none none c
  | drain (short : Bool) : (c.broken_ || c.triggered_) = true →
      Finished loud drop mayThrow expired c none (some !(c.broken_ || short))
        { c with broken_ := c.broken_ || short }.leave
  | expire : c.broken_ = false → c.triggered_ = false → c.count_ ≠ c.parties_ → expired = true →
      Finished loud drop mayThrow expired c none (some false) { c with broken_ := true }.leave
  | trip (short : Bool) : c.broken_ = false → c.triggered_ = false → c.count_ = c.parties_ →
      Finished loud drop mayThrow expired c (if loud then some true else none) (some !short)
        { c with triggered_ := true, broken_ := short }.leave
  | abort : mayThrow → c.broken_ = false → c.triggered_ = false → c.count_ = c.parties_ →
      Finished loud drop mayThrow expired c (some false) (some false)
        { c with broken_ := true, resets_ := c.resets_ - 1, count_ := c.count_ - drop }

theorem Finished.frame {loud : Bool} {drop : ℕ} {mayThrow : Prop} {expired : Bool} {c c' : Core}
    {ran ex : Option Bool} (h : Finished loud drop mayThrow expired c ran ex c') :
    c'.shutdown_ = c.shutdown_ ∧ c'.parties_ = c.parties_ := by
  cases h <;> simp

namespace Party

variable {ι α β Obj Ω : Type*} [DecidableEq ι]

/-- The sections of `P` act on the core as listed, as long as nobody destroys the object. -/
structure Lawful (P : Party α β Obj Ω) (loud : Bool) (drop : ℕ) (mayThrow : Prop) : Prop where
  core_setGate : ∀ o g, P.core (P.setGate o g) = { P.core o with entryGate_ := g }
  setGate_self : ∀ o, P.setGate o (P.core o).entryGate_ = o
  core_breakUp : ∀ o, P.core (P.breakUp o) = { P.core o with broken_ := true }
  core_enter : ∀ o a, (P.core o).shutdown_ = false →
    ∃ o', P.enter o a = .ok o' ∧ P.core o' = (P.core o).enter
  core_finish : ∀ o expired ω arg i, (P.core o).shutdown_ = false →
    Finished loud drop mayThrow expired (P.core o) (P.finish o expired ω arg i).ran
      ((P.finish o expired ω arg i).exit.map Exit.isValue) (P.core (P.finish o expired ω arg i).obj)

/-! ## Moves -/

/-- What a move is about, for the conditions that runs are put under. -/
inductive Kind where
  | call (timed : Bool)
  | quiet
  | pass
  | enter
  | finish (expired : Bool)
  | broke (synch : ℕ)

/-- The parts that steps are made of. -/
inductive Move (P : Party α β Obj Ω) :
    World ι α Obj → Kind → List (Event ι α β) → World ι α Obj → Prop
  | call {s : World ι α Obj} {t : ι} {timed : Bool} {arg : α} : s.pc t = .idle →
      Move P s (.call timed) [] (s.goto t s.obj (.gate timed arg))
  /-- nothing happens to the counters: waiting at the gate, being turned away, `waitReset` -/
  | quiet {s : World ι α Obj} {t : ι} {x : Pc α} {g : Semaphore} {es : List (Event ι α β)} :
      (s.pc t).isAdmitted = false → (s.pc t).isInside = false →
      x.isAdmitted = false → x.isInside = false → (x.isTimed = true → (s.pc t).isTimed = true) →
      (∀ k, x = .resetting k → P.busy s.obj = true ∧ (P.core s.obj).synch_ = k) →
      g.permits_ = (P.core s.obj).entryGate_.permits_ → (∀ e ∈ es, e.cycle = none) →
      Move P s .quiet es (s.goto t (P.setGate s.obj g) x)
  | pass {s : World ι α Obj} {t : ι} {timed : Bool} {arg : α} {g : Semaphore} :
      s.pc t = .gate timed arg ∨ s.pc t = .gateWait timed arg →
      0 < (P.core s.obj).entryGate_.permits_ →
      g.permits_ = (P.core s.obj).entryGate_.permits_ - 1 →
      Move P s .pass [] (s.goto t (P.setGate s.obj g) (.admitted timed arg))
  | enter {s : World ι α Obj} {t : ι} {timed : Bool} {arg : α} {o : Obj} :
      s.pc t = .admitted timed arg → P.enter s.obj arg = .ok o →
      P.core o = (P.core s.obj).enter →
      Move P s .enter [.entered (P.core s.obj).synch_ t (P.core s.obj).count_ arg]
        (s.goto t o (.waiting timed arg (P.core s.obj).count_))
  | finish {s : World ι α Obj} {t : ι} {timed expired : Bool} {arg : α} {i : ℕ} {ω : Ω} :
      s.pc t = .waiting timed arg i →
      Move P s (.finish (timed && expired))
        (afterSection s (P.core s.obj).synch_ t timed arg i
          (P.finish s.obj (timed && expired) ω arg i)).2
        (afterSection s (P.core s.obj).synch_ t timed arg i
          (P.finish s.obj (timed && expired) ω arg i)).1
  | broke {s : World ι α Obj} {t : ι} {k : ℕ} : s.pc t = .resetting k →
      Move P s (.broke k) [.waitedReset t (some false)] (s.goto t (P.breakUp s.obj) .idle)

/-- The condition `D` on calls, entries and breaks, as a condition on actions. -/
def Allowed (D : World ι α Obj → Kind → Prop) (s : World ι α Obj) : Act ι α Ω → Prop
  | .call _ timed _ => D s (.call timed)
  | .enter _ _ _ => D s .enter
  | .wakeReset t .timedOut => ∀ k, s.pc t = .resetting k → D s (.broke k)
  | _ => True

omit [DecidableEq ι] in
@[simp] theorem allowed_true (s : World ι α Obj) (a : Act ι α Ω) : Allowed (fun _ _ => True) s a := by
  unfold Allowed
  split <;> simp

/-- `D` where it applies. -/
def Kind.Permitted (D : World ι α Obj → Kind → Prop) (s : World ι α Obj) : Kind → Prop
  | .call timed => D s (.call timed)
  | .enter => D s .enter
  | .broke k => D s (.broke k)
  | .quiet | .pass | .finish _ => True

section Moves

variable {P : Party α β Obj Ω} {loud : Bool} {drop : ℕ} {mayThrow : Prop}
  (hP : P.Lawful loud drop mayThrow) {s s' : World ι α Obj} {t : ι}

theorem afterGate_move {timed : Bool} {arg : α} {g : Semaphore × Acquire}
    (hpc : s.pc t = .gate timed arg ∨ s.pc t = .gateWait timed arg)
    (hg : (P.core s.obj).entryGate_.Took g.1 g.2) :
    ∃ k, (k = .quiet ∨ k = .pass) ∧
      Move P s k (P.afterGate s t timed arg g).2 (P.afterGate s t timed arg g).1 := by
  obtain ⟨g, r⟩ := g
  have hA : (s.pc t).isAdmitted = false := by rcases hpc with h | h <;> rw [h] <;> rfl
  have hI : (s.pc t).isInside = false := by rcases hpc with h | h <;> rw [h] <;> rfl
  have hT : (s.pc t).isTimed = timed := by rcases hpc with h | h <;> rw [h] <;> rfl
  rcases hg with ⟨rfl, hpos, hp⟩ | ⟨hr, hp⟩
  · exact ⟨.pass, Or.inr rfl, .pass hpc hpos hp⟩
  · refine ⟨.quiet, Or.inl rfl, ?_⟩
    cases r with
    | acquired => exact absurd rfl hr
    | blocked => exact .quiet hA hI rfl rfl hT.trans nofun hp nofun
    | retry => exact .quiet hA hI rfl rfl hT.trans nofun hp nofun
    | failed => exact .quiet hA hI rfl rfl nofun nofun hp (by simp [afterGate, Event.cycle])

include hP

theorem Lawful.goto_self (x : Pc α) :
    s.goto t s.obj x = s.goto t (P.setGate s.obj (P.core s.obj).entryGate_) x := by
  rw [hP.setGate_self]

theorem resetRound_move (hsd : (P.core s.obj).shutdown_ = false) {k : ℕ}
    (hpc : s.pc t = .idle ∨ s.pc t = .resetting k) :
    Move P s .quiet (P.resetRound s t k).2 (P.resetRound s t k).1 := by
  have hA : (s.pc t).isAdmitted = false := by rcases hpc with h | h <;> rw [h] <;> rfl
  have hI : (s.pc t).isInside = false := by rcases hpc with h | h <;> rw [h] <;> rfl
  unfold resetRound
  simp only [hsd, Bool.false_eq_true, if_false]
  split_ifs with hb hk
  · rw [hP.goto_self]
    exact .quiet hA hI rfl rfl (by simp [Pc.isTimed]) (by rintro _ ⟨⟩; exact ⟨hb, hk⟩) rfl (by simp)
  · rw [hP.goto_self]
    exact .quiet hA hI rfl rfl (by simp [Pc.isTimed]) (by simp) rfl (by simp [Event.cycle])
  · rw [hP.goto_self]
    exact .quiet hA hI rfl rfl (by simp [Pc.isTimed]) (by simp) rfl (by simp [Event.cycle])

/-- An entry is followed by the rest of its section. -/
theorem step_enter_moves {t : ι} {expired : Bool} {ω : Ω} {es : List (Event ι α β)}
    (hsd : (P.core s.obj).shutdown_ = false) (h : P.step s (.enter t expired ω) = some (s', es)) :
    ∃ s₁ e x es', Move P s .enter [e] s₁ ∧ Move P s₁ (.finish x) es' s' ∧ es = e :: es' := by
  simp only [step] at h
  split at h
  · next timed arg hpc =>
    obtain ⟨o, ho, hc⟩ := hP.core_enter s.obj arg hsd
    simp only [ho, Option.some.injEq, Prod.mk.injEq] at h
    obtain ⟨rfl, rfl⟩ := h
    have hsy : (P.core o).synch_ = (P.core s.obj).synch_ := by rw [hc]; rfl
    rw [← afterSection_goto s o (.waiting timed arg (P.core s.obj).count_), ← hsy]
    exact ⟨_, _, _, _, hsy ▸ .enter hpc ho hc,
      .finish (s := s.goto t o (.waiting timed arg (P.core s.obj).count_)) (by simp), rfl⟩
  · cases h

/-- A step is one move, or an entry followed by the rest of its section. -/
theorem step_moves {D : World ι α Obj → Kind → Prop} {a : Act ι α Ω} {es : List (Event ι α β)}
    (hsd : (P.core s.obj).shutdown_ = false) (hD : Allowed D s a)
    (h : P.step s a = some (s', es)) :
    (∃ k, k.Permitted D s ∧ Move P s k es s') ∨
    ∃ s₁ e x es', D s .enter ∧ Move P s .enter [e] s₁ ∧ Move P s₁ (.finish x) es' s' ∧
      es = e :: es' := by
  cases a with
  | call t timed arg =>
    simp only [step] at h
    split at h
    · next hpc =>
      obtain ⟨rfl, rfl⟩ := by simpa using h
      exact Or.inl ⟨.call timed, hD, .call hpc⟩
    · cases h
  | acquire t =>
    simp only [step] at h
    split at h
    · next timed arg hpc =>
      obtain ⟨k, hk, hm⟩ := afterGate_move (Or.inl hpc) (Semaphore.acquire_took _)
      rw [Option.some.injEq] at h
      rw [h] at hm
      exact Or.inl ⟨k, by rcases hk with rfl | rfl <;> trivial, hm⟩
    · cases h
  | resume t r =>
    simp only [step] at h
    split at h
    · next timed arg hpc =>
      split at h
      · cases h
      · obtain ⟨k, hk, hm⟩ := afterGate_move (Or.inr hpc) (Semaphore.resume_took _ r)
        rw [Option.some.injEq] at h
        rw [h] at hm
        exact Or.inl ⟨k, by rcases hk with rfl | rfl <;> trivial, hm⟩
    · cases h
  | enter t expired ω =>
    obtain ⟨s₁, e, x, es', h₁, h₂, he⟩ := step_enter_moves hP hsd h
    exact Or.inr ⟨s₁, e, x, es', hD, h₁, h₂, he⟩
  | wake t expired ω =>
    simp only [step] at h
    split at h
    · next timed arg i hpc =>
      rw [Option.some.injEq, Prod.ext_iff] at h
      obtain ⟨rfl, rfl⟩ := h
      exact Or.inl ⟨.finish _, trivial, .finish hpc⟩
    · cases h
  | waitReset t =>
    simp only [step] at h
    split at h
    · next hpc =>
      have hm := resetRound_move hP hsd (k := (P.core s.obj).synch_) (Or.inl hpc)
      rw [Option.some.injEq] at h
      rw [h] at hm
      exact Or.inl ⟨.quiet, trivial, hm⟩
    · cases h
  | wakeReset t r =>
    simp only [step] at h
    split at h
    · next k hpc =>
      cases r with
      | timedOut =>
        obtain ⟨rfl, rfl⟩ := by simpa using h
        exact Or.inl ⟨.broke k, hD k hpc, .broke hpc⟩
      | woken =>
        have hm := resetRound_move hP hsd (Or.inr hpc)
        rw [Option.some.injEq] at h
        rw [h] at hm
        exact Or.inl ⟨.quiet, trivial, hm⟩
    · cases h

/-! ## The invariant rule -/

/-- No move touches `shutdown_` or `parties_`. -/
theorem Move.frame {k : Kind} {es : List (Event ι α β)}
    (hsd : (P.core s.obj).shutdown_ = false) (h : Move P s k es s') :
    (P.core s'.obj).shutdown_ = false ∧ (P.core s'.obj).parties_ = (P.core s.obj).parties_ := by
  cases h with
  | call _ => exact ⟨hsd, rfl⟩
  | quiet => simp only [World.goto_obj, hP.core_setGate]; exact ⟨hsd, trivial⟩
  | pass => simp only [World.goto_obj, hP.core_setGate]; exact ⟨hsd, trivial⟩
  | enter _ _ hc => simp only [World.goto_obj, hc]; exact ⟨hsd, rfl⟩
  | @finish t timed expired arg i ω hpc =>
    have hf := hP.core_finish s.obj (timed && expired) ω arg i hsd
    simp only [afterSection, World.goto_obj]
    exact ⟨hf.frame.1.trans hsd, hf.frame.2⟩
  | broke => simp only [World.goto_obj, hP.core_breakUp]; exact ⟨hsd, trivial⟩

/-- What every permitted move keeps, every allowed step keeps. -/
theorem step_keeps {D : World ι α Obj → Kind → Prop} {I : List (Event ι α β) → World ι α Obj → Prop}
    (hm : ∀ tr s k es s', k.Permitted D s → (P.core s.obj).shutdown_ = false → I tr s →
      Move P s k es s' → I (tr ++ es) s')
    (tr : List (Event ι α β)) {es : List (Event ι α β)} {a : Act ι α Ω}
    (hsd : (P.core s.obj).shutdown_ = false)
    (hD : Allowed D s a) (hI : I tr s) (h : P.step s a = some (s', es)) :
    (P.core s'.obj).shutdown_ = false ∧ I (tr ++ es) s' := by
  rcases step_moves hP hsd hD h with ⟨k, hk, hmove⟩ | ⟨s₁, e, x, es', hk, h₁, h₂, rfl⟩
  · exact ⟨(hmove.frame hP hsd).1, hm _ _ _ _ _ hk hsd hI hmove⟩
  · have hsd₁ := (h₁.frame hP hsd).1
    refine ⟨(h₂.frame hP hsd₁).1, ?_⟩
    have hI₁ := hm _ _ .enter _ _ hk hsd hI h₁
    have hI₂ := hm _ _ (.finish x) _ _ trivial hsd₁ hI₁ h₂
    rwa [List.append_assoc, List.singleton_append] at hI₂

/-- The invariant rule of the party machine, move by move. -/
theorem inv_of_moves {o : Obj} {D : World ι α Obj → Kind → Prop}
    {I : List (Event ι α β) → World ι α Obj → Prop} (ho : (P.core o).shutdown_ = false)
    (h0 : I [] (P.machine o).init)
    (hm : ∀ tr s k es s', k.Permitted D s → (P.core s.obj).shutdown_ = false → I tr s →
      Move P s k es s' → I (tr ++ es) s')
    {π : List (Taken (World ι α Obj) (Act ι α Ω) (Event ι α β))} (hr : Run (P.machine o) π s)
    (hC : Meets (Allowed D) π) : I (events π) s :=
  (Run.inv (P := fun tr s => (P.core s.obj).shutdown_ = false ∧ I tr s) ⟨ho, h0⟩
    (fun _ _ _ _ _ ha hI hstep => step_keeps hP hm _ hI.1 ha hI.2 hstep) hr hC).2

end Moves

end Party

end Lasagne.Daf
