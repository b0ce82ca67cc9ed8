import Lasagne.Trans.Run
import Lasagne.Daf.Semaphore

/-!
# Lasagne.Daf.SynchronousChannel — `DAF::SynchronousChannel`

A `put` and a `take` meet at a node.  Whoever comes first makes the node, queues it and waits in it as
its host; the other one takes it off the queue and serves it as its guest.  The queues are under the lock
of the channel and every node is under a lock of its own, so a node may be cancelled between the two.

A machine step is one section under a lock: the look at `interrupted()` at the top of the loop, the
section of the channel, and every section of a node from taking its lock to waiting or leaving.  Each of
them reads the flag of the channel at most once.  `CANCELLED` is final, so the reads of `isCANCELLED` in
`deque`, which does not hold the locks of the nodes, can be put at its end.
-/

namespace Lasagne.Daf

open Lasagne.Trans

namespace SynchronousChannel

/-! ## Nodes -/

/-- The values of `SYNCHNode::state_`. -/
inductive State where
  | CANCELLED
  | EMPTY
  | FULL
deriving DecidableEq, Repr

/-- The fields of `SYNCHNode`; nobody interrupts a node that somebody refers to. -/
structure SYNCHNode (T : Type*) where
  item_ : T
  state_ : State
deriving DecidableEq, Repr

/-- The exceptions of `put` and `take`. -/
inductive Exn where
  | interrupted
  | timeout
deriving DecidableEq, Repr

/-- How a section at a node ends. -/
inductive Ends (R : Type*) where
  /-- in `node->wait` -/
  | waits
  /-- out of the loop of the host, or past the test of the guest: back to the top -/
  | retries
  | returns (r : R)
  | throws (e : Exn)

namespace SYNCHNode

variable {T : Type*} [Inhabited T]

/-- `SYNCHNode::state(int)`; `T()` is `default`. -/
def state (node : SYNCHNode T) : State → SYNCHNode T
  | .CANCELLED => ⟨default, .CANCELLED⟩
  | .EMPTY => ⟨default, .EMPTY⟩
  | .FULL => { node with state_ := .FULL }

/-- `SYNCHNode::put_item`; `none` is `-1`. -/
def put_item (node : SYNCHNode T) (t : T) : Option (SYNCHNode T) :=
  if node.state_ = .EMPTY then some (state { node with item_ := t } .FULL) else none

/-- `SYNCHNode::get_item`; `none` is `-1`. -/
def get_item (node : SYNCHNode T) : Option (T × SYNCHNode T) :=
  if node.state_ = .FULL then some (node.item_, node.state .EMPTY) else none

/-- `catch (...) { node->state(CANCELLED); throw; }`. -/
def throws {R : Type*} (node : SYNCHNode T) (e : Exn) : SYNCHNode T × Ends R :=
  (node.state .CANCELLED, .throws e)

/-- `put` with `waitConsumer`, from the top of its `while` to the wait or the end. -/
def putLoop (node : SYNCHNode T) (interrupted : Bool) : SYNCHNode T × Ends ℤ :=
  if node.state_ = .CANCELLED then (node, .retries)
  else if interrupted then node.throws .interrupted
  else if node.state_ = .FULL then (node, .waits)
  else (node, .returns 0)

/-- `put` with `waitConsumer`, from the return of `node->wait`. -/
def putWoke (node : SYNCHNode T) (interrupted : Bool) (r : WaitResult) : SYNCHNode T × Ends ℤ :=
  if r = .timedOut ∧ node.state_ = .FULL then
    if interrupted then node.throws .interrupted else (node.state .CANCELLED, .returns (-1))
  else if node.state_ = .EMPTY then (node, .returns 0)
  else node.putLoop interrupted

/-- `put` without `waitConsumer`. -/
def putGuest (node : SYNCHNode T) (interrupted : Bool) (t : T) : SYNCHNode T × Ends ℤ :=
  if interrupted then node.throws .interrupted
  else
    match node.put_item t with
    | some node => (node, .returns 0)
    | none => (node, .retries)

/-- `take` with `waitProducer`, from the top of its `while` to the wait or the end. -/
def takeLoop (node : SYNCHNode T) (interrupted : Bool) : SYNCHNode T × Ends T :=
  if node.state_ = .CANCELLED then (node, .retries)
  else if interrupted then node.throws .interrupted
  else
    match node.get_item with
    | some (t, node) => (node, .returns t)
    | none => (node, .waits)

/-- `take` with `waitProducer`, from the return of `node->wait`. -/
def takeWoke (node : SYNCHNode T) (interrupted : Bool) : WaitResult → SYNCHNode T × Ends T
  | .timedOut =>
    match node.get_item with
    | some (t, node) => (node, .returns t)
    | none => node.throws (if interrupted then .interrupted else .timeout)
  | .woken => node.takeLoop interrupted

/-- `take` without `waitProducer`. -/
def takeGuest (node : SYNCHNode T) (interrupted : Bool) : SYNCHNode T × Ends T :=
  if interrupted then node.throws .interrupted
  else
    match node.get_item with
    | some (t, node) => (node, .returns t)
    | none => (node, .retries)

end SYNCHNode

/-! ## The channel -/

/-- The fields of the channel, and the nodes made so far, by number. -/
structure Channel (T : Type*) where
  waitingProducers : List ℕ
  waitingConsumers : List ℕ
  nodes : ℕ → SYNCHNode T
  size : ℕ
  interrupted_ : Bool

/-- `WaiterQueue::deque`: the first node that is not cancelled, and the rest of the queue. -/
def deque {T : Type*} (nodes : ℕ → SYNCHNode T) : List ℕ → Option ℕ × List ℕ
  | [] => (none, [])
  | n :: queue => if (nodes n).state_ = .CANCELLED then deque nodes queue else (some n, queue)

/-- Where a thread is.  Calls have numbers: `c` of a put, `d` of a take; `timed`: `abstime` is given. -/
inductive Pc (T : Type*) where
  | idle
  /-- at the top of `for (;;)` -/
  | putTop (timed : Bool) (c : ℕ) (t : T)
  /-- about to lock the channel -/
  | putLock (timed : Bool) (c : ℕ) (t : T)
  /-- about to lock the node `n` -/
  | putNode (timed : Bool) (c : ℕ) (t : T) (n : ℕ) (waitConsumer : Bool)
  /-- in `node->wait` -/
  | putWait (timed : Bool) (c : ℕ) (t : T) (n : ℕ)
  | takeTop (timed : Bool) (d : ℕ)
  | takeLock (timed : Bool) (d : ℕ)
  | takeNode (timed : Bool) (d : ℕ) (n : ℕ) (waitProducer : Bool)
  | takeWait (timed : Bool) (d : ℕ) (n : ℕ)
deriving DecidableEq, Repr

/-- What happens in a run. -/
inductive Event (T : Type*) where
  /-- `put(t)` is called -/
  | put (c : ℕ) (t : T)
  /-- `take()` is called -/
  | take (d : ℕ)
  /-- the item of `c` is put in `n` -/
  | offered (c n : ℕ)
  /-- `d` has made `n`, or taken it off the queue -/
  | joined (d n : ℕ)
  /-- `c` returns `0` from `n` -/
  | putRet (c n : ℕ)
  /-- `c` returns `-1` from `n` -/
  | putFail (c n : ℕ)
  /-- `c` throws, at the top or at a node -/
  | putThrew (c : ℕ) (at_ : Option ℕ) (e : Exn)
  /-- `d` returns `v`, which it got from `n` -/
  | took (d n : ℕ) (v : T)
  | takeThrew (d : ℕ) (at_ : Option ℕ) (e : Exn)
deriving DecidableEq, Repr

/-- The channel and the threads; `calls` numbers the calls. -/
structure World (ι T : Type*) where
  chan : Channel T
  pc : ι → Pc T
  calls : ℕ

/-- One action of one thread. -/
inductive Act (ι T : Type*) where
  | put (p : ι) (timed : Bool) (t : T)
  | take (p : ι) (timed : Bool)
  /-- the next section that starts with taking a lock or reading the flag -/
  | run (p : ι)
  /-- the section after `node->wait` -/
  | wake (p : ι) (r : WaitResult)
  /-- `interrupt()` -/
  | interrupt
deriving DecidableEq, Repr

section Step

variable {ι T : Type*} [DecidableEq ι]

/-- `p` leaves the channel `ch` behind and goes to `x`. -/
def World.goto (s : World ι T) (p : ι) (ch : Channel T) (x : Pc T) : World ι T :=
  { s with chan := ch, pc := Function.update s.pc p x }

/-- The channel with another node `n`. -/
def Channel.setNode (ch : Channel T) (n : ℕ) (node : SYNCHNode T) : Channel T :=
  { ch with nodes := Function.update ch.nodes n node }

/-- The section of the channel in `put`. -/
def putLocked (s : World ι T) (p : ι) (timed : Bool) (c : ℕ) (t : T) : World ι T × List (Event T) :=
  match deque s.chan.nodes s.chan.waitingConsumers with
  | (some n, queue) =>
    (s.goto p { s.chan with waitingConsumers := queue } (.putNode timed c t n false), [])
  | (none, queue) =>
    let n := s.chan.size
    (s.goto p
      { s.chan with
        waitingConsumers := queue
        waitingProducers := s.chan.waitingProducers ++ [n]
        nodes := Function.update s.chan.nodes n ⟨t, .FULL⟩
        size := n + 1 } (.putNode timed c t n true), [.offered c n])

/-- The section of the channel in `take`. -/
def takeLocked [Inhabited T] (s : World ι T) (p : ι) (timed : Bool) (d : ℕ) :
    World ι T × List (Event T) :=
  match deque s.chan.nodes s.chan.waitingProducers with
  | (some n, queue) =>
    (s.goto p { s.chan with waitingProducers := queue } (.takeNode timed d n false), [.joined d n])
  | (none, queue) =>
    let n := s.chan.size
    (s.goto p
      { s.chan with
        waitingProducers := queue
        waitingConsumers := s.chan.waitingConsumers ++ [n]
        nodes := Function.update s.chan.nodes n ⟨default, .EMPTY⟩
        size := n + 1 } (.takeNode timed d n true), [.joined d n])

/-- Where a section of `put` at the node `n` leaves its thread.  A guest that returns has put its item. -/
def putEnds (s : World ι T) (p : ι) (timed : Bool) (c : ℕ) (t : T) (n : ℕ) (guest : Bool)
    (r : SYNCHNode T × Ends ℤ) : World ι T × List (Event T) :=
  let ch := s.chan.setNode n r.1
  match r.2 with
  | .waits => (s.goto p ch (.putWait timed c t n), [])
  | .retries => (s.goto p ch (.putTop timed c t), [])
  | .returns v =>
    (s.goto p ch .idle,
      if v = 0 then (if guest then [.offered c n] else []) ++ [.putRet c n] else [.putFail c n])
  | .throws e => (s.goto p ch .idle, [.putThrew c (some n) e])

/-- Where a section of `take` at the node `n` leaves its thread. -/
def takeEnds (s : World ι T) (p : ι) (timed : Bool) (d n : ℕ) (r : SYNCHNode T × Ends T) :
    World ι T × List (Event T) :=
  let ch := s.chan.setNode n r.1
  match r.2 with
  | .waits => (s.goto p ch (.takeWait timed d n), [])
  | .retries => (s.goto p ch (.takeTop timed d), [])
  | .returns v => (s.goto p ch .idle, [.took d n v])
  | .throws e => (s.goto p ch .idle, [.takeThrew d (some n) e])

variable [Inhabited T]

/-- One step of one thread. -/
def step (s : World ι T) : Act ι T → Option (World ι T × List (Event T))
  | .put p timed t =>
    match s.pc p with
    | .idle =>
      some ({ s.goto p s.chan (.putTop timed s.calls t) with calls := s.calls + 1 }, [.put s.calls t])
    | _ => none
  | .take p timed =>
    match s.pc p with
    | .idle =>
      some ({ s.goto p s.chan (.takeTop timed s.calls) with calls := s.calls + 1 }, [.take s.calls])
    | _ => none
  | .run p =>
    match s.pc p with
    | .putTop timed c t =>
      if s.chan.interrupted_ then some (s.goto p s.chan .idle, [.putThrew c none .interrupted])
      else some (s.goto p s.chan (.putLock timed c t), [])
    | .putLock timed c t => some (putLocked s p timed c t)
    | .putNode timed c t n waitConsumer =>
      let node := s.chan.nodes n
      some (putEnds s p timed c t n (!waitConsumer)
        (if waitConsumer then node.putLoop s.chan.interrupted_
          else node.putGuest s.chan.interrupted_ t))
    | .takeTop timed d =>
      if s.chan.interrupted_ then some (s.goto p s.chan .idle, [.takeThrew d none .interrupted])
      else some (s.goto p s.chan (.takeLock timed d), [])
    | .takeLock timed d => some (takeLocked s p timed d)
    | .takeNode timed d n waitProducer =>
      let node := s.chan.nodes n
      some (takeEnds s p timed d n
        (if waitProducer then node.takeLoop s.chan.interrupted_
          else node.takeGuest s.chan.interrupted_))
    | _ => none
  | .wake p r =>
    match s.pc p with
    | .putWait timed c t n =>
      -- a wait without `abstime` does not time out
      if r = .timedOut ∧ timed = false then none
      else some (putEnds s p timed c t n false ((s.chan.nodes n).putWoke s.chan.interrupted_ r))
    | .takeWait timed d n =>
      if r = .timedOut ∧ timed = false then none
      else some (takeEnds s p timed d n ((s.chan.nodes n).takeWoke s.chan.interrupted_ r))
    | _ => none
  | .interrupt => some ({ s with chan := { s.chan with interrupted_ := true } }, [])

/-- Any number of threads at a new channel. -/
def machine : Machine (World ι T) (Act ι T) (Event T) where
  init := ⟨⟨[], [], fun _ => ⟨default, .CANCELLED⟩, 0, false⟩, fun _ => .idle, 0⟩
  step := step

end Step

end SynchronousChannel

end Lasagne.Daf
