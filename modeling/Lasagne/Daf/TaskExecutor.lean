import Lasagne.Daf.SynchronousChannel

/-!
# Lasagne.Daf.TaskExecutor — `DAF::TaskExecutor`

`execute(command)` offers its command to the workers that poll the channel, and starts a new worker with it
when none takes it in time.  A worker serves its command and polls again, until its poll fails or the
executor is not available any more.

A machine step is one section under `lock_`, one section of the channel, or one look at `isAvailable()`.
`has_shutdown()` may say anything at any time, so every look has its own answer in the action.  A thread that
calls `execute` from inside `svc(command)` counts as a second thread.  A worker that `module_closed` evicts
leaves as if its `svc` or its poll had thrown: the executor is closed and the channel interrupted before.
-/

namespace Lasagne.Daf

open Lasagne.Trans

namespace TaskExecutor

/-! ## Threads -/

/-- A `Runnable_ref`: nil, or a command with the number of the `execute` that brought it. -/
abbrev Ref (R : Type*) := Option (ℕ × R)

/-- What a new thread runs. -/
inductive WorkerTask (R : Type*) where
  /-- `WorkerTask::run` -/
  | svc
  /-- `WorkerTaskExtended::run` -/
  | task_dispatch (command : Ref R)
deriving DecidableEq, Repr

/-- Where a thread is.  `k` is the number of an `execute(command)`, `tp` of a worker task. -/
inductive Pc (R : Type*) where
  /-- not in the executor, or not started yet -/
  | idle
  /-- in `taskChannel_.offer` -/
  | offering (k : ℕ) (command : R)
  /-- about to call `task_handOff` -/
  | handOff (k : ℕ) (command : R)
  /-- about to lock `lock_` in `task_handOff` -/
  | handLock (k : ℕ) (command : R)
  /-- about to lock `lock_` in `execute(n_threads, ..)` -/
  | groupLock (n_threads : ℕ) (force_active : Bool)
  /-- in `tp->acquire()`, of `execute(command)` or of `execute(n_threads, ..)` -/
  | acquiring (k : Option ℕ) (tp : ℕ)
  /-- about to call `worker->release()` -/
  | starting (tp : ℕ) (task : WorkerTask R)
  /-- at the test of the loop in `task_dispatch` -/
  | dispatch (command : Ref R)
  /-- in `taskChannel_.poll` -/
  | polling
  /-- in `svc(command)` -/
  | serving
  /-- in `svc()` -/
  | running
  /-- about to run `threadCleanup` -/
  | leaving
  | exited
  /-- about to read `executorClosed_` -/
  | closing
  /-- about to set it -/
  | closed
  | interrupting
  /-- waiting for `thr_count_` to become zero -/
  | evicting
deriving DecidableEq, Repr

/-- The first pc of the thread after `worker->release()`. -/
def WorkerTask.run {R : Type*} : WorkerTask R → Pc R
  | .svc => .running
  | .task_dispatch command => .dispatch command

/-- What happens in a run. -/
inductive Event (ι R : Type*) where
  /-- `execute(command)` is called -/
  | execute (k : ℕ) (command : Option R)
  | returned (k : ℕ) (r : ℤ)
  /-- `spawn_n` has started `w` with the command of `k` -/
  | spawned (k : ℕ) (w : ι)
  /-- `p` is in the channel -/
  | channel (p : ι) (e : SynchronousChannel.Event (Ref R))
  /-- `w` calls `svc(command)` -/
  | svc (w : ι) (k : ℕ) (command : R)
  /-- `execute(n_threads, ..)` returns -/
  | group (p : ι) (r : ℤ)
deriving DecidableEq, Repr

/-- The fields of the executor, with the `count_` of every worker task made so far, and the threads. -/
structure World (ι R : Type*) where
  taskChannel_ : SynchronousChannel.World ι (Ref R)
  executorAvailable_ : Bool
  executorClosed_ : Bool
  thr_count_ : UInt64
  count_ : ℕ → ℕ
  tasks : ℕ
  pc : ι → Pc R
  calls : ℕ

/-- One action of one thread; `shut` is the answer of `has_shutdown()`. -/
inductive Act (ι R : Type*) where
  | execute (p : ι) (command : Option R) (shut : Bool)
  | execute_n (p : ι) (n_threads : ℕ) (force_active shut : Bool)
  /-- the next section of `module_closed()` -/
  | module_closed (p : ι)
  /-- the next section of anything else -/
  | run (p : ι) (shut : Bool)
  /-- the next section of the channel, after a wait if there is an `r` -/
  | channel (p : ι) (r : Option WaitResult)
  /-- the section under `lock_` in which `spawn_n` starts the threads `ws` -/
  | lock (p : ι) (shut : Bool) (ws : List ι)
  /-- `svc` throws, or the wait of `module_closed` times out -/
  | throws (p : ι)
deriving DecidableEq, Repr

/-! ## Sections -/

section Step

variable {ι R : Type*} [DecidableEq ι]

/-- `isAvailable()`, which leaves its result in `executorAvailable_`. -/
def isAvailable (s : World ι R) (shut : Bool) : World ι R :=
  { s with executorAvailable_ := s.executorAvailable_ && !shut }

def World.goto (s : World ι R) (p : ι) (x : Pc R) : World ι R :=
  { s with pc := Function.update s.pc p x }

/-- The events of `p` in the channel. -/
def told (p : ι) (es : List (SynchronousChannel.Event (Ref R))) : List (Event ι R) :=
  es.map (Event.channel p)

/-- `execute(command)` up to the first wait. -/
def execute (s : World ι R) (p : ι) (command : Option R) : Option (World ι R × List (Event ι R)) :=
  let k := s.calls
  let s := { s with calls := k + 1 }
  if s.executorAvailable_ then
    match command with
    | none => some (s, [.execute k none, .returned k 0])
    | some c =>
      (SynchronousChannel.step s.taskChannel_ (.put p true (some (k, c)))).map fun r =>
        ({ s.goto p (.offering k c) with taskChannel_ := r.1 }, .execute k (some c) :: told p r.2)
  else some (s, [.execute k command, .returned k (-1)])

/-- What comes after `taskChannel_.offer`. -/
def offerEnds (k : ℕ) (c : R) : SynchronousChannel.Event (Ref R) → Option (Pc R × List (Event ι R))
  | .putRet _ _ => some (.idle, [.returned k 0])
  | .putFail _ _ => some (.handOff k c, [])
  | .putThrew _ _ _ => some (.idle, [.returned k (-1)])
  | _ => none

/-- What comes after `taskChannel_.poll`; both exceptions are `std::runtime_error`s. -/
def pollEnds : SynchronousChannel.Event (Ref R) → Option (Pc R)
  | .took _ _ command => some (.dispatch command)
  | .takeThrew _ _ _ => some .leaving
  | _ => none

/-- A section of the channel. -/
def channel (s : World ι R) (p : ι) (a : SynchronousChannel.Act ι (Ref R)) :
    Option (World ι R × List (Event ι R)) :=
  match s.pc p with
  | .offering k c =>
    (SynchronousChannel.step s.taskChannel_ a).map fun r =>
      let x := (r.2.findSome? (offerEnds k c)).getD (.offering k c, [])
      ({ s.goto p x.1 with taskChannel_ := r.1 }, told p r.2 ++ x.2)
  | .polling =>
    (SynchronousChannel.step s.taskChannel_ a).map fun r =>
      ({ s.goto p ((r.2.findSome? pollEnds).getD .polling) with taskChannel_ := r.1 }, told p r.2)
  | _ => none

/-- The loop of `task_dispatch` once around, up to the poll or to `svc`. -/
def task_dispatch (s : World ι R) (p : ι) (command : Ref R) :
    Option (World ι R × List (Event ι R)) :=
  if s.executorAvailable_ then
    match command with
    | none =>
      (SynchronousChannel.step s.taskChannel_ (.take p true)).map fun r =>
        ({ s.goto p .polling with taskChannel_ := r.1 }, told p r.2)
    | some (k, c) => some (s.goto p .serving, [.svc p k c])
  else some (s.goto p .leaving, [])

/-- `spawn_n` starts one thread after the other, and returns `-1` when one cannot be started. -/
def canSpawn (s : World ι R) (n_threads : ℕ) (ws : List ι) : Bool :=
  ws.length ≤ n_threads ∧ ws.Nodup ∧ ws.all fun w => match s.pc w with
    | .idle => true
    | _ => false

/-- A new worker task, and what `spawn_n` does to it and to `thr_count_`. -/
def spawn_n (s : World ι R) (n_threads : ℕ) (task : WorkerTask R) (ws : List ι) : World ι R :=
  { s with
    thr_count_ := s.thr_count_ + .ofNat n_threads -
      (if ws.length = n_threads then 0 else .ofNat n_threads)
    count_ := Function.update s.count_ s.tasks (Int.bmod n_threads (2 ^ 32)).toNat
    tasks := s.tasks + 1
    pc := fun q => if q ∈ ws then .starting s.tasks task else s.pc q }

/-- `task_handOff` under `lock_`. -/
def task_handOff (s : World ι R) (p : ι) (k : ℕ) (c : R) (ws : List ι) :
    Option (World ι R × List (Event ι R)) :=
  if s.executorAvailable_ then
    if canSpawn s 1 ws then
      let s' := spawn_n s 1 (.task_dispatch (some (k, c))) ws
      if ws.length = 1 then
        some (s'.goto p (.acquiring (some k) s.tasks), ws.map (.spawned k))
      else some (s'.goto p .idle, [.returned k (-1)])
    else none
  else some (s.goto p .idle, [.returned k (-1)])

/-- `execute(n_threads, ..)` under `lock_`. -/
def execute_n (s : World ι R) (p : ι) (n_threads : ℕ) (force_active : Bool) (ws : List ι) :
    Option (World ι R × List (Event ι R)) :=
  if s.executorAvailable_ = false ∨ (force_active = false ∧ s.thr_count_ ≠ 0) then
    some (s.goto p .idle, [.group p (-1)])
  else if canSpawn s n_threads ws then
    let s' := spawn_n s n_threads .svc ws
    if ws.length = n_threads then some (s'.goto p (.acquiring none s.tasks), [])
    else some (s'.goto p .idle, [.group p (-1)])
  else none

/-! ## Steps -/

/-- The next section of `module_closed()`. -/
def module_closed (s : World ι R) (p : ι) : Option (World ι R × List (Event ι R)) :=
  match s.pc p with
  | .idle => some ({ s.goto p .closing with executorAvailable_ := false }, [])
  | .closing => some (s.goto p (if s.executorClosed_ then .idle else .closed), [])
  | .closed => some ({ s.goto p .interrupting with executorClosed_ := true }, [])
  | .interrupting =>
    (SynchronousChannel.step s.taskChannel_ .interrupt).map fun r =>
      ({ s.goto p .evicting with taskChannel_ := r.1 }, told p r.2)
  | .evicting => if s.thr_count_ = 0 then some (s.goto p .idle, []) else none
  | _ => none

/-- The next section of a thread, where nothing is to be chosen. -/
def next (s : World ι R) (p : ι) (shut : Bool) : Option (World ι R × List (Event ι R)) :=
  match s.pc p with
  | .handOff k c =>
    let s := isAvailable s shut
    if s.executorAvailable_ then some (s.goto p (.handLock k c), [])
    else some (s.goto p .idle, [.returned k (-1)])
  | .acquiring k tp =>
    if s.count_ tp = 0 then
      match k with
      | some k => some (s.goto p .idle, [.returned k 0])
      | none => some (s.goto p .idle, [.group p 0])
    else none
  | .starting tp task =>
    some ({ s.goto p task.run with count_ := Function.update s.count_ tp (s.count_ tp - 1) }, [])
  | .dispatch command => task_dispatch (isAvailable s shut) p command
  | .serving => some (s.goto p (.dispatch none), [])
  | .running => some (s.goto p .leaving, [])
  | .leaving => some ({ s.goto p .exited with thr_count_ := s.thr_count_ - 1 }, [])
  | _ => none

/-- One step of one thread. -/
def step (s : World ι R) : Act ι R → Option (World ι R × List (Event ι R))
  | .execute p command shut =>
    match s.pc p with
    | .idle => execute (isAvailable s shut) p command
    | _ => none
  | .execute_n p n_threads force_active shut =>
    match s.pc p with
    | .idle =>
      -- `isAvailable()` is not called for no threads
      if n_threads = 0 then some (s, [.group p (-1)])
      else
        let s := isAvailable s shut
        if s.executorAvailable_ then some (s.goto p (.groupLock n_threads force_active), [])
        else some (s, [.group p (-1)])
    | _ => none
  | .module_closed p => module_closed s p
  | .run p shut => next s p shut
  | .channel p none => channel s p (.run p)
  | .channel p (some r) => channel s p (.wake p r)
  | .lock p shut ws =>
    match s.pc p with
    | .handLock k c => task_handOff (isAvailable s shut) p k c ws
    | .groupLock n_threads force_active => execute_n (isAvailable s shut) p n_threads force_active ws
    | _ => none
  | .throws p =>
    match s.pc p with
    | .serving | .running => some (s.goto p .leaving, [])
    | .evicting => some (s.goto p .idle, [])
    | _ => none

/-- Any number of threads at a new executor. -/
def machine : Machine (World ι R) (Act ι R) (Event ι R) where
  init := ⟨SynchronousChannel.machine.init, true, false, 0, fun _ => 0, 0, fun _ => .idle, 0⟩
  step := step

end Step

end TaskExecutor

end Lasagne.Daf
