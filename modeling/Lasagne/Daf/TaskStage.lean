import Lasagne.Daf.ChannelCall
import Lasagne.Daf.TaskExecutor

/-!
# Lasagne.Daf.TaskStage — the stages of an `execute(command)`

`Move` lists what a step of the executor can do to the threads, the channel and the calls, and leaves out the
flags and counters that only decide which of them is enabled.  Every `execute(command)` is at a `Stage`, and
`Account` connects the stages to a state and to the events that led there.

* `step_move`: every step is a move.
* `run_channel`: what a run of the executor does to the channel is a run of the channel.
* `run_account`: every run has an account.
-/

namespace Lasagne.Daf.TaskExecutor

open Lasagne.Trans
open SynchronousChannel (step_frame step_offer)

variable {ι R : Type*}

/-! ## Moves -/

/-- The `execute(command)` a thread is in. -/
def Pc.call : Pc R → Option ℕ
  | .offering k _ | .handOff k _ | .handLock k _ | .acquiring (some k) _ => some k
  | _ => none

/-- The command a worker is going to serve. -/
def Pc.command : Pc R → Ref R
  | .starting _ (.task_dispatch command) | .dispatch command => command
  | _ => none

@[simp] theorem WorkerTask.run_command (tp : ℕ) (task : WorkerTask R) :
    task.run.command = (Pc.starting tp task).command := by
  cases task <;> rfl

@[simp] theorem WorkerTask.run_call (task : WorkerTask R) : task.run.call = none := by
  cases task <;> rfl

/-- The event of the channel in an event. -/
def Event.seen : Event ι R → Option (SynchronousChannel.Event (Ref R))
  | .channel _ e => some e
  | _ => none

@[simp] theorem seen_told (p : ι) (es : List (SynchronousChannel.Event (Ref R))) :
    (told p es).filterMap Event.seen = es := by
  simp [told, List.filterMap_map, Function.comp_def, Event.seen]

/-- The section of the channel in an action `.channel p r`. -/
def inChannel (p : ι) : Option WaitResult → SynchronousChannel.Act ι (Ref R)
  | none => .run p
  | some r => .wake p r

theorem sectionOf_inChannel (p : ι) (r : Option WaitResult) :
    (inChannel p r : SynchronousChannel.Act ι (Ref R)).sectionOf p := by
  cases r with
  | none => exact Or.inl rfl
  | some r => exact Or.inr ⟨r, rfl⟩

section Moves

variable [DecidableEq ι]

/-- What a step can do. -/
inductive Move (s s' : World ι R) : Act ι R → List (Event ι R) → Prop
  /-- `execute` returns at once -/
  | refuse {b : Act ι R} {p : ι} {command : Option R} {r : ℤ} : (command = none ∧ r = 0) ∨ r = -1 →
      s.pc p = .idle → s'.pc = s.pc → s'.taskChannel_ = s.taskChannel_ → s'.calls = s.calls + 1 →
      Move s s' b [.execute s.calls command, .returned s.calls r]
  /-- `execute` offers its command -/
  | offer {b : Act ι R} {p : ι} {c : R} {es : List (SynchronousChannel.Event (Ref R))} : s.pc p = .idle →
      s'.pc = Function.update s.pc p (.offering s.calls c) →
      SynchronousChannel.step s.taskChannel_ (.put p true (some (s.calls, c))) =
        some (s'.taskChannel_, es) →
      s'.calls = s.calls + 1 → Move s s' b (.execute s.calls (some c) :: told p es)
  /-- a section of the offer -/
  | offerOn {p : ι} {r : Option WaitResult} {k : ℕ} {c : R} {a : SynchronousChannel.Act ι (Ref R)}
      {es : List (SynchronousChannel.Event (Ref R))} {x : Pc R × List (Event ι R)} :
      s.pc p = .offering k c → a = inChannel p r →
      SynchronousChannel.step s.taskChannel_ a = some (s'.taskChannel_, es) →
      x = (es.findSome? (offerEnds k c)).getD (.offering k c, []) →
      s'.pc = Function.update s.pc p x.1 → s'.calls = s.calls → Move s s' (.channel p r) (told p es ++ x.2)
  /-- a section of a poll -/
  | pollOn {p : ι} {r : Option WaitResult} {a : SynchronousChannel.Act ι (Ref R)}
      {es : List (SynchronousChannel.Event (Ref R))} : s.pc p = .polling → a = inChannel p r →
      SynchronousChannel.step s.taskChannel_ a = some (s'.taskChannel_, es) →
      s'.pc = Function.update s.pc p ((es.findSome? pollEnds).getD .polling) → s'.calls = s.calls →
      Move s s' (.channel p r) (told p es)
  /-- `task_handOff` goes on to its lock -/
  | handOff {b : Act ι R} {p : ι} {k : ℕ} {c : R} : s.pc p = .handOff k c →
      s'.pc = Function.update s.pc p (.handLock k c) → s'.taskChannel_ = s.taskChannel_ →
      s'.calls = s.calls → Move s s' b []
  /-- `task_handOff` starts nobody -/
  | reject {b : Act ι R} {p : ι} {k : ℕ} {c : R} : s.pc p = .handOff k c ∨ s.pc p = .handLock k c →
      s'.pc = Function.update s.pc p .idle → s'.taskChannel_ = s.taskChannel_ →
      s'.calls = s.calls → Move s s' b [.returned k (-1)]
  /-- `task_handOff` starts `w` -/
  | spawn {b : Act ι R} {p w : ι} {k : ℕ} {c : R} {tp : ℕ} : s.pc p = .handLock k c → s.pc w = .idle →
      s'.pc = Function.update (Function.update s.pc w (.starting tp (.task_dispatch (some (k, c))))) p
        (.acquiring (some k) tp) →
      s'.taskChannel_ = s.taskChannel_ → s'.calls = s.calls → Move s s' b [.spawned k w]
  /-- the new thread has started -/
  | acquire {b : Act ι R} {p : ι} {k tp : ℕ} : s.pc p = .acquiring (some k) tp →
      s'.pc = Function.update s.pc p .idle → s'.taskChannel_ = s.taskChannel_ →
      s'.calls = s.calls → Move s s' b [.returned k 0]
  /-- a worker begins -/
  | start {b : Act ι R} {p : ι} {tp : ℕ} {task : WorkerTask R} : s.pc p = .starting tp task →
      s'.pc = Function.update s.pc p task.run → s'.taskChannel_ = s.taskChannel_ →
      s'.calls = s.calls → Move s s' b []
  | poll {b : Act ι R} {p : ι} {es : List (SynchronousChannel.Event (Ref R))} : s.pc p = .dispatch none →
      s'.pc = Function.update s.pc p .polling →
      SynchronousChannel.step s.taskChannel_ (.take p true) = some (s'.taskChannel_, es) →
      s'.calls = s.calls → Move s s' b (told p es)
  | serve {b : Act ι R} {p : ι} {k : ℕ} {c : R} : s.pc p = .dispatch (some (k, c)) →
      s'.pc = Function.update s.pc p .serving → s'.taskChannel_ = s.taskChannel_ →
      s'.calls = s.calls → Move s s' b [.svc p k c]
  | interrupt {p : ι} {es : List (SynchronousChannel.Event (Ref R))} : s.pc p = .interrupting →
      s'.pc = Function.update s.pc p .evicting →
      SynchronousChannel.step s.taskChannel_ .interrupt = some (s'.taskChannel_, es) →
      s'.calls = s.calls → Move s s' (.module_closed p) (told p es)
  /-- threads that neither are in an `execute(command)` nor get a command -/
  | quiet {b : Act ι R} {es : List (Event ι R)} :
      (∀ q, s'.pc q = s.pc q ∨
        ((s.pc q).call = none ∧ (s'.pc q).call = none ∧ (s'.pc q).command = none)) →
      s'.taskChannel_ = s.taskChannel_ → s'.calls = s.calls → (es = [] ∨ ∃ p r, es = [.group p r]) →
      Move s s' b es

/-- One thread moves quietly. -/
theorem Move.one {s s' : World ι R} {b : Act ι R} {es : List (Event ι R)} {p : ι} {x : Pc R}
    (hx : (s.pc p).call = none) (hcall : x.call = none) (hcom : x.command = none)
    (hpc : s'.pc = Function.update s.pc p x) (hch : s'.taskChannel_ = s.taskChannel_) (hn : s'.calls = s.calls)
    (hes : es = [] ∨ ∃ p r, es = [.group p r]) : Move s s' b es := by
  refine .quiet (fun q => ?_) hch hn hes
  rw [hpc]
  by_cases hq : q = p
  · subst hq
    rw [Function.update_self]
    exact Or.inr ⟨hx, hcall, hcom⟩
  · exact Or.inl (Function.update_of_ne hq _ _)

/-- The flag `executorAvailable_` does not matter to a move. -/
theorem Move.of_isAvailable {s s' : World ι R} {b : Act ι R} {es : List (Event ι R)} {shut : Bool}
    (h : Move (isAvailable s shut) s' b es) : Move s s' b es := by
  cases h with
  | refuse h1 h2 h3 h4 h5 => exact .refuse h1 h2 h3 h4 h5
  | offer h1 h2 h3 h4 => exact .offer h1 h2 h3 h4
  | offerOn h1 h2 h3 h4 h5 h6 => exact .offerOn h1 h2 h3 h4 h5 h6
  | pollOn h1 h2 h3 h4 h5 => exact .pollOn h1 h2 h3 h4 h5
  | handOff h1 h2 h3 h4 => exact .handOff h1 h2 h3 h4
  | reject h1 h2 h3 h4 => exact .reject h1 h2 h3 h4
  | spawn h1 h2 h3 h4 h5 => exact .spawn h1 h2 h3 h4 h5
  | acquire h1 h2 h3 h4 => exact .acquire h1 h2 h3 h4
  | start h1 h2 h3 h4 => exact .start h1 h2 h3 h4
  | poll h1 h2 h3 h4 => exact .poll h1 h2 h3 h4
  | serve h1 h2 h3 h4 => exact .serve h1 h2 h3 h4
  | interrupt h1 h2 h3 h4 => exact .interrupt h1 h2 h3 h4
  | quiet h1 h2 h3 h4 => exact .quiet h1 h2 h3 h4

variable {s s' : World ι R} {es : List (Event ι R)} {p : ι} {b : Act ι R}

theorem execute_move {command : Option R} (hp : s.pc p = .idle)
    (hs : execute s p command = some (s', es)) : Move s s' b es := by
  unfold execute at hs
  dsimp only at hs
  split_ifs at hs
  · cases command with
    | none =>
      obtain ⟨rfl, rfl⟩ := by simpa using hs
      exact .refuse (Or.inl ⟨rfl, rfl⟩) hp rfl rfl rfl
    | some c =>
      simp only [Option.map_eq_some_iff, Prod.mk.injEq] at hs
      obtain ⟨⟨ch, es'⟩, hstep, rfl, rfl⟩ := hs
      exact .offer hp rfl hstep rfl
  · obtain ⟨rfl, rfl⟩ := by simpa using hs
    exact .refuse (Or.inr rfl) hp rfl rfl rfl

theorem channel_move {r : Option WaitResult} (hs : channel s p (inChannel p r) = some (s', es)) :
    Move s s' (.channel p r) es := by
  unfold channel at hs
  split at hs
  · next k c hp =>
    simp only [Option.map_eq_some_iff, Prod.mk.injEq] at hs
    obtain ⟨⟨ch, es'⟩, hstep, rfl, rfl⟩ := hs
    exact .offerOn hp rfl hstep rfl rfl rfl
  · next hp =>
    simp only [Option.map_eq_some_iff, Prod.mk.injEq] at hs
    obtain ⟨⟨ch, es'⟩, hstep, rfl, rfl⟩ := hs
    exact .pollOn hp rfl hstep rfl rfl
  · cases hs

theorem task_dispatch_move {command : Ref R} (hp : s.pc p = .dispatch command)
    (hs : task_dispatch s p command = some (s', es)) : Move s s' b es := by
  unfold task_dispatch at hs
  split_ifs at hs
  · cases command with
    | none =>
      simp only [Option.map_eq_some_iff, Prod.mk.injEq] at hs
      obtain ⟨⟨ch, es'⟩, hstep, rfl, rfl⟩ := hs
      exact .poll hp rfl hstep rfl
    | some kc =>
      obtain ⟨rfl, rfl⟩ := by simpa using hs
      exact .serve hp rfl rfl rfl
  · obtain ⟨rfl, rfl⟩ := by simpa using hs
    exact .one (by rw [hp]; rfl) rfl rfl rfl rfl rfl (Or.inl rfl)

/-- The threads that `spawn_n` starts were not there. -/
theorem idle_of_canSpawn {n : ℕ} {ws : List ι} (h : canSpawn s n ws = true) {w : ι} (hw : w ∈ ws) :
    s.pc w = .idle := by
  simp only [canSpawn, decide_eq_true_eq, List.all_eq_true] at h
  have := h.2.2 w hw
  split at this
  · assumption
  · cases this

theorem task_handOff_move {k : ℕ} {c : R} {ws : List ι} (hp : s.pc p = .handLock k c)
    (hs : task_handOff s p k c ws = some (s', es)) : Move s s' b es := by
  unfold task_handOff at hs
  dsimp only at hs
  split_ifs at hs with hav hcan hone
  · obtain ⟨rfl, rfl⟩ := by simpa using hs
    obtain ⟨w, rfl⟩ := List.length_eq_one_iff.mp hone
    have hw := idle_of_canSpawn hcan (List.mem_singleton_self w)
    have hpc : ((spawn_n s 1 (.task_dispatch (some (k, c))) [w]).goto p (.acquiring (some k) s.tasks)).pc =
        Function.update (Function.update s.pc w (.starting s.tasks (.task_dispatch (some (k, c))))) p
          (.acquiring (some k) s.tasks) := by
      funext q
      simp [World.goto, spawn_n, Function.update_apply]
    exact .spawn hp hw hpc rfl rfl
  · obtain ⟨rfl, rfl⟩ := by simpa using hs
    have hle : ws.length ≤ 1 := by
      simp only [canSpawn, decide_eq_true_eq] at hcan
      exact hcan.1
    obtain rfl : ws = [] := List.length_eq_zero_iff.mp (by omega)
    exact .reject (Or.inr hp) (by simp [World.goto, spawn_n]) rfl rfl
  · obtain ⟨rfl, rfl⟩ := by simpa using hs
    exact .reject (Or.inr hp) rfl rfl rfl

theorem execute_n_move {n : ℕ} {force_active : Bool} {ws : List ι} (hp : s.pc p = .groupLock n force_active)
    (hs : execute_n s p n force_active ws = some (s', es)) : Move s s' b es := by
  -- the new threads have no command, and `p` is in no `execute(command)`
  have hspawn : ∀ x : Pc R, x.call = none → x.command = none → canSpawn s n ws = true → ∀ q,
      ((spawn_n s n .svc ws).goto p x).pc q = s.pc q ∨ ((s.pc q).call = none ∧
        (((spawn_n s n .svc ws).goto p x).pc q).call = none ∧
        (((spawn_n s n .svc ws).goto p x).pc q).command = none) := by
    intro x hcall hcom hcan q
    by_cases hq : q = p
    · subst hq
      exact Or.inr ⟨by rw [hp]; rfl, by simpa [World.goto] using hcall, by simpa [World.goto] using hcom⟩
    · by_cases hw : q ∈ ws
      · rw [idle_of_canSpawn hcan hw]
        simp [World.goto, spawn_n, Function.update_of_ne hq, hw, Pc.call, Pc.command]
      · simp [World.goto, spawn_n, Function.update_of_ne hq, hw]
  unfold execute_n at hs
  dsimp only at hs
  split_ifs at hs with hno hcan hall
  · obtain ⟨rfl, rfl⟩ := by simpa using hs
    exact .one (by rw [hp]; rfl) rfl rfl rfl rfl rfl (Or.inr ⟨_, _, rfl⟩)
  · obtain ⟨rfl, rfl⟩ := by simpa using hs
    exact .quiet (hspawn _ rfl rfl hcan) rfl rfl (Or.inl rfl)
  · obtain ⟨rfl, rfl⟩ := by simpa using hs
    exact .quiet (hspawn _ rfl rfl hcan) rfl rfl (Or.inr ⟨_, _, rfl⟩)

theorem next_move {shut : Bool} (hs : next s p shut = some (s', es)) : Move s s' b es := by
  unfold next at hs
  split at hs
  · next k c hp =>
    dsimp only at hs
    split_ifs at hs <;> obtain ⟨rfl, rfl⟩ := by simpa using hs
    · exact .handOff hp rfl rfl rfl
    · exact .reject (Or.inl hp) rfl rfl rfl
  · next k tp hp =>
    split_ifs at hs
    cases k with
    | some k =>
      obtain ⟨rfl, rfl⟩ := by simpa using hs
      exact .acquire hp rfl rfl rfl
    | none =>
      obtain ⟨rfl, rfl⟩ := by simpa using hs
      exact .one (by rw [hp]; rfl) rfl rfl rfl rfl rfl (Or.inr ⟨_, _, rfl⟩)
  · next tp task hp =>
    obtain ⟨rfl, rfl⟩ := by simpa using hs
    exact .start hp rfl rfl rfl
  · next command hp => exact (task_dispatch_move (s := isAvailable s shut) hp hs).of_isAvailable
  · next hp =>
    obtain ⟨rfl, rfl⟩ := by simpa using hs
    exact .one (by rw [hp]; rfl) rfl rfl rfl rfl rfl (Or.inl rfl)
  · next hp =>
    obtain ⟨rfl, rfl⟩ := by simpa using hs
    exact .one (by rw [hp]; rfl) rfl rfl rfl rfl rfl (Or.inl rfl)
  · next hp =>
    obtain ⟨rfl, rfl⟩ := by simpa using hs
    exact .one (by rw [hp]; rfl) rfl rfl rfl rfl rfl (Or.inl rfl)
  · cases hs

theorem module_closed_move (hs : module_closed s p = some (s', es)) : Move s s' (.module_closed p) es := by
  unfold module_closed at hs
  split at hs
  · next hp =>
    obtain ⟨rfl, rfl⟩ := by simpa using hs
    exact .one (by rw [hp]; rfl) rfl rfl rfl rfl rfl (Or.inl rfl)
  · next hp =>
    obtain ⟨rfl, rfl⟩ := by simpa using hs
    exact .one (by rw [hp]; rfl) (by split_ifs <;> rfl) (by split_ifs <;> rfl) rfl rfl rfl (Or.inl rfl)
  · next hp =>
    obtain ⟨rfl, rfl⟩ := by simpa using hs
    exact .one (by rw [hp]; rfl) rfl rfl rfl rfl rfl (Or.inl rfl)
  · next hp =>
    simp only [Option.map_eq_some_iff, Prod.mk.injEq] at hs
    obtain ⟨⟨ch, es'⟩, hstep, rfl, rfl⟩ := hs
    exact .interrupt hp rfl hstep rfl
  · next hp =>
    split_ifs at hs
    obtain ⟨rfl, rfl⟩ := by simpa using hs
    exact .one (by rw [hp]; rfl) rfl rfl rfl rfl rfl (Or.inl rfl)
  · cases hs

/-- Every step is a move. -/
theorem step_move {a : Act ι R} (hs : step s a = some (s', es)) : Move s s' a es := by
  cases a with
  | execute p command shut =>
    simp only [step] at hs
    split at hs
    · next hp => exact (execute_move (s := isAvailable s shut) hp hs).of_isAvailable
    · cases hs
  | execute_n p n force shut =>
    simp only [step] at hs
    split at hs
    · next hp =>
      split_ifs at hs <;> obtain ⟨rfl, rfl⟩ := by simpa using hs
      · exact .quiet (fun _ => Or.inl rfl) rfl rfl (Or.inr ⟨_, _, rfl⟩)
      · exact .one (by rw [hp]; rfl) rfl rfl rfl rfl rfl (Or.inl rfl)
      · exact .quiet (fun _ => Or.inl rfl) rfl rfl (Or.inr ⟨_, _, rfl⟩)
    · cases hs
  | module_closed p => exact module_closed_move hs
  | run p shut => exact next_move hs
  | channel p r =>
    cases r with
    | none => exact channel_move hs
    | some r => exact channel_move hs
  | lock p shut ws =>
    simp only [step] at hs
    split at hs
    · next hp => exact (task_handOff_move (s := isAvailable s shut) hp hs).of_isAvailable
    · next hp => exact (execute_n_move (s := isAvailable s shut) hp hs).of_isAvailable
    · cases hs
  | throws p =>
    simp only [step] at hs
    split at hs
    · next hp =>
      obtain ⟨rfl, rfl⟩ := by simpa using hs
      exact .one (by rw [hp]; rfl) rfl rfl rfl rfl rfl (Or.inl rfl)
    · next hp =>
      obtain ⟨rfl, rfl⟩ := by simpa using hs
      exact .one (by rw [hp]; rfl) rfl rfl rfl rfl rfl (Or.inl rfl)
    · next hp =>
      obtain ⟨rfl, rfl⟩ := by simpa using hs
      exact .one (by rw [hp]; rfl) rfl rfl rfl rfl rfl (Or.inl rfl)
    · cases hs

end Moves

/-! ## The channel -/

section Part

variable [DecidableEq ι] {s s' : World ι R} {es : List (Event ι R)}

/-- Not a section of `module_closed()`. -/
def Act.noClose : Act ι R → Bool
  | .module_closed _ => false
  | _ => true

omit [DecidableEq ι] in
/-- After the offer nothing of the channel follows. -/
theorem offerEnds_seen {k : ℕ} {c : R} {x : Pc R × List (Event ι R)}
    {ds : List (SynchronousChannel.Event (Ref R))}
    (hx : x = (ds.findSome? (offerEnds k c)).getD (.offering k c, [])) : x.2.filterMap Event.seen = [] := by
  cases hf : ds.findSome? (offerEnds (ι := ι) k c) with
  | none => rw [hx, hf]; rfl
  | some y =>
    obtain ⟨e, -, he⟩ := List.exists_of_findSome?_eq_some hf
    obtain rfl : x = y := by rw [hx, hf]; rfl
    cases e <;> simp only [offerEnds, Option.some.injEq, reduceCtorEq] at he <;> rw [← he] <;> rfl

/-- What an action does in the channel. -/
def Act.Does (a : Act ι R) : SynchronousChannel.Act ι (Ref R) → Prop
  | .put _ _ _ | .take _ _ => True
  | .run p => a = .channel p none
  | .wake p r => a = .channel p (some r)
  | .interrupt => a.noClose = false

omit [DecidableEq ι] in
theorem Act.does_inChannel (p : ι) (r : Option WaitResult) : (.channel p r : Act ι R).Does (inChannel p r) := by
  cases r <;> rfl

omit [DecidableEq ι] in
theorem Act.Does.noInterrupt {a : Act ι R} {b : SynchronousChannel.Act ι (Ref R)} (h : a.Does b)
    (ha : a.noClose = true) : b.noInterrupt = true := by
  cases b with
  | put | take | run | wake => rfl
  | interrupt =>
    rw [show a.noClose = false from h] at ha
    cases ha

/-- A move is one step of the channel, or none. -/
theorem Move.channel {a : Act ι R} (h : Move s s' a es) :
    (s'.taskChannel_ = s.taskChannel_ ∧ es.filterMap Event.seen = []) ∨
      ∃ b, SynchronousChannel.machine.step s.taskChannel_ b =
        some (s'.taskChannel_, es.filterMap Event.seen) ∧ a.Does b := by
  have hin : ∀ {b ds}, SynchronousChannel.step s.taskChannel_ b = some (s'.taskChannel_, ds) →
      es.filterMap Event.seen = ds → a.Does b →
      ∃ b, SynchronousChannel.machine.step s.taskChannel_ b =
        some (s'.taskChannel_, es.filterMap Event.seen) ∧ a.Does b :=
    fun {b _} hb he hn => ⟨b, he ▸ hb, hn⟩
  cases h with
  | refuse _ _ _ hch => exact Or.inl ⟨hch, rfl⟩
  | handOff _ _ hch | reject _ _ hch | spawn _ _ _ hch | acquire _ _ hch | start _ _ hch | serve _ _ hch =>
    exact Or.inl ⟨hch, rfl⟩
  | quiet _ hch _ hes =>
    refine Or.inl ⟨hch, ?_⟩
    rcases hes with rfl | ⟨p, r, rfl⟩ <;> rfl
  | offer _ _ hstep =>
    refine Or.inr (hin hstep ?_ trivial)
    rw [List.filterMap_cons_none rfl, seen_told]
  | offerOn _ ha hstep hx =>
    subst ha
    refine Or.inr (hin hstep ?_ (Act.does_inChannel _ _))
    rw [List.filterMap_append, seen_told, offerEnds_seen hx, List.append_nil]
  | pollOn _ ha hstep =>
    subst ha
    exact Or.inr (hin hstep (seen_told _ _) (Act.does_inChannel _ _))
  | poll _ _ hstep => exact Or.inr (hin hstep (seen_told _ _) trivial)
  | interrupt _ _ hstep => exact Or.inr (hin hstep (seen_told _ _) rfl)

/-- What a run does to the channel is a run of the channel. -/
theorem run_part {C : World ι R → Act ι R → Prop}
    {D : SynchronousChannel.World ι (Ref R) → SynchronousChannel.Act ι (Ref R) → Prop}
    (hCD : ∀ s a b, a.Does b → C s a → D s.taskChannel_ b)
    {π : List (Taken (World ι R) (Act ι R) (Event ι R))} (hr : Run machine π s) :
    ∃ ρ, Run SynchronousChannel.machine ρ s.taskChannel_ ∧
      events ρ = (events π).filterMap Event.seen ∧ (Meets C π → Meets D ρ) :=
  Run.project (f := World.taskChannel_) rfl
    (fun s a _ _ hs => (step_move hs).channel.imp_right fun ⟨b, hb, hab⟩ => ⟨b, hb, hCD s a b hab⟩) hr

/-- It is one without interruption unless the executor is closed. -/
theorem run_channel {π : List (Taken (World ι R) (Act ι R) (Event ι R))} (hr : Run machine π s) :
    ∃ ρ, Run SynchronousChannel.machine ρ s.taskChannel_ ∧
      events ρ = (events π).filterMap Event.seen ∧
      (Meets (fun _ a => a.noClose) π → Meets (fun _ a => a.noInterrupt) ρ) :=
  run_part (fun _ _ _ hab => hab.noInterrupt) hr

end Part

/-! ## Stages -/

/-- How far an `execute(command)` has come: `p` is its thread, `c` its command, `call` its put, and `n` the
node its put came back from. -/
inductive Stage (ι R : Type*) where
  | unborn
  /-- nothing to do -/
  | nil
  /-- not available -/
  | refused (command : Option R)
  | offering (p : ι) (c : R) (call : ℕ)
  /-- the put returned `0` -/
  | accepted (c : R) (call n : ℕ)
  | threw (c : R) (call : ℕ) (at_ : Option ℕ) (e : SynchronousChannel.Exn)
  /-- the put returned `-1` -/
  | failing (p : ι) (c : R) (call n : ℕ)
  /-- and no worker was started -/
  | rejected (c : R) (call n : ℕ)
  /-- and the worker `w` was started -/
  | starting (p : ι) (c : R) (call n : ℕ) (w : ι)
  | started (c : R) (call n : ℕ) (w : ι)

/-- The `execute(command)` an event belongs to. -/
def Event.call : Event ι R → Option ℕ
  | .execute k _ | .returned k _ | .spawned k _ => some k
  | _ => none

/-- The events of `k`. -/
def ofCall (k : ℕ) (tr : List (Event ι R)) : List (Event ι R) := tr.filter fun e => e.call = some k

@[simp] theorem ofCall_append (k : ℕ) (tr es : List (Event ι R)) :
    ofCall k (tr ++ es) = ofCall k tr ++ ofCall k es := by
  simp [ofCall]

@[simp] theorem ofCall_told (k : ℕ) (p : ι) (ds : List (SynchronousChannel.Event (Ref R))) :
    ofCall k (told p ds) = [] := by
  simp [ofCall, told, Event.call]

theorem mem_ofCall {k : ℕ} {tr : List (Event ι R)} {e : Event ι R} (he : e.call = some k) :
    e ∈ ofCall k tr ↔ e ∈ tr := by
  simp [ofCall, he]

namespace Stage

/-- The events of a stage. -/
def log (k : ℕ) : Stage ι R → List (Event ι R)
  | .unborn => []
  | .nil => [.execute k none, .returned k 0]
  | .refused command => [.execute k command, .returned k (-1)]
  | .offering _ c _ | .failing _ c _ _ => [.execute k (some c)]
  | .accepted c _ _ => [.execute k (some c), .returned k 0]
  | .threw c _ _ _ | .rejected c _ _ => [.execute k (some c), .returned k (-1)]
  | .starting _ c _ _ w => [.execute k (some c), .spawned k w]
  | .started c _ _ w => [.execute k (some c), .spawned k w, .returned k 0]

/-- The put, and the command it offers. -/
def put : Stage ι R → Option (ℕ × R)
  | .unborn | .nil | .refused _ => none
  | .offering _ c call | .accepted c call _ | .threw c call _ _ | .failing _ c call _
  | .rejected c call _ | .starting _ c call _ _ | .started c call _ _ => some (call, c)

/-- How the put ended. -/
def Told (tr : List (SynchronousChannel.Event (Ref R))) : Stage ι R → Prop
  | .accepted _ call n => .putRet call n ∈ tr
  | .threw _ call at_ e => .putThrew call at_ e ∈ tr
  | .failing _ _ call n | .rejected _ call n | .starting _ _ call n _ | .started _ call n _ =>
    .putFail call n ∈ tr
  | _ => True

/-- The thread `p` can be there. -/
def Fits (p : ι) : Stage ι R → Pc R → Prop
  | .offering q c _, .offering _ c' | .failing q c _ _, .handOff _ c'
  | .failing q c _ _, .handLock _ c' => q = p ∧ c' = c
  | .starting q _ _ _ _, .acquiring _ _ => q = p
  | _, _ => False

/-- The thread that is in the call. -/
def owner : Stage ι R → Option ι
  | .offering p _ _ | .failing p _ _ _ | .starting p _ _ _ _ => some p
  | _ => none

theorem owner_of_fits {L : Stage ι R} {p : ι} {x : Pc R} (h : L.Fits p x) : L.owner = some p := by
  cases L <;> cases x <;> simp_all [Fits, owner]

theorem of_offering {L : Stage ι R} {p : ι} {k : ℕ} {c : R} (h : L.Fits p (.offering k c)) :
    ∃ call, L = .offering p c call := by
  cases L <;> simp_all [Fits]

theorem of_handOff {L : Stage ι R} {p : ι} {k : ℕ} {c : R}
    (h : L.Fits p (.handOff k c) ∨ L.Fits p (.handLock k c)) : ∃ call n, L = .failing p c call n := by
  rcases h with h | h <;> cases L <;> simp_all [Fits]

theorem of_acquiring {L : Stage ι R} {p : ι} {k : Option ℕ} {tp : ℕ} (h : L.Fits p (.acquiring k tp)) :
    ∃ c call n w, L = .starting p c call n w := by
  cases L <;> simp_all [Fits]

theorem Told.mono {L : Stage ι R} {tr : List (SynchronousChannel.Event (Ref R))} (h : L.Told tr)
    (ds : List (SynchronousChannel.Event (Ref R))) : L.Told (tr ++ ds) := by
  cases L with
  | unborn | nil | refused | offering => trivial
  | accepted | threw | failing | rejected | starting | started => exact List.mem_append_left _ h

end Stage

/-! ## Accounts -/

/-- The stages of all calls fit the state and the events. -/
structure Account (tr : List (Event ι R)) (s : World ι R) (stage : ℕ → Stage ι R) : Prop where
  born : ∀ k, s.calls ≤ k → stage k = .unborn
  logs : ∀ k, ofCall k tr = (stage k).log k
  seated : ∀ p k, (s.pc p).call = some k → (stage k).Fits p (s.pc p)
  offers : ∀ k p c call, stage k = .offering p c call → s.pc p = .offering k c ∧
    (s.taskChannel_.pc p).call = some call ∧ (s.taskChannel_.pc p).item = some (some (k, c))
  puts : ∀ k c call, .put call (some (k, c)) ∈ tr.filterMap Event.seen ↔ (stage k).put = some (call, c)
  ended : ∀ k, (stage k).Told (tr.filterMap Event.seen)

namespace Account

variable {tr es : List (Event ι R)} {s s' : World ι R} {stage : ℕ → Stage ι R} {k : ℕ}

theorem new [DecidableEq ι] :
    Account [] (machine : Machine (World ι R) (Act ι R) (Event ι R)).init fun _ => .unborn where
  born _ _ := rfl
  logs _ := rfl
  seated _ _ h := by cases h
  offers _ _ _ _ h := by cases h
  puts _ _ _ := by simp [Stage.put]
  ended _ := trivial

theorem mem_log (h : Account tr s stage) {e : Event ι R} (he : e.call = some k) :
    e ∈ tr ↔ e ∈ (stage k).log k := by
  rw [← h.logs k, mem_ofCall he]

/-- The stage of a thread that is in a call. -/
theorem owner_eq (h : Account tr s stage) {p : ι} (hp : (s.pc p).call = some k) : (stage k).owner = some p :=
  Stage.owner_of_fits (h.seated p k hp)

theorem lt_calls (h : Account tr s stage) {p : ι} (hp : (s.pc p).call = some k) : k < s.calls := by
  by_contra hk
  have howner := h.owner_eq hp
  rw [h.born k (Nat.le_of_not_lt hk)] at howner
  cases howner

/-- No call gets further. -/
theorem keep (h : Account tr s stage) (hcalls : s'.calls = s.calls) (hes : ∀ j, ofCall j es = [])
    (hpc : ∀ q, s'.pc q = s.pc q ∨ ((s.pc q).call = none ∧ (s'.pc q).call = none))
    (hch : ∀ q, (s.pc q).call ≠ none → s'.taskChannel_.pc q = s.taskChannel_.pc q)
    (hput : ∀ c t, .put c t ∉ es.filterMap Event.seen) : Account (tr ++ es) s' stage where
  born j hj := h.born j (hcalls ▸ hj)
  logs j := by rw [ofCall_append, hes, List.append_nil, h.logs]
  seated q j hj := by
    rcases hpc q with hq | ⟨-, hq⟩
    · rw [hq] at hj ⊢
      exact h.seated q j hj
    · rw [hq] at hj
      cases hj
  offers j q c call hj := by
    obtain ⟨hq, hcall, hitem⟩ := h.offers j q c call hj
    have hin : (s.pc q).call ≠ none := by rw [hq]; simp [Pc.call]
    rw [hch q hin, (hpc q).resolve_right fun hno => hin hno.1]
    exact ⟨hq, hcall, hitem⟩
  puts j c call := by
    rw [List.filterMap_append, List.mem_append, or_iff_left (hput _ _)]
    exact h.puts j c call
  ended j := by
    rw [List.filterMap_append]
    exact (h.ended j).mono _

variable [DecidableEq ι] {p : ι} {L : Stage ι R}

/-- The thread `p` goes on with the call `k`. -/
theorem advance (h : Account tr s stage) (howner : ∀ q, (stage k).owner = some q → q = p)
    (hborn : ∀ j, s'.calls ≤ j → j ≠ k ∧ s.calls ≤ j)
    (hlog : L.log k = (stage k).log k ++ ofCall k es) (hes : ∀ j, j ≠ k → ofCall j es = [])
    (hpc : ∀ q, q ≠ p → s'.pc q = s.pc q ∨ ((s.pc q).call = none ∧ (s'.pc q).call = none))
    (hold : ∀ j, (s.pc p).call = some j → j = k)
    (hnew : ∀ j, (s'.pc p).call = some j → j = k ∧ L.Fits p (s'.pc p))
    (hch : ∀ q, q ≠ p → s'.taskChannel_.pc q = s.taskChannel_.pc q)
    (hoff : ∀ q c call, L = .offering q c call → q = p ∧ s'.pc p = .offering k c ∧
      (s'.taskChannel_.pc p).call = some call ∧ (s'.taskChannel_.pc p).item = some (some (k, c)))
    (hput : ∀ j c call, .put call (some (j, c)) ∈ es.filterMap Event.seen →
      j = k ∧ L.put = some (call, c))
    (hkeep : ∀ c call, L.put = some (call, c) → (stage k).put = some (call, c) ∨
      .put call (some (k, c)) ∈ es.filterMap Event.seen)
    (hgrow : ∀ x, (stage k).put = some x → L.put = some x)
    (htold : L.Told ((tr ++ es).filterMap Event.seen)) :
    Account (tr ++ es) s' (Function.update stage k L) := by
  refine ⟨?_, ?_, ?_, ?_, ?_, ?_⟩
  · intro j hj
    obtain ⟨hjk, hj⟩ := hborn j hj
    rw [Function.update_of_ne hjk]
    exact h.born j hj
  · intro j
    rw [ofCall_append, h.logs]
    by_cases hj : j = k
    · subst hj
      rw [Function.update_self, hlog]
    · rw [Function.update_of_ne hj, hes j hj, List.append_nil]
  · intro q j hj
    by_cases hq : q = p
    · subst hq
      obtain ⟨rfl, hfit⟩ := hnew j hj
      rwa [Function.update_self]
    · rcases hpc q hq with hsame | ⟨-, hno⟩
      · rw [hsame] at hj ⊢
        have hfit := h.seated q j hj
        have hjk : j ≠ k := by
          rintro rfl
          exact hq (howner q (Stage.owner_of_fits hfit))
        rwa [Function.update_of_ne hjk]
      · rw [hno] at hj
        cases hj
  · intro j q c call hj
    by_cases hjk : j = k
    · subst hjk
      rw [Function.update_self] at hj
      obtain ⟨rfl, hrest⟩ := hoff q c call hj
      exact hrest
    · rw [Function.update_of_ne hjk] at hj
      obtain ⟨hq, hrest⟩ := h.offers j q c call hj
      have hqp : q ≠ p := by
        rintro rfl
        exact hjk (hold j (by rw [hq]; rfl))
      rw [hch q hqp, (hpc q hqp).resolve_right fun hno => by rw [hq] at hno; cases hno.1]
      exact ⟨hq, hrest⟩
  · intro j c call
    rw [List.filterMap_append, List.mem_append, h.puts]
    by_cases hj : j = k
    · subst hj
      rw [Function.update_self]
      exact ⟨fun hor => hor.elim (hgrow _) fun hin => (hput j c call hin).2, hkeep c call⟩
    · rw [Function.update_of_ne hj]
      exact or_iff_left fun hin => hj (hput j c call hin).1
  · intro j
    by_cases hj : j = k
    · subst hj
      rwa [Function.update_self]
    · rw [Function.update_of_ne hj, List.filterMap_append]
      exact (h.ended j).mono _

/-- A call is new. -/
theorem start (h : Account tr s stage) (hp : s.pc p = .idle) (hcalls : s'.calls = s.calls + 1)
    (hlog : L.log s.calls = ofCall s.calls es) (hes : ∀ j, j ≠ s.calls → ofCall j es = [])
    (hpc : ∀ q, q ≠ p → s'.pc q = s.pc q)
    (hnew : ∀ j, (s'.pc p).call = some j → j = s.calls ∧ L.Fits p (s'.pc p))
    (hch : ∀ q, q ≠ p → s'.taskChannel_.pc q = s.taskChannel_.pc q)
    (hoff : ∀ q c call, L = .offering q c call → q = p ∧ s'.pc p = .offering s.calls c ∧
      (s'.taskChannel_.pc p).call = some call ∧
      (s'.taskChannel_.pc p).item = some (some (s.calls, c)))
    (hput : ∀ j c call, .put call (some (j, c)) ∈ es.filterMap Event.seen ↔
      j = s.calls ∧ L.put = some (call, c))
    (htold : ∀ ds, L.Told ds) : Account (tr ++ es) s' (Function.update stage s.calls L) := by
  have hL : stage s.calls = .unborn := h.born _ (Nat.le_refl _)
  refine h.advance (p := p) ?_ ?_ ?_ hes (fun q hq => Or.inl (hpc q hq)) ?_ hnew hch hoff
    (fun j c call => (hput j c call).mp) (fun c call hc => Or.inr ((hput _ c call).mpr ⟨rfl, hc⟩)) ?_
    (htold _)
  · intro q hq
    rw [hL] at hq
    cases hq
  · intro j hj
    omega
  · rw [hL, hlog]
    rfl
  · intro j hj
    rw [hp] at hj
    cases hj
  · intro x hx
    rw [hL] at hx
    cases hx

/-- A call goes on outside the channel. -/
theorem goOn (h : Account tr s stage) (hp : (s.pc p).call = some k) (hcalls : s'.calls = s.calls)
    (hch : s'.taskChannel_ = s.taskChannel_) (hlog : L.log k = (stage k).log k ++ ofCall k es)
    (hes : ∀ e ∈ es, e.call = some k)
    (hpc : ∀ q, q ≠ p → s'.pc q = s.pc q ∨ ((s.pc q).call = none ∧ (s'.pc q).call = none))
    (hnew : ∀ j, (s'.pc p).call = some j → j = k ∧ L.Fits p (s'.pc p))
    (hL : ∀ q c call, L ≠ .offering q c call) (hput : L.put = (stage k).put)
    (htold : L.Told (tr.filterMap Event.seen)) :
    Account (tr ++ es) s' (Function.update stage k L) := by
  have hseen : es.filterMap Event.seen = [] := by
    refine List.filterMap_eq_nil_iff.mpr fun e he => ?_
    have := hes e he
    cases e <;> first | rfl | cases this
  refine h.advance (p := p) ?_ ?_ hlog ?_ hpc ?_ hnew (fun q _ => by rw [hch])
    (fun q c call hq => absurd hq (hL q c call)) ?_ (fun c call hc => Or.inl (hput ▸ hc))
    (fun x hx => hput.trans hx) ?_
  · intro q hq
    rw [h.owner_eq hp] at hq
    exact (Option.some.inj hq).symm
  · intro j hj
    have := h.lt_calls hp
    omega
  · intro j hj
    refine List.filter_eq_nil_iff.mpr fun e he => ?_
    simp [hes e he, Ne.symm hj]
  · intro j hj
    rw [hp] at hj
    exact (Option.some.inj hj).symm
  · intro j c call hin
    rw [hseen] at hin
    cases hin
  · rw [List.filterMap_append]
    exact htold.mono _

/-- A section of the offer. -/
theorem offerOn (h : Account tr s stage) {c : R} {a : SynchronousChannel.Act ι (Ref R)}
    {ds : List (SynchronousChannel.Event (Ref R))} {x : Pc R × List (Event ι R)}
    (hp : s.pc p = .offering k c) (ha : a.sectionOf p)
    (hstep : SynchronousChannel.step s.taskChannel_ a = some (s'.taskChannel_, ds))
    (hx : x = (ds.findSome? (offerEnds k c)).getD (.offering k c, []))
    (hpc : s'.pc = Function.update s.pc p x.1) (hcalls : s'.calls = s.calls) :
    ∃ L, Account (tr ++ (told p ds ++ x.2)) s' (Function.update stage k L) := by
  have hcall : (s.pc p).call = some k := by rw [hp]; rfl
  obtain ⟨call, hL⟩ := Stage.of_offering (hp ▸ h.seated p k hcall)
  obtain ⟨-, hc, hi⟩ := h.offers k p c call hL
  obtain ⟨hothers, hnoput⟩ := step_frame ha hstep
  have hseen : (told p ds ++ x.2).filterMap Event.seen = ds := by
    rw [List.filterMap_append, seen_told, offerEnds_seen hx, List.append_nil]
  -- all but the new stage
  have hmain : ∀ L : Stage ι R, L.log k = [.execute k (some c)] ++ ofCall k x.2 →
      (∀ j, j ≠ k → ofCall j x.2 = []) → (∀ j, x.1.call = some j → j = k ∧ L.Fits p x.1) →
      (∀ q c' call', L = .offering q c' call' → q = p ∧ c' = c ∧ call' = call ∧
        x.1 = .offering k c ∧ (s'.taskChannel_.pc p).call = some call ∧
        (s'.taskChannel_.pc p).item = some (some (k, c))) →
      L.put = some (call, c) → L.Told (tr.filterMap Event.seen ++ ds) →
      Account (tr ++ (told p ds ++ x.2)) s' (Function.update stage k L) := by
    intro L hlog hes hnew hoff hput htold
    refine h.advance (p := p) ?_ ?_ ?_ ?_ ?_ ?_ ?_ hothers ?_ ?_ ?_ ?_ ?_
    · intro q hq
      rw [h.owner_eq hcall] at hq
      exact (Option.some.inj hq).symm
    · intro j hj
      have := h.lt_calls hcall
      omega
    · rw [hlog, hL, ofCall_append, ofCall_told]
      rfl
    · intro j hj
      rw [ofCall_append, ofCall_told, hes j hj]
      rfl
    · exact fun q hq => Or.inl (by rw [hpc, Function.update_of_ne hq])
    · intro j hj
      rw [hcall] at hj
      exact (Option.some.inj hj).symm
    · rwa [hpc, Function.update_self]
    · intro q c' call' hq
      obtain ⟨rfl, rfl, rfl, hx1, hrest⟩ := hoff q c' call' hq
      rw [hpc, Function.update_self]
      exact ⟨rfl, hx1, hrest⟩
    · intro j c' call' hin
      rw [hseen] at hin
      exact absurd hin (hnoput _ _)
    · intro c' call' hc'
      rw [hL]
      exact Or.inl (hput.symm.trans hc')
    · intro y hy
      rw [hL] at hy
      exact hput.trans hy
    · rwa [List.filterMap_append, hseen]
  obtain ⟨pre, hpre, ⟨rfl, hc', hi'⟩ | ⟨hidle, e, he, rfl⟩⟩ := step_offer hc hi ha hstep
  · have hx' : x = (.offering k c, []) := by
      rw [hx]
      rcases hpre with rfl | ⟨n, rfl⟩ <;> rfl
    refine ⟨.offering p c call, hmain _ ?_ ?_ ?_ ?_ rfl trivial⟩
    · rw [hx']
      rfl
    · rw [hx']
      exact fun _ _ => rfl
    · rw [hx']
      intro j hj
      exact ⟨(Option.some.inj hj).symm, rfl, rfl⟩
    · rintro q c' call' ⟨⟩
      exact ⟨rfl, rfl, rfl, by rw [hx'], hc', hi'⟩
  · have hlast : ∀ ev : SynchronousChannel.Event (Ref R),
        ev ∈ tr.filterMap Event.seen ++ (pre ++ [ev]) := by simp
    rcases he with ⟨n, rfl⟩ | ⟨n, rfl⟩ | ⟨at_, ex, rfl⟩
    · have hx' : x = (.idle, [.returned k 0]) := by
        rw [hx]
        rcases hpre with rfl | ⟨m, rfl⟩ <;> rfl
      refine ⟨.accepted c call n, hmain _ ?_ ?_ ?_ nofun rfl (hlast _)⟩ <;> rw [hx']
      · simp [ofCall, Event.call, Stage.log]
      · intro j hj
        simp [ofCall, Event.call, Ne.symm hj]
      · nofun
    · have hx' : x = (.handOff k c, []) := by
        rw [hx]
        rcases hpre with rfl | ⟨m, rfl⟩ <;> rfl
      refine ⟨.failing p c call n, hmain _ ?_ ?_ ?_ nofun rfl (hlast _)⟩ <;> rw [hx']
      · rfl
      · exact fun _ _ => rfl
      · intro j hj
        exact ⟨(Option.some.inj hj).symm, rfl, rfl⟩
    · have hx' : x = (.idle, [.returned k (-1)]) := by
        rw [hx]
        rcases hpre with rfl | ⟨m, rfl⟩ <;> rfl
      refine ⟨.threw c call at_ ex, hmain _ ?_ ?_ ?_ nofun rfl (hlast _)⟩ <;> rw [hx']
      · simp [ofCall, Event.call, Stage.log]
      · intro j hj
        simp [ofCall, Event.call, Ne.symm hj]
      · nofun

end Account

section Steps

variable [DecidableEq ι] {tr es : List (Event ι R)} {s s' : World ι R} {stage : ℕ → Stage ι R}

namespace Account

variable {p : ι} {k : ℕ} {c : R}

/-- One thread moves outside the calls of `execute`. -/
theorem outside (h : Account tr s stage) {x : Pc R} (hp : (s.pc p).call = none) (hx : x.call = none)
    (hpc : s'.pc = Function.update s.pc p x) (hcalls : s'.calls = s.calls) (hes : ∀ j, ofCall j es = [])
    (hch : ∀ q, q ≠ p → s'.taskChannel_.pc q = s.taskChannel_.pc q)
    (hput : ∀ c t, .put c t ∉ es.filterMap Event.seen) : Account (tr ++ es) s' stage := by
  refine h.keep hcalls hes (fun q => ?_) (fun q hq => hch q ?_) hput
  · by_cases hq : q = p
    · subst hq
      rw [hpc, Function.update_self]
      exact Or.inr ⟨hp, hx⟩
    · exact Or.inl (by rw [hpc, Function.update_of_ne hq])
  · rintro rfl
    exact hq hp

/-- `execute` returns at once. -/
theorem refuse (h : Account tr s stage) {command : Option R} {r : ℤ} (hr : (command = none ∧ r = 0) ∨ r = -1)
    (hp : s.pc p = .idle) (hpc : s'.pc = s.pc) (hch : s'.taskChannel_ = s.taskChannel_)
    (hcalls : s'.calls = s.calls + 1) :
    ∃ L, Account (tr ++ [.execute s.calls command, .returned s.calls r]) s' (Function.update stage s.calls L) := by
  have hstart : ∀ L : Stage ι R, L.log s.calls = [.execute s.calls command, .returned s.calls r] →
      (∀ q c call, L ≠ .offering q c call) → L.put = none → (∀ ds, L.Told ds) →
      Account (tr ++ [.execute s.calls command, .returned s.calls r]) s' (Function.update stage s.calls L) := by
    intro L hlog hL hput htold
    refine h.start hp hcalls ?_ ?_ (fun q _ => by rw [hpc]) ?_ (fun q _ => by rw [hch])
      (fun q c call hq => absurd hq (hL q c call)) ?_ htold
    · simp [hlog, ofCall, Event.call]
    · intro j hj
      simp [ofCall, Event.call, Ne.symm hj]
    · intro j hj
      rw [hpc, hp] at hj
      cases hj
    · simp [Event.seen, hput]
  rcases hr with ⟨rfl, rfl⟩ | rfl
  · exact ⟨_, hstart .nil rfl (fun _ _ _ hL => by cases hL) rfl fun _ => trivial⟩
  · exact ⟨_, hstart (.refused command) rfl (fun _ _ _ hL => by cases hL) rfl fun _ => trivial⟩

/-- `execute` offers its command. -/
theorem offer (h : Account tr s stage) {ds : List (SynchronousChannel.Event (Ref R))} (hp : s.pc p = .idle)
    (hpc : s'.pc = Function.update s.pc p (.offering s.calls c))
    (hstep : SynchronousChannel.step s.taskChannel_ (.put p true (some (s.calls, c))) = some (s'.taskChannel_, ds))
    (hcalls : s'.calls = s.calls + 1) :
    ∃ L, Account (tr ++ .execute s.calls (some c) :: told p ds) s' (Function.update stage s.calls L) := by
  obtain ⟨hchan, rfl⟩ := SynchronousChannel.step_put hstep
  refine ⟨_, h.start (L := .offering p c s.taskChannel_.calls) hp hcalls ?_ ?_ ?_ ?_ ?_ ?_ ?_
    fun _ => trivial⟩
  · simp [ofCall, told, Event.call, Stage.log]
  · intro j hj
    simp [ofCall, told, Event.call, Ne.symm hj]
  · intro q hq
    rw [hpc, Function.update_of_ne hq]
  · intro j hj
    rw [hpc, Function.update_self] at hj ⊢
    exact ⟨(Option.some.inj hj).symm, rfl, rfl⟩
  · intro q hq
    rw [hchan, Function.update_of_ne hq]
  · rintro q c' call ⟨⟩
    rw [hpc, hchan]
    simp [SynchronousChannel.Pc.call, SynchronousChannel.Pc.item]
  · intro j c' call
    simp only [told, List.map_cons, List.map_nil, List.filterMap_cons, Event.seen, List.filterMap_nil,
      List.mem_singleton, SynchronousChannel.Event.put.injEq, Option.some.injEq, Prod.mk.injEq,
      Stage.put]
    tauto

/-- `task_handOff` goes on to its lock. -/
theorem handOff (h : Account tr s stage) (hp : s.pc p = .handOff k c)
    (hpc : s'.pc = Function.update s.pc p (.handLock k c)) (hch : s'.taskChannel_ = s.taskChannel_)
    (hcalls : s'.calls = s.calls) : Account (tr ++ []) s' (Function.update stage k (stage k)) := by
  have hcall : (s.pc p).call = some k := by rw [hp]; rfl
  obtain ⟨call, n, hL⟩ := Stage.of_handOff (Or.inl (hp ▸ h.seated p k hcall))
  refine h.goOn hcall hcalls hch (by simp [ofCall]) (by simp) ?_ ?_ ?_ rfl (h.ended k)
  · exact fun q hq => Or.inl (by rw [hpc, Function.update_of_ne hq])
  · intro j hj
    rw [hpc, Function.update_self] at hj ⊢
    rw [hL]
    exact ⟨(Option.some.inj hj).symm, rfl, rfl⟩
  · intro q c' call'
    rw [hL]
    intro hoff
    cases hoff

/-- `task_handOff` starts nobody. -/
theorem reject (h : Account tr s stage) (hp : s.pc p = .handOff k c ∨ s.pc p = .handLock k c)
    (hpc : s'.pc = Function.update s.pc p .idle) (hch : s'.taskChannel_ = s.taskChannel_)
    (hcalls : s'.calls = s.calls) :
    ∃ L, Account (tr ++ [.returned k (-1)]) s' (Function.update stage k L) := by
  have hcall : (s.pc p).call = some k := by rcases hp with hp | hp <;> rw [hp] <;> rfl
  obtain ⟨call, n, hL⟩ := Stage.of_handOff (hp.imp (fun hp => hp ▸ h.seated p k hcall)
    fun hp => hp ▸ h.seated p k hcall)
  have htold := h.ended k
  rw [hL] at htold
  refine ⟨_, h.goOn (L := .rejected c call n) hcall hcalls hch ?_ ?_ ?_ ?_ (fun _ _ _ hoff => by cases hoff)
    (by rw [hL]; rfl) htold⟩
  · simp [hL, Stage.log, ofCall, Event.call]
  · simp [Event.call]
  · exact fun q hq => Or.inl (by rw [hpc, Function.update_of_ne hq])
  · intro j hj
    rw [hpc, Function.update_self] at hj
    cases hj

/-- `task_handOff` starts `w`. -/
theorem spawn (h : Account tr s stage) {w : ι} {tp : ℕ} (hp : s.pc p = .handLock k c) (hw : s.pc w = .idle)
    (hpc : s'.pc = Function.update (Function.update s.pc w (.starting tp (.task_dispatch (some (k, c))))) p
      (.acquiring (some k) tp))
    (hch : s'.taskChannel_ = s.taskChannel_) (hcalls : s'.calls = s.calls) :
    ∃ L, Account (tr ++ [.spawned k w]) s' (Function.update stage k L) := by
  have hcall : (s.pc p).call = some k := by rw [hp]; rfl
  obtain ⟨call, n, hL⟩ := Stage.of_handOff (Or.inr (hp ▸ h.seated p k hcall))
  have htold := h.ended k
  rw [hL] at htold
  refine ⟨_, h.goOn (L := .starting p c call n w) hcall hcalls hch ?_ ?_ ?_ ?_
    (fun _ _ _ hoff => by cases hoff) (by rw [hL]; rfl) htold⟩
  · simp [hL, Stage.log, ofCall, Event.call]
  · simp [Event.call]
  · intro q hq
    rw [hpc, Function.update_of_ne hq]
    by_cases hqw : q = w
    · subst hqw
      rw [Function.update_self, hw]
      exact Or.inr ⟨rfl, rfl⟩
    · exact Or.inl (Function.update_of_ne hqw _ _)
  · intro j hj
    rw [hpc, Function.update_self] at hj ⊢
    exact ⟨(Option.some.inj hj).symm, rfl⟩

/-- The new thread has started. -/
theorem acquire (h : Account tr s stage) {tp : ℕ} (hp : s.pc p = .acquiring (some k) tp)
    (hpc : s'.pc = Function.update s.pc p .idle) (hch : s'.taskChannel_ = s.taskChannel_)
    (hcalls : s'.calls = s.calls) : ∃ L, Account (tr ++ [.returned k 0]) s' (Function.update stage k L) := by
  have hcall : (s.pc p).call = some k := by rw [hp]; rfl
  obtain ⟨c, call, n, w, hL⟩ := Stage.of_acquiring (hp ▸ h.seated p k hcall)
  have htold := h.ended k
  rw [hL] at htold
  refine ⟨_, h.goOn (L := .started c call n w) hcall hcalls hch ?_ ?_ ?_ ?_
    (fun _ _ _ hoff => by cases hoff) (by rw [hL]; rfl) htold⟩
  · simp [hL, Stage.log, ofCall, Event.call]
  · simp [Event.call]
  · exact fun q hq => Or.inl (by rw [hpc, Function.update_of_ne hq])
  · intro j hj
    rw [hpc, Function.update_self] at hj
    cases hj

end Account

/-- Every move goes on with the account. -/
theorem Move.account {a : Act ι R} (hm : Move s s' a es) (h : Account tr s stage) :
    ∃ stage', Account (tr ++ es) s' stage' := by
  cases hm with
  | refuse hr hp hpc hch hcalls =>
    obtain ⟨L, hL⟩ := h.refuse hr hp hpc hch hcalls
    exact ⟨_, hL⟩
  | offer hp hpc hstep hcalls =>
    obtain ⟨L, hL⟩ := h.offer hp hpc hstep hcalls
    exact ⟨_, hL⟩
  | offerOn hp ha hstep hx hpc hcalls =>
    obtain ⟨L, hL⟩ := h.offerOn hp (ha ▸ sectionOf_inChannel _ _) hstep hx hpc hcalls
    exact ⟨_, hL⟩
  | @pollOn p _ a ds hp ha hstep hpc hcalls =>
    obtain ⟨hothers, hnoput⟩ := step_frame (ha ▸ sectionOf_inChannel _ _) hstep
    refine ⟨_, h.outside (by rw [hp]; rfl) ?_ hpc hcalls (fun j => ofCall_told j p ds) hothers
      (by rwa [seen_told])⟩
    cases hf : ds.findSome? pollEnds with
    | none => rfl
    | some y =>
      obtain ⟨e, -, he⟩ := List.exists_of_findSome?_eq_some hf
      cases e <;> simp only [pollEnds, Option.some.injEq, reduceCtorEq] at he <;> rw [← he] <;> rfl
  | handOff hp hpc hch hcalls => exact ⟨_, h.handOff hp hpc hch hcalls⟩
  | reject hp hpc hch hcalls =>
    obtain ⟨L, hL⟩ := h.reject hp hpc hch hcalls
    exact ⟨_, hL⟩
  | spawn hp hw hpc hch hcalls =>
    obtain ⟨L, hL⟩ := h.spawn hp hw hpc hch hcalls
    exact ⟨_, hL⟩
  | acquire hp hpc hch hcalls =>
    obtain ⟨L, hL⟩ := h.acquire hp hpc hch hcalls
    exact ⟨_, hL⟩
  | @start _ p tp task hp hpc hch hcalls =>
    exact ⟨_, h.outside (by rw [hp]; rfl) task.run_call hpc hcalls (fun _ => rfl) (fun q _ => by rw [hch])
      (by simp)⟩
  | @poll _ p ds hp hpc hstep hcalls =>
    obtain ⟨hothers, hnoput⟩ := SynchronousChannel.step_take hstep
    exact ⟨_, h.outside (by rw [hp]; rfl) rfl hpc hcalls (fun j => ofCall_told j p ds) hothers
      (by rwa [seen_told])⟩
  | @serve _ p k c hp hpc hch hcalls =>
    exact ⟨_, h.outside (by rw [hp]; rfl) rfl hpc hcalls (fun _ => rfl) (fun q _ => by rw [hch])
      (by simp [Event.seen])⟩
  | @interrupt p ds hp hpc hstep hcalls =>
    obtain ⟨hch, rfl⟩ := by simpa [SynchronousChannel.step] using hstep
    exact ⟨_, h.outside (by rw [hp]; rfl) rfl hpc hcalls (fun _ => rfl) (fun q _ => by rw [← hch])
      (by simp [told])⟩
  | quiet hpc hch hcalls hes =>
    refine ⟨_, h.keep hcalls ?_ (fun q => (hpc q).imp_right fun hq => ⟨hq.1, hq.2.1⟩)
      (fun q _ => by rw [hch]) ?_⟩
    · rcases hes with rfl | ⟨p, r, rfl⟩ <;> exact fun _ => rfl
    · rcases hes with rfl | ⟨p, r, rfl⟩ <;> simp [Event.seen]

/-- Every run has an account. -/
theorem run_account {π : List (Taken (World ι R) (Act ι R) (Event ι R))} (hr : Run machine π s) :
    ∃ stage, Account (events π) s stage := by
  induction hr with
  | start => exact ⟨_, Account.new⟩
  | snoc _ hstep ih =>
    obtain ⟨stage, h⟩ := ih
    rw [events_snoc]
    exact (step_move hstep).account h

end Steps

end Lasagne.Daf.TaskExecutor
