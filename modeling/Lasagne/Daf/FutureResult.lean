import Lasagne.Trans.Run
import Lasagne.Trans.Count
import Lasagne.Daf.Semaphore

/-!
# Lasagne.Daf.FutureResult — `DAF::FutureResult`

A value that is set once it is there: `get` waits for it, an error lasts until the next `reset`.

A machine step is one section under the lock of the monitor: a whole `reset`, `setError` or `setValue`, or what
`get` does between two waits.  A wait may throw, when it starts or when it ends, and so may the copy of the value
that `get` returns; the assignments to `value_` do not.

* `Move` and `step_move`: what a step can do.
* `Tells`: the fields as functions of what has happened since the latest `reset`.
* `Run.waiters`: what `waiters_` is, with the handler that counts a copy that throws once more.
-/

namespace Lasagne.Daf.FutureResult

open Lasagne.Trans

/-! ## The object and its threads -/

/-- Where a thread is. -/
inductive Pc where
  | idle
  /-- in a wait of `get`; `timed`: `msecs` is given, `notified`: there was a `notifyAll` since it got there -/
  | waiting (timed notified : Bool)
deriving DecidableEq, Repr

/-- What `notifyAll` does to a thread. -/
def Pc.notify : Pc → Pc
  | .waiting timed _ => .waiting timed true
  | .idle => .idle

/-- In `get`. -/
def Pc.isInside : Pc → Bool
  | .waiting _ _ => true
  | .idle => false

@[simp] theorem Pc.isInside_notify (x : Pc) : x.notify.isInside = x.isInside := by
  cases x <;> rfl

/-- The exceptions that `get` throws by itself. -/
inductive Exn where
  | timeout
  | invocationTarget
deriving DecidableEq, Repr

/-- What happens in a run. -/
inductive Event (ι T : Type*) where
  | reset (p : ι)
  | setError (p : ι)
  | setValue (p : ι) (value : T)
  /-- `get` returns a value -/
  | got (p : ι) (value : T)
  | threw (p : ι) (e : Exn)
  /-- `get` throws what its wait threw -/
  | waitThrew (p : ι)
  /-- `get` throws what the copy of the value threw -/
  | copyThrew (p : ι)
deriving DecidableEq, Repr

structure World (ι T : Type*) where
  ready_ : Bool
  error_ : Bool
  waiters_ : ℕ
  value_ : T
  pc : ι → Pc

/-- One section of one thread; `expired`: `end_time` has passed, `fails`: the copy of the value throws, or the wait
when it starts. -/
inductive Act (ι T : Type*) where
  /-- `get`, to its first wait or its end -/
  | get (p : ι) (timed expired fails : Bool)
  /-- `get`, from the end of a wait on; `throws`: the wait ends with an exception -/
  | wake (p : ι) (throws expired fails : Bool)
  | reset (p : ι)
  | setError (p : ι)
  | setValue (p : ι) (value : T)
deriving DecidableEq, Repr

section Step

variable {ι T : Type*} [DecidableEq ι]

def World.goto (s : World ι T) (p : ι) (x : Pc) : World ι T :=
  { s with pc := Function.update s.pc p x }

/-- `++this->waiters_`. -/
def World.enter (s : World ι T) : World ι T := { s with waiters_ := toSize (s.waiters_ + 1) }

/-- `--this->waiters_`, and the thread is on its way out. -/
def World.leave (s : World ι T) (p : ι) : World ι T :=
  { s.goto p .idle with waiters_ := toSize (s.waiters_ - 1) }

/-- `catch (...)`. -/
def World.caught (s : World ι T) (p : ι) : World ι T :=
  { s.leave p with error_ := true }

/-- The loop of `get` to the next wait or the end, with the thread counted in `waiters_`. -/
def getLoop (s : World ι T) (p : ι) (timed expired fails : Bool) : World ι T × List (Event ι T) :=
  if s.error_ then (s.leave p, [.threw p .invocationTarget])
  else if s.ready_ then
    -- `--waiters_` comes before the copy, and the copy is made within the `try`
    if fails then ((s.leave p).caught p, [.copyThrew p]) else (s.leave p, [.got p s.value_])
  else if timed ∧ expired then (s.leave p, [.threw p .timeout])
  else if fails then (s.caught p, [.waitThrew p])
  else (s.goto p (.waiting timed false), [])

/-- One section of one thread. -/
def step [Inhabited T] (s : World ι T) : Act ι T → Option (World ι T × List (Event ι T))
  | .get p timed expired fails =>
    match s.pc p with
    | .idle => some (getLoop s.enter p timed expired fails)
    | .waiting _ _ => none
  | .wake p throws expired fails =>
    match s.pc p with
    | .idle => none
    | .waiting timed _ =>
      some (if throws then (s.caught p, [.waitThrew p]) else getLoop s p timed expired fails)
  | .reset p =>
    match s.pc p with
    | .idle => some ({ s with ready_ := false, error_ := false }, [.reset p])
    | .waiting _ _ => none
  | .setError p =>
    match s.pc p with
    | .idle =>
      some ({ s with value_ := default, error_ := true, pc := fun q => (s.pc q).notify }, [.setError p])
    | .waiting _ _ => none
  | .setValue p value =>
    match s.pc p with
    | .idle =>
      some ({ s with value_ := value, ready_ := true, pc := fun q => (s.pc q).notify }, [.setValue p value])
    | .waiting _ _ => none

/-- Any number of threads at a new object. -/
def machine [Inhabited T] : Machine (World ι T) (Act ι T) (Event ι T) where
  init := ⟨false, false, 0, default, fun _ => .idle⟩
  step := step

/-! ## Moves -/

/-- A section of `get` that comes to the value, with a copy that throws. -/
def copyFails (s : World ι T) : Act ι T → Bool
  | .get _ _ _ fails => !s.error_ && s.ready_ && fails
  | .wake _ false _ fails => !s.error_ && s.ready_ && fails
  | _ => false

/-- How a section of `get` ends. -/
inductive Ends (s s' : World ι T) (p : ι) : List (Event ι T) → Prop
  | error : s.error_ = true → s' = s.leave p → Ends s s' p [.threw p .invocationTarget]
  | got : s.error_ = false → s.ready_ = true → s' = s.leave p → Ends s s' p [.got p s.value_]
  | copy : s.error_ = false → s.ready_ = true → s' = (s.leave p).caught p → Ends s s' p [.copyThrew p]
  | timeout : s.error_ = false → s.ready_ = false → s' = s.leave p → Ends s s' p [.threw p .timeout]
  | wait {timed : Bool} : s.error_ = false → s.ready_ = false → s' = s.goto p (.waiting timed false) →
      Ends s s' p []
  | waitThrew : s' = s.caught p → Ends s s' p [.waitThrew p]

/-- What a step can do. -/
inductive Move [Inhabited T] (s s' : World ι T) : List (Event ι T) → Prop
  /-- a `get` starts -/
  | get {p : ι} {es : List (Event ι T)} : s.pc p = .idle →
      Ends s.enter s' p es → Move s s' es
  /-- a `get` goes on -/
  | wake {p : ι} {es : List (Event ι T)} : (s.pc p).isInside = true → Ends s s' p es → Move s s' es
  | reset {p : ι} : s' = { s with ready_ := false, error_ := false } → Move s s' [.reset p]
  | setError {p : ι} : s' = { s with value_ := default, error_ := true, pc := fun q => (s.pc q).notify } →
      Move s s' [.setError p]
  | setValue {p : ι} {value : T} :
      s' = { s with value_ := value, ready_ := true, pc := fun q => (s.pc q).notify } →
      Move s s' [.setValue p value]

variable {s s' : World ι T} {a : Act ι T} {es : List (Event ι T)}

theorem getLoop_ends {p : ι} {timed expired fails : Bool} (h : getLoop s p timed expired fails = (s', es)) :
    Ends s s' p es := by
  unfold getLoop at h
  split_ifs at h with he hready hfails ht hfails <;> obtain ⟨rfl, rfl⟩ := Prod.mk.inj h
  · exact .error he rfl
  · exact .copy (by simpa using he) hready rfl
  · exact .got (by simpa using he) hready rfl
  · exact .timeout (by simpa using he) (by simpa using hready) rfl
  · exact .waitThrew rfl
  · exact .wait (by simpa using he) (by simpa using hready) rfl

variable [Inhabited T]

/-- Every step is a move. -/
theorem step_move (hs : step s a = some (s', es)) : Move s s' es := by
  cases a with
  | get p timed expired fails =>
    simp only [step] at hs
    split at hs
    · next hp => exact .get hp (getLoop_ends (Option.some.inj hs))
    · cases hs
  | wake p throws expired fails =>
    simp only [step] at hs
    split at hs
    · cases hs
    · next hp =>
      refine .wake (p := p) (by rw [hp]; rfl) ?_
      split_ifs at hs with hthrows
      · obtain ⟨rfl, rfl⟩ := by simpa using hs
        exact .waitThrew rfl
      · exact getLoop_ends (Option.some.inj hs)
  | reset p =>
    simp only [step] at hs
    split at hs
    · obtain ⟨rfl, rfl⟩ := by simpa using hs
      exact .reset rfl
    · cases hs
  | setError p =>
    simp only [step] at hs
    split at hs
    · obtain ⟨rfl, rfl⟩ := by simpa using hs
      exact .setError rfl
    · cases hs
  | setValue p value =>
    simp only [step] at hs
    split at hs
    · obtain ⟨rfl, rfl⟩ := by simpa using hs
      exact .setValue rfl
    · cases hs

/-! ## The value -/

def Event.isReset : Event ι T → Bool
  | .reset _ => true
  | _ => false

/-- What sets `error_`. -/
def Event.isError : Event ι T → Bool
  | .setError _ | .waitThrew _ | .copyThrew _ => true
  | _ => false

/-- The argument of a `setValue`. -/
def Event.value? : Event ι T → Option T
  | .setValue _ v => some v
  | _ => none

/-- What has happened since the latest `reset`. -/
def sinceReset (tr : List (Event ι T)) : List (Event ι T) := tr.rtakeWhile fun e => !e.isReset

/-- The argument of the latest `setValue`. -/
def latest (tr : List (Event ι T)) : Option T := (tr.filterMap Event.value?).getLast?

omit [DecidableEq ι] [Inhabited T] in
theorem sinceReset_snoc (tr : List (Event ι T)) (e : Event ι T) :
    sinceReset (tr ++ [e]) = if e.isReset then [] else sinceReset tr ++ [e] := by
  unfold sinceReset
  rw [List.rtakeWhile_concat]
  cases e.isReset <;> simp

omit [DecidableEq ι] [Inhabited T] in
theorem latest_snoc (tr : List (Event ι T)) (e : Event ι T) : latest (tr ++ [e]) = e.value?.or (latest tr) := by
  unfold latest
  rw [List.filterMap_append]
  cases h : e.value? <;> simp [h]

/-- The fields tell what has happened since the latest `reset`. -/
structure Tells (tr : List (Event ι T)) (s : World ι T) : Prop where
  ready : s.ready_ = (latest (sinceReset tr)).isSome
  error : s.error_ = (sinceReset tr).any Event.isError
  value : s.error_ = false → ∀ v, latest (sinceReset tr) = some v → s.value_ = v

variable {tr : List (Event ι T)}

omit [DecidableEq ι] [Inhabited T] in
/-- Anything but a `reset` happens. -/
theorem Tells.snoc (h : Tells tr s) {e : Event ι T} (hreset : e.isReset = false)
    (hready : s'.ready_ = (s.ready_ || e.value?.isSome)) (herror : s'.error_ = (s.error_ || e.isError))
    (hvalue : s'.error_ = false → s'.value_ = e.value?.getD s.value_) : Tells (tr ++ [e]) s' := by
  have hsince : sinceReset (tr ++ [e]) = sinceReset tr ++ [e] := by
    rw [sinceReset_snoc, hreset]
    rfl
  have hlatest := latest_snoc (sinceReset tr) e
  refine ⟨?_, ?_, fun h0 v hv => ?_⟩
  · rw [hsince, hlatest, hready, h.ready]
    cases e.value? <;> simp
  · rw [hsince, herror, h.error]
    simp
  · rw [hsince, hlatest] at hv
    rw [hvalue h0]
    cases hev : e.value? with
    | none =>
      rw [herror, Bool.or_eq_false_iff] at h0
      rw [hev] at hv
      exact h.value h0.1 v (by simpa using hv)
    | some w =>
      rw [hev] at hv
      simpa using hv

omit [DecidableEq ι] [Inhabited T] in
/-- What concerns `waiters_` and the threads only. -/
theorem Tells.of_fields (h : Tells tr s) (hready : s'.ready_ = s.ready_) (herror : s'.error_ = s.error_)
    (hvalue : s'.value_ = s.value_) : Tells tr s' :=
  ⟨hready ▸ h.ready, herror ▸ h.error, fun h0 v hv => by rw [hvalue]; exact h.value (herror ▸ h0) v hv⟩

omit [Inhabited T] in
theorem Tells.ends {p : ι} (h : Tells tr s) (he : Ends s s' p es) : Tells (tr ++ es) s' := by
  cases he with
  | error _ hs' | got _ _ hs' | timeout _ _ hs' =>
    rw [hs']
    exact h.snoc rfl (by simp [World.leave, World.goto, Event.value?])
      (by simp [World.leave, World.goto, Event.isError]) fun _ => rfl
  | copy _ _ hs' | waitThrew hs' =>
    rw [hs']
    refine h.snoc rfl (by simp [World.caught, World.leave, World.goto, Event.value?])
      (by simp [World.caught, Event.isError]) fun h0 => ?_
    simp [World.caught] at h0
  | wait _ _ hs' =>
    rw [List.append_nil, hs']
    exact h.of_fields rfl rfl rfl

theorem Tells.move (h : Tells tr s) (hm : Move s s' es) : Tells (tr ++ es) s' := by
  cases hm with
  | get _ he =>
    have hin : Tells tr s.enter := h.of_fields rfl rfl rfl
    exact hin.ends he
  | wake _ he => exact h.ends he
  | @reset p hs' =>
    have hsince : sinceReset (tr ++ [.reset p]) = [] := by
      rw [sinceReset_snoc]
      rfl
    rw [hs']
    refine ⟨?_, ?_, fun _ v hv => ?_⟩
    · rw [hsince]
      rfl
    · rw [hsince]
      rfl
    · rw [hsince] at hv
      cases hv
  | setError hs' =>
    rw [hs']
    exact h.snoc rfl (by simp [Event.value?]) (by simp [Event.isError]) fun h0 => by simp at h0
  | setValue hs' =>
    rw [hs']
    exact h.snoc rfl (by simp [Event.value?]) (by simp [Event.isError]) fun _ => rfl

variable {π : List (Taken (World ι T) (Act ι T) (Event ι T))}

theorem run_tells (hr : Run machine π s) : Tells (events π) s := by
  refine Run.inv (C := fun _ _ => True) (P := Tells) ⟨rfl, rfl, fun _ v hv => ?_⟩ ?_ hr fun _ _ => trivial
  · cases hv
  · intro tr s a s' es _ h hstep
    exact h.move (step_move hstep)

omit [DecidableEq ι] [Inhabited T] in
/-- A `setValue` with no `reset` behind it. -/
theorem latest_isSome {tr₁ tr₂ : List (Event ι T)} {q : ι} {v : T} (h : ∀ e ∈ tr₂, e.isReset = false) :
    (latest (sinceReset (tr₁ ++ .setValue q v :: tr₂))).isSome := by
  induction tr₂ using List.reverseRecOn with
  | nil =>
    rw [sinceReset_snoc, if_neg (by simp [Event.isReset]), latest_snoc]
    rfl
  | append_singleton tr₂ e ih =>
    have hlast : e.isReset = false := h e (by simp)
    rw [← List.cons_append, ← List.append_assoc, sinceReset_snoc, hlast, if_neg Bool.false_ne_true, latest_snoc]
    have := ih fun e' he' => h e' (by simp [he'])
    cases e.value? <;> simp [this]

/-- A `get` that finds the value ready does not wait. -/
theorem step_get_ready {p : ι} {timed expired fails : Bool} (hready : s.ready_ = true)
    (hs : step s (.get p timed expired fails) = some (s', es)) :
    s'.pc p = .idle ∧ es = if s.error_ then [.threw p .invocationTarget]
      else if fails then [.copyThrew p] else [.got p s.value_] := by
  simp only [step] at hs
  split at hs
  · simp only [getLoop, World.enter, hready, if_true, Option.some.injEq] at hs
    split_ifs at hs ⊢ <;> obtain ⟨rfl, rfl⟩ := Prod.mk.inj hs <;>
      exact ⟨by simp [World.caught, World.leave, World.goto], rfl⟩
  · cases hs

omit [Inhabited T] in
theorem Ends.of_got {p q : ι} {v : T} (he : Ends s s' q es) (h : .got p v ∈ es) :
    s.error_ = false ∧ s.ready_ = true ∧ v = s.value_ := by
  cases he with
  | got he hready _ =>
    obtain ⟨-, rfl⟩ := by simpa using h
    exact ⟨he, hready, rfl⟩
  | error | copy | timeout | wait | waitThrew => simp at h

/-- A `get` that returns finds the value ready and no error. -/
theorem Move.of_got {p : ι} {v : T} (hm : Move s s' es) (h : .got p v ∈ es) :
    s.error_ = false ∧ s.ready_ = true ∧ v = s.value_ := by
  cases hm with
  | get _ he =>
    have hgot := he.of_got h
    exact hgot
  | wake _ he => exact he.of_got h
  | reset | setError | setValue => simp at h

/-- **The value.**  In every run, what a `get` returns is the argument of the latest `setValue` since the latest
`reset`, with no error since then; and a `get` that starts with a `setValue` behind which there was neither a
`reset` nor an error does not wait: it returns that value, unless the copy throws or there was an error between
the latest `reset` and the `setValue`, which it reports. -/
theorem got_latest {x : Taken (World ι T) (Act ι T) (Event ι T)} (hr : Run machine (π ++ [x]) s) :
    (∀ p v, .got p v ∈ x.out →
      latest (sinceReset (events π)) = some v ∧ (sinceReset (events π)).any Event.isError = false) ∧
    ∀ tr₁ q u tr₂, events π = tr₁ ++ .setValue q u :: tr₂ →
      (∀ e ∈ tr₂, e.isReset = false ∧ e.isError = false) →
      ∀ p timed expired fails, x.act = .get p timed expired fails →
        s.pc p = .idle ∧ ∃ v, latest (sinceReset (events π)) = some v ∧
          x.out = if (sinceReset (events π)).any Event.isError then [.threw p .invocationTarget]
            else if fails then [.copyThrew p] else [.got p v] := by
  obtain ⟨hpre, hstep⟩ := hr.snoc_inv
  have h := run_tells hpre
  have hvalue : x.pre.error_ = false → x.pre.ready_ = true →
      latest (sinceReset (events π)) = some x.pre.value_ := by
    intro herror hready
    rw [h.ready, Option.isSome_iff_exists] at hready
    obtain ⟨v, hv⟩ := hready
    rw [hv, h.value herror v hv]
  constructor
  · intro p v hp
    obtain ⟨herror, hready, rfl⟩ := (step_move hstep).of_got hp
    exact ⟨hvalue herror hready, h.error ▸ herror⟩
  · intro tr₁ q u tr₂ htr hclear p timed expired fails hact
    have hready : x.pre.ready_ = true := by
      rw [h.ready, htr]
      exact latest_isSome fun e he => (hclear e he).1
    rw [hact] at hstep
    obtain ⟨hidle, hout⟩ := step_get_ready hready hstep
    refine ⟨hidle, ?_⟩
    obtain ⟨v, hv⟩ := Option.isSome_iff_exists.mp (h.ready ▸ hready)
    refine ⟨v, hv, ?_⟩
    rw [hout, ← h.error]
    split_ifs with herror hfails
    · rfl
    · rfl
    · rw [h.value (by simpa using herror) v hv]

/-- Thread 0 waits for the value that thread 1 sets. -/
theorem got_latest_two :
    ∃ (π : _) (x : Taken (World (Fin 2) ℕ) (Act (Fin 2) ℕ) (Event (Fin 2) ℕ)) (s : World (Fin 2) ℕ),
      Run machine (π ++ [x]) s ∧ x.out = [.got 0 7] ∧ latest (sinceReset (events π)) = some 7 := by
  have h1 := Run.start.snoc (M := machine (ι := Fin 2) (T := ℕ)) (a := .get 0 true false false) rfl
  have h2 := (h1.snoc (a := .setValue 1 7) rfl).snoc (a := .wake 0 false false false) rfl
  exact ⟨_, _, _, h2, rfl, ((got_latest h2).1 0 7 (by decide)).1⟩

/-- After an error a `get` throws, the value that was set since notwithstanding. -/
theorem get_throws_one :
    ¬ ∀ (π : _) (x : Taken (World (Fin 1) ℕ) (Act (Fin 1) ℕ) (Event (Fin 1) ℕ)) (s : World (Fin 1) ℕ),
      Run machine (π ++ [x]) s → ∀ tr₁ q v tr₂, events π = tr₁ ++ .setValue q v :: tr₂ →
        (∀ e ∈ tr₂, e.isReset = false ∧ e.isError = false) → ∀ p, x.act = .get p false false false →
        ∃ w, x.out = [.got p w] := by
  intro h
  have h1 := Run.start.snoc (M := machine (ι := Fin 1) (T := ℕ)) (a := .setError 0) rfl
  have h2 := (h1.snoc (a := .setValue 0 7) rfl).snoc (a := .get 0 false false false) rfl
  obtain ⟨w, hw⟩ := h _ _ _ h2 [.setError 0] 0 7 [] rfl (by simp) 0 rfl
  cases hw

/-! ## The waiters -/

variable [Fintype ι]

/-- The threads in `get`. -/
def inside (s : World ι T) : ℕ := count Pc.isInside s.pc

theorem toSize_add (n : ℤ) : toSize (toSize n + 1) = toSize (n + 1) := by
  unfold toSize
  omega

theorem toSize_sub (n : ℤ) : toSize (toSize n - 1) = toSize (n - 1) := by
  unfold toSize
  omega

/-- How many copies have thrown. -/
def copies (tr : List (Event ι T)) : ℕ := tr.countP fun e => e matches .copyThrew _

omit [DecidableEq ι] [Inhabited T] [Fintype ι] in
@[simp] theorem copies_append (tr es : List (Event ι T)) : copies (tr ++ es) = copies tr + copies es :=
  List.countP_append

omit [Inhabited T] [Fintype ι] in
theorem getLoop_copies {p : ι} {timed expired fails : Bool} (h : getLoop s p timed expired fails = (s', es)) :
    copies es = (!s.error_ && s.ready_ && fails).toNat := by
  unfold getLoop at h
  split_ifs at h with he hready hfails ht hfails <;> obtain ⟨-, rfl⟩ := Prod.mk.inj h <;> simp_all [copies]

omit [Fintype ι] in
/-- A copy throws in the steps that the state before tells. -/
theorem step_copies (hs : step s a = some (s', es)) : copies es = (copyFails s a).toNat := by
  cases a with
  | get p timed expired fails =>
    simp only [step] at hs
    split at hs
    · rw [getLoop_copies (Option.some.inj hs)]
      rfl
    · cases hs
  | wake p throws expired fails =>
    simp only [step] at hs
    split at hs
    · cases hs
    · split_ifs at hs with hthrows
      · obtain ⟨rfl, rfl⟩ := by simpa using hs
        simp [copies, copyFails, hthrows]
      · rw [getLoop_copies (Option.some.inj hs)]
        simp [copyFails, hthrows]
  | reset p | setError p | setValue p v =>
    simp only [step] at hs
    split at hs
    · obtain ⟨rfl, rfl⟩ := by simpa using hs
      rfl
    · cases hs

omit [Inhabited T] in
theorem inside_goto_idle (s : World ι T) (p : ι) :
    inside (s.goto p .idle) + (s.pc p).isInside.toNat = inside s :=
  count_update Pc.isInside s.pc p .idle

omit [Inhabited T] in
theorem inside_goto_waiting (s : World ι T) (p : ι) (timed : Bool) :
    inside (s.goto p (.waiting timed false)) = inside (s.goto p .idle) + 1 := by
  have h := count_update Pc.isInside s.pc p (.waiting timed false)
  have h0 := count_update Pc.isInside s.pc p .idle
  simp only [Pc.isInside, Bool.toNat_true, Bool.toNat_false] at h h0
  unfold inside World.goto
  dsimp only
  omega

omit [Inhabited T] in
/-- A section of `get` counts the thread out where it leaves, and twice where the copy throws. -/
theorem Ends.waiters {p : ι} {k : ℕ} (he : Ends s s' p es)
    (h : s.waiters_ = toSize (inside (s.goto p .idle) + 1 - k)) :
    s'.waiters_ = toSize (inside s' - (k + copies es : ℕ)) := by
  have hleave : (s.leave p).waiters_ = toSize (inside (s.goto p .idle) - k) := by
    show toSize (s.waiters_ - 1) = _
    rw [h, toSize_sub]
    congr 1
    omega
  cases he with
  | error _ hs' | got _ _ hs' | timeout _ _ hs' | waitThrew hs' =>
    rw [hs']
    exact hleave
  | copy _ _ hs' =>
    rw [hs']
    show toSize ((s.leave p).waiters_ - 1) = toSize (inside ((s.leave p).goto p .idle) - (k + 1 : ℕ))
    have hpc : inside ((s.leave p).goto p .idle) = inside (s.goto p .idle) := by
      simp [inside, World.leave, World.goto]
    rw [hleave, toSize_sub, hpc]
    congr 1
    omega
  | wait _ _ hs' =>
    rw [hs']
    show s.waiters_ = _
    rw [h, inside_goto_waiting]
    congr 1

theorem Move.waiters {k : ℕ} (hm : Move s s' es) (h : s.waiters_ = toSize (inside s - k)) :
    s'.waiters_ = toSize (inside s' - (k + copies es : ℕ)) := by
  have hnotify : count Pc.isInside (fun q => (s.pc q).notify) = inside s :=
    count_congr fun q => Pc.isInside_notify (s.pc q)
  cases hm with
  | @get p es hp he =>
    refine he.waiters ?_
    have hidle := inside_goto_idle s p
    rw [hp] at hidle
    show toSize (s.waiters_ + 1) = toSize (inside (s.goto p .idle) + 1 - k)
    rw [h, toSize_add, ← hidle]
    congr 1
    simp [Pc.isInside]
    omega
  | @wake p es hp he =>
    refine he.waiters ?_
    have hidle := inside_goto_idle s p
    rw [hp] at hidle
    rw [h, ← hidle]
    rfl
  | reset hs' =>
    rw [hs']
    exact h
  | setError hs' | setValue hs' =>
    rw [hs']
    show s.waiters_ = toSize ((count Pc.isInside fun q => (s.pc q).notify : ℕ) - k)
    rw [hnotify]
    exact h

/-- The counter is what it should be, less the copies that have thrown. -/
theorem run_waiters (hr : Run machine π s) : s.waiters_ = toSize (inside s - copies (events π)) := by
  refine Run.inv (C := fun _ _ => True) (P := fun tr s => s.waiters_ = toSize (inside s - copies tr))
    ?_ ?_ hr fun _ _ => trivial
  · have h0 : inside (machine : Machine (World ι T) (Act ι T) (Event ι T)).init = 0 :=
      count_eq_zero.mpr fun _ => rfl
    rw [h0]
    rfl
  · intro tr s a s' es _ h hstep
    rw [copies_append]
    exact (step_move hstep).waiters h

/-- **The waiters.**  `waiters_` is the number of threads in `get` in every state of a run, as a `size_t`, exactly
if in no step of the run the copy of the value throws. -/
theorem waiters_iff (hr : Run machine π s) :
    (∀ ρ t, ρ <+: π → Run machine ρ t → t.waiters_ = toSize (inside t)) ↔
      Meets (fun s a => copyFails s a = false) π := by
  constructor
  · intro h x hx
    by_contra hcopy
    obtain ⟨π₁, π₂, rfl⟩ := List.append_of_mem hx
    obtain ⟨t, ht⟩ := hr.split π₂
    obtain ⟨hpre, hstep⟩ := ht.snoc_inv
    have hbefore := h π₁ x.pre (List.prefix_append _ _) hpre
    have hafter := h _ t ⟨π₂, by simp⟩ ht
    have hmoved := (step_move hstep).waiters (k := 0) (by simpa using hbefore)
    have hone : copies x.out = 1 := by
      rw [step_copies hstep, eq_true_of_ne_false hcopy]
      rfl
    rw [hafter, hone] at hmoved
    unfold toSize at hmoved
    omega
  · intro hC ρ t hρ ht
    have hzero : copies (events ρ) = 0 := by
      refine Run.inv (C := fun s a => copyFails s a = false) (P := fun tr _ => copies tr = 0) rfl ?_ ht
        fun x hx => hC x (hρ.subset hx)
      intro tr s a s' es ha h hstep
      rw [copies_append, h, step_copies hstep, ha]
      rfl
    have h := run_waiters ht
    rw [hzero] at h
    simpa using h

/-- Two threads in `get`, one of which runs out of time. -/
theorem waiters_iff_two :
    ∃ (π : _) (s : World (Fin 2) ℕ), Run machine π s ∧ s.waiters_ = toSize (inside s) ∧ s.waiters_ = 1 := by
  have h1 := Run.start.snoc (M := machine (ι := Fin 2) (T := ℕ)) (a := .get 0 true false false) rfl
  have h2 := (h1.snoc (a := .get 1 false false false) rfl).snoc (a := .wake 0 false true false) rfl
  exact ⟨_, _, h2, (waiters_iff h2).mpr (by decide) _ _ List.prefix_rfl h2, by decide⟩

/-- The value is there and its copy throws: `waiters_` is `2 ^ 64 - 1` with nobody in `get`. -/
theorem waiters_wrap_one :
    ¬ ∀ (π : _) (s : World (Fin 1) ℕ), Run machine π s → s.waiters_ = toSize (inside s) := by
  intro h
  have h1 := Run.start.snoc (M := machine (ι := Fin 1) (T := ℕ)) (a := .setValue 0 7) rfl
  have hs := h _ _ (h1.snoc (a := .get 0 false false true) rfl)
  revert hs
  decide

end Step

end Lasagne.Daf.FutureResult
