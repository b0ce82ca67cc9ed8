import Lasagne.Trans.Serial
import Lasagne.Daf.ServiceGestalt

/-!
# Lasagne.Daf.GestaltThreads — the activities of a service gestalt, as threads run them

`process_svc_action` hands an activity to the executor and waits for its result, for some time.  An activity runs with
the lock of the descriptors: to load or to remove a service it has the lock alone, and to suspend or to resume one it
shares it.  What it reads, has processed and writes are steps of their own.

* `ends_run` : the steps of an activity come to what it comes to at once;
* `serializable` : where no two switches of one service overlap, a run comes to what its activities come to one after
  the other, in the order in which they end;
* `settled_consistent` : and then the descriptors are those of the services;
* `returned_zero` : a call returns 0 only of an activity that has ended so.
-/

namespace Lasagne.Daf.ServiceGestalt.Threads

open Lasagne.Trans Relation

/-! ## The activities, step by step -/

/-- What the two tables have for an identifier. -/
abbrev Entry := Option Service × Option ServiceDescriptor

inductive Request
  | load (sd : ServiceDescriptor)
  | suspend
  | resume
  | remove
deriving DecidableEq

/-- Where an activity is that has the lock: before `find`, before `process_directive`, and behind it. -/
inductive Point
  | find
  | directive
  | follow (o : Outcome)
deriving DecidableEq

/-- `find`, which does not find a service whose `fini` was called. -/
def found (svc : Option Service) : Option Service := svc.filter fun x => !x.fini_called

/-- `LoadActivity::run`. -/
def loadNext (sd : ServiceDescriptor) : Point → Outcome → Entry → Entry × (Point ⊕ Report)
  | .find, _, (svc, d) =>
    match found svc with
    | some _ => ((svc, d), .inr ⟨-1, .eexist⟩)
    | none => ((svc, d), .inl .directive)
  | .directive, o, (svc, d) => ((Directive.load.effect o svc, d), .inl (.follow o))
  | .follow o, _, (svc, d) =>
    if o.result ≠ 0 then ((svc, d), .inr ⟨o.result, o.error⟩)
    else ((svc, some (d.getD sd.setActive)), .inr ⟨o.result, o.error⟩)

/-- `SuspendActivity::run` and `ResumeActivity::run`. -/
def switchNext (dir : Directive) (b : Bool) (follow : ServiceDescriptor → ServiceDescriptor) :
    Point → Outcome → Entry → Entry × (Point ⊕ Report)
  | .find, _, (svc, d) =>
    match found svc with
    | none => ((svc, d), .inr ⟨-1, .eexist⟩)
    | some x =>
      if x.fini_called then ((svc, d), .inr ⟨-1, .eacces⟩)
      else if x.active = b then ((svc, d), .inr ⟨0, .zero⟩)
      else ((svc, d), .inl .directive)
  | .directive, o, (svc, d) => ((dir.effect o svc, d), .inl (.follow o))
  | .follow o, _, (svc, d) =>
    if o.result ≠ 0 then ((svc.map fun x => { x with active := !b }, d), .inr ⟨o.result, o.error.unsupported⟩)
    else ((svc, d.map follow), .inr ⟨o.result, o.error⟩)

/-- `RemoveActivity::run`. -/
def removeNext : Point → Outcome → Entry → Entry × (Point ⊕ Report)
  | .find, _, (svc, d) =>
    match found svc with
    | none => ((svc, d), .inr ⟨-1, .eexist⟩)
    | some x => if x.fini_called then ((svc, d), .inr ⟨-1, .eacces⟩) else ((svc, d), .inl .directive)
  | .directive, o, (svc, d) => ((Directive.remove.effect o svc, d), .inl (.follow o))
  | .follow o, _, (svc, d) =>
    match d with
    | some _ => ((svc, none), .inr ⟨o.error.forgiven o.result, o.error⟩)
    | none => ((svc, none), .inr ⟨Errno.zero.forgiven o.result, .enoent⟩)

namespace Request

def next : Request → Point → Outcome → Entry → Entry × (Point ⊕ Report)
  | .load sd => loadNext sd
  | .suspend => switchNext .suspend false ServiceDescriptor.clrActive
  | .resume => switchNext .resume true ServiceDescriptor.setActive
  | .remove => removeNext

def directive : Request → Directive
  | .load _ => .load
  | .suspend => .suspend
  | .resume => .resume
  | .remove => .remove

/-- Whether the activity has the lock alone. -/
def writes : Request → Bool
  | .load _ | .remove => true
  | .suspend | .resume => false

/-- The activity at once. -/
def act {κ : Type*} (ident : κ) (o : Outcome) : Request → ServiceGestalt.Act κ
  | .load sd => .load ident sd o
  | .suspend => .suspend ident o
  | .resume => .resume ident o
  | .remove => .remove ident o

end Request

/-- The activities as operations on the entries of an identifier. -/
def program : Program Entry Request (Request × Point) Outcome Report where
  start req := (req, .find)
  next x o e := ((x.1.next x.2 o e).1, (x.1.next x.2 o e).2.map (fun p => (x.1, p)) id)

/-! ## What they come to -/

variable {req : Request} {e : Entry} {o : Outcome}

theorem next_find (req : Request) (o o' : Outcome) (e : Entry) :
    req.next .find o e = req.next .find o' e ∧ (req.next .find o e).1 = e ∧
      ∀ p, (req.next .find o e).2 = .inl p → p = .directive := by
  obtain ⟨svc, d⟩ := e
  cases req with
  | load sd =>
    refine ⟨rfl, ?_, ?_⟩ <;> simp only [Request.next, loadNext] <;> cases found svc <;> simp [eq_comm]
  | suspend | resume =>
    refine ⟨rfl, ?_, ?_⟩ <;> simp only [Request.next, switchNext] <;> cases found svc <;> dsimp only <;>
      first | split_ifs <;> simp [eq_comm] | simp
  | remove =>
    refine ⟨rfl, ?_, ?_⟩ <;> simp only [Request.next, removeNext] <;> cases found svc <;> dsimp only <;>
      first | split_ifs <;> simp [eq_comm] | simp

theorem next_directive (req : Request) (o : Outcome) (e : Entry) :
    req.next .directive o e = ((req.directive.effect o e.1, e.2), .inl (.follow o)) := by
  cases req <;> rfl

theorem next_follow (req : Request) (o o' : Outcome) (e : Entry) : ∃ r, (req.next (.follow o) o' e).2 = .inr r := by
  obtain ⟨svc, d⟩ := e
  cases req with
  | load sd =>
    simp only [Request.next, loadNext]
    split_ifs <;> exact ⟨_, rfl⟩
  | suspend | resume =>
    simp only [Request.next, switchNext]
    split_ifs <;> exact ⟨_, rfl⟩
  | remove =>
    simp only [Request.next, removeNext]
    cases d <;> exact ⟨_, rfl⟩

/-- Where an activity can be, and what it has done until then. -/
inductive Stands (req : Request) (e : Entry) : Request × Point → Entry → Prop
  | find : Stands req e (req, .find) e
  | directive (o : Outcome) (h : req.next .find o e = (e, .inl .directive)) : Stands req e (req, .directive) e
  | follow (o o' : Outcome) (h : req.next .find o e = (e, .inl .directive)) :
    Stands req e (req, .follow o') (req.directive.effect o' e.1, e.2)

theorem stands_of_reaches {x : Request × Point} {e' : Entry} (h : program.Reaches req e x e') : Stands req e x e' := by
  unfold Program.Reaches at h
  generalize hy : (x, e') = y at h
  induction h generalizing x e' with
  | refl =>
    cases hy
    exact .find
  | @tail y z _ hstep ih =>
    subst hy
    obtain ⟨⟨req', p⟩, now⟩ := y
    obtain ⟨o, hnext⟩ := hstep
    have hstands := ih rfl
    simp only [program, Prod.mk.injEq] at hnext
    obtain ⟨hentry, hpoint⟩ := hnext
    cases hstands with
    | find =>
      obtain ⟨-, hsame, hdir⟩ := next_find req o o e
      rcases hr : (req.next .find o e).2 with p' | r
      · rw [hr] at hpoint
        obtain rfl := hdir p' hr
        obtain rfl : (req, Point.directive) = x := by simpa using hpoint
        rw [hsame] at hentry
        subst hentry
        exact .directive o (Prod.ext hsame hr)
      · rw [hr] at hpoint
        simp at hpoint
    | directive o' hfind =>
      rw [next_directive] at hentry hpoint
      obtain rfl : (req, Point.follow o) = x := by simpa using hpoint
      subst hentry
      exact .follow o' o hfind
    | follow o' o'' hfind =>
      obtain ⟨r, hr⟩ := next_follow req o'' o (req.directive.effect o'' e.1, e.2)
      rw [hr] at hpoint
      simp at hpoint

section Tables

variable {κ : Type*} [DecidableEq κ] {g : Gestalt κ} {ident : κ}

/-- The entries of an identifier. -/
def entry (g : Gestalt κ) (k : κ) : Entry := (g.repository k, g.svc_descriptors k)

omit [DecidableEq κ] in
theorem find_eq_found (g : Gestalt κ) (k : κ) : g.find k = found (entry g k).1 := rfl

theorem put_self (g : Gestalt κ) (ident : κ) : g.put ident (entry g ident).1 (entry g ident).2 = g := by
  unfold Gestalt.put entry
  rw [Function.update_eq_self, Function.update_eq_self]

theorem entry_put (g : Gestalt κ) (ident : κ) (e : Entry) :
    entry (g.put ident e.1 e.2) = Function.update (entry g) ident e := by
  ext1 k
  by_cases hk : k = ident
  · subst hk
    simp [entry, Gestalt.put]
  · simp [entry, Gestalt.put, Function.update_of_ne hk]

/-- An activity that ends before its directive changes nothing. -/
theorem run_of_find {r : Report} (h : req.next .find o (entry g ident) = (entry g ident, .inr r)) :
    ServiceGestalt.run g (req.act ident o) = (g, r) := by
  have hpoint : (req.next .find o (entry g ident)).2 = .inr r := congrArg Prod.snd h
  cases req with
  | load sd =>
    simp only [Request.act, ServiceGestalt.run, ServiceGestalt.loadActivityRun, find_eq_found]
    simp only [Request.next, loadNext] at hpoint
    cases hfound : found (entry g ident).1 with
    | none => simp [hfound] at hpoint
    | some svc => simpa [hfound] using hpoint
  | suspend | resume =>
    simp only [Request.act, ServiceGestalt.run, ServiceGestalt.suspendActivityRun, ServiceGestalt.resumeActivityRun,
      ServiceGestalt.switchActivityRun, find_eq_found]
    simp only [Request.next, switchNext] at hpoint
    cases hfound : found (entry g ident).1 with
    | none => simpa [hfound] using hpoint
    | some svc =>
      simp only [hfound] at hpoint
      dsimp only
      split_ifs at hpoint ⊢ <;> simp_all
  | remove =>
    simp only [Request.act, ServiceGestalt.run, ServiceGestalt.removeActivityRun, find_eq_found]
    simp only [Request.next, removeNext] at hpoint
    cases hfound : found (entry g ident).1 with
    | none => simpa [hfound] using hpoint
    | some svc =>
      simp only [hfound] at hpoint
      dsimp only
      split_ifs at hpoint ⊢
      simpa using hpoint

/-- One that gets behind its directive does all of it. -/
theorem run_of_follow {o' o'' : Outcome} {after : Entry} {r : Report}
    (hfind : req.next .find o (entry g ident) = (entry g ident, .inl .directive))
    (h : req.next (.follow o') o'' (req.directive.effect o' (entry g ident).1, (entry g ident).2) = (after, .inr r)) :
    ServiceGestalt.run g (req.act ident o') = (g.put ident after.1 after.2, r) := by
  have hpoint : (req.next .find o (entry g ident)).2 = .inl .directive := congrArg Prod.snd hfind
  cases req with
  | load sd =>
    simp only [Request.act, ServiceGestalt.run, ServiceGestalt.loadActivityRun, find_eq_found]
    simp only [Request.next, loadNext] at hpoint h
    cases hfound : found (entry g ident).1 with
    | some svc => simp [hfound] at hpoint
    | none =>
      dsimp only
      split_ifs at h ⊢ with hresult
      · cases h
        simp [Gestalt.processDirective, Gestalt.put, entry, Request.directive]
      · cases h
        cases hd : g.svc_descriptors ident <;>
          simp [Gestalt.processDirective, Gestalt.insert, Gestalt.put, entry, Request.directive, hd]
  | suspend | resume =>
    simp only [Request.act, ServiceGestalt.run, ServiceGestalt.suspendActivityRun, ServiceGestalt.resumeActivityRun,
      ServiceGestalt.switchActivityRun, find_eq_found]
    simp only [Request.next, switchNext] at hpoint h
    cases hfound : found (entry g ident).1 with
    | none => simp [hfound] at hpoint
    | some svc =>
      simp only [hfound] at hpoint
      dsimp only
      split_ifs at hpoint h ⊢ with hfini hactive hresult
      · cases h
        simp [Gestalt.processDirective, Gestalt.setActive, Gestalt.put, entry, Request.directive]
      · cases h
        simp [Gestalt.processDirective, Gestalt.modify, Gestalt.put, entry, Request.directive]
  | remove =>
    simp only [Request.act, ServiceGestalt.run, ServiceGestalt.removeActivityRun, find_eq_found]
    simp only [Request.next, removeNext] at hpoint h
    cases hfound : found (entry g ident).1 with
    | none => simp [hfound] at hpoint
    | some svc =>
      simp only [hfound] at hpoint
      dsimp only
      split_ifs at hpoint ⊢ with hfini
      cases hd : g.svc_descriptors ident with
      | none =>
        simp only [entry, hd] at h
        cases h
        simp [Gestalt.processDirective, Gestalt.erase, Gestalt.put, Request.directive]
      | some d =>
        simp only [entry, hd] at h
        cases h
        simp [Gestalt.processDirective, Gestalt.erase, Gestalt.put, Request.directive]

/-- An activity by itself comes to what it comes to at once. -/
theorem ends_run {after : Entry} {r : Report} (h : program.Ends req (entry g ident) after r) :
    ∃ o, ServiceGestalt.run g (req.act ident o) = (g.put ident after.1 after.2, r) := by
  obtain ⟨x, now, o, hreach, hnext⟩ := h
  obtain ⟨hentry, hpoint⟩ := Prod.mk.inj hnext
  have hend : ∀ {req' p}, (req', p) = x → (req'.next p o now).2 = .inr r := by
    rintro req' p rfl
    rcases hr : (req'.next p o now).2 with p' | r'
    · simp [hr] at hpoint
    · simpa [hr] using hpoint
  cases stands_of_reaches hreach with
  | find =>
    obtain ⟨-, hsame, -⟩ := next_find req o o (entry g ident)
    obtain rfl : entry g ident = after := hsame.symm.trans hentry
    rw [put_self]
    exact ⟨o, run_of_find (Prod.ext hsame (hend rfl))⟩
  | directive o' hfind =>
    have hinl := hend rfl
    rw [next_directive] at hinl
    cases hinl
  | follow o' o'' hfind => exact ⟨o'', run_of_follow hfind (Prod.ext hentry (hend rfl))⟩

end Tables

/-! ## The threads -/

/-- Where the activity of a call is. -/
inductive Phase
  | queued
  | inside (p : Point)
  | done (r : Report)
deriving DecidableEq

/-- A call that the executor has taken on; `waiting`: its caller is in `wait_result` still. -/
structure Call (κ : Type*) where
  ident : κ
  request : Request
  phase : Phase
  waiting : Bool
deriving DecidableEq

/-- The calls are numbered. -/
structure World (κ : Type*) where
  gestalt : Gestalt κ
  calls : List (Call κ)

/-- `submit`: `execute_svc_action` takes the activity on or refuses it; `noLock`: the lock cannot be had;
`wait`: the result is there in time, or the time is over. -/
inductive Act (κ : Type*)
  | submit (ident : κ) (request : Request) (accepted : Bool)
  | noLock (c : ℕ)
  | enter (c : ℕ)
  | step (c : ℕ) (o : Outcome)
  | wait (c : ℕ) (inTime : Bool)
deriving DecidableEq

/-- An activity has ended in the lock or without it, and a call has returned. -/
inductive Event (κ : Type*)
  | ended (c : ℕ) (ident : κ) (request : Request) (r : Report)
  | noLock (c : ℕ)
  | refused (ident : κ) (rc : ℤ)
  | returned (c : ℕ) (rc : ℤ)
deriving DecidableEq

variable {κ : Type*} [DecidableEq κ]

/-- Whether the activity has the lock, and what it does there. -/
def Call.at (call : Call κ) : Option (κ × Request × (Request × Point)) :=
  match call.phase with
  | .inside p => some (call.ident, call.request, (call.request, p))
  | _ => none

namespace World

/-- The activity of a call in the lock. -/
def inside (s : World κ) (c : ℕ) : Option (κ × Request × (Request × Point)) := (s.calls[c]?).bind Call.at

/-- The lock can be had: alone, or with others that share it. -/
def Admits (s : World κ) (req : Request) : Prop :=
  ∀ call ∈ s.calls, call.at.isSome → req.writes = false ∧ call.request.writes = false

instance (s : World κ) (req : Request) : Decidable (s.Admits req) :=
  inferInstanceAs (Decidable (∀ _ ∈ _, _ → _))

/-- A call goes on. -/
def set (s : World κ) (c : ℕ) (call : Call κ) : World κ := { s with calls := s.calls.set c call }

end World

def step (s : World κ) : Act κ → Option (World κ × List (Event κ))
  | .submit ident request accepted =>
    if accepted then some ({ s with calls := s.calls ++ [⟨ident, request, .queued, true⟩] }, [])
    else some (s, [.refused ident (-1)])
  | .noLock c =>
    match s.calls[c]? with
    | some call =>
      if call.phase = .queued then some (s.set c { call with phase := .done ⟨-1, .enolck⟩ }, [.noLock c]) else none
    | none => none
  | .enter c =>
    match s.calls[c]? with
    | some call =>
      if call.phase = .queued ∧ s.Admits call.request then some (s.set c { call with phase := .inside .find }, [])
      else none
    | none => none
  | .step c o =>
    match s.calls[c]? with
    | some call =>
      match call.phase with
      | .inside p =>
        match call.request.next p o (entry s.gestalt call.ident) with
        | (e, .inl p') =>
          some (⟨s.gestalt.put call.ident e.1 e.2, s.calls.set c { call with phase := .inside p' }⟩, [])
        | (e, .inr r) =>
          some (⟨s.gestalt.put call.ident e.1 e.2, s.calls.set c { call with phase := .done r }⟩,
            [.ended c call.ident call.request r])
      | _ => none
    | none => none
  | .wait c inTime =>
    match s.calls[c]? with
    | some call =>
      if call.waiting then
        match inTime, call.phase with
        | true, .done r => some (s.set c { call with waiting := false }, [.returned c r.result_])
        | true, _ => none
        | false, _ => some (s.set c { call with waiting := false }, [.returned c (-1)])
      else none
    | none => none

def threads (κ : Type*) [DecidableEq κ] : Machine (World κ) (Act κ) (Event κ) :=
  ⟨⟨⟨fun _ => none, fun _ => none⟩, []⟩, step⟩

/-- An activity that suspends or resumes a service does not start when another one is at work on the same service. -/
def Apart (s : World κ) : Act κ → Prop
  | .enter c => ∀ call ∈ s.calls[c]?, call.request.writes = false →
    ∀ other ∈ s.calls, other.at.isSome → other.request.writes = false → other.ident ≠ call.ident
  | _ => True

instance (s : World κ) (a : Act κ) : Decidable (Apart s a) :=
  match a with
  | .enter _ => inferInstanceAs (Decidable (∀ _ ∈ _, _ → ∀ _ ∈ _, _ → _ → _))
  | .submit _ _ _ | .noLock _ | .step _ _ | .wait _ _ => isTrue trivial

/-- No activity for the identifier is in the lock. -/
def World.Idle (s : World κ) (k : κ) : Prop := ∀ call ∈ s.calls, call.at.isSome → call.ident ≠ k

instance (s : World κ) (k : κ) : Decidable (s.Idle k) := inferInstanceAs (Decidable (∀ _ ∈ _, _ → _))

/-! ## One after the other -/

variable {s : World κ} {π : List (Taken (World κ) (Act κ) (Event κ))}

/-- The tables by identifiers, and who is at work there. -/
def parts (s : World κ) : Parts κ ℕ Entry Request (Request × Point) := ⟨entry s.gestalt, s.inside⟩

/-- An activity that has ended in the lock. -/
def Event.toEnded : Event κ → Option (Parts.Ended κ ℕ Request Report)
  | .ended c ident request r => some ⟨c, ident, request, r⟩
  | _ => none

omit [DecidableEq κ] in
theorem inside_set {c : ℕ} {call : Call κ} (hc : c < s.calls.length) (g : Gestalt κ) :
    World.inside ⟨g, s.calls.set c call⟩ = Function.update s.inside c call.at := by
  ext1 c'
  unfold World.inside
  by_cases hcc : c' = c
  · subst hcc
    rw [Function.update_self, List.getElem?_set_self hc]
    rfl
  · rw [Function.update_of_ne hcc, List.getElem?_set_ne (Ne.symm hcc)]

omit [DecidableEq κ] in
/-- Where the point of a call in the lock does not change, nothing does. -/
theorem parts_set {c : ℕ} {call call' : Call κ} (hcall : s.calls[c]? = some call) (hat : call'.at = call.at) :
    parts (s.set c call') = parts s := by
  unfold parts World.set
  rw [inside_set (List.getElem?_eq_some_iff.mp hcall).1, hat]
  congr 1
  refine Function.update_eq_self_iff.mpr ?_
  rw [World.inside, hcall]
  rfl

omit [DecidableEq κ] in
theorem parts_submit (call : Call κ) (hat : call.at = none) : parts { s with calls := s.calls ++ [call] } = parts s := by
  unfold parts
  congr 1
  ext1 c
  unfold World.inside
  rcases lt_trichotomy c s.calls.length with hlt | rfl | hgt
  · rw [List.getElem?_append_left hlt]
  · rw [List.getElem?_concat_length, List.getElem?_eq_none le_rfl]
    exact hat
  · rw [List.getElem?_eq_none (by simp; omega), List.getElem?_eq_none hgt.le]

omit [DecidableEq κ] in
theorem at_inside {call : Call κ} {p : Point} (h : call.phase = .inside p) :
    call.at = some (call.ident, call.request, (call.request, p)) := by
  unfold Call.at
  rw [h]

omit [DecidableEq κ] in
theorem isSome_at {call : Call κ} : call.at.isSome ↔ ∃ p, call.phase = .inside p := by
  unfold Call.at
  cases call.phase <;> simp

omit [DecidableEq κ] in
/-- The activities in the lock are those of the calls. -/
theorem idle_parts {k : κ} : (parts s).Idle k ↔ s.Idle k := by
  constructor
  · intro h call hcall hat hk
    obtain ⟨c, hc⟩ := List.mem_iff_getElem?.mp hcall
    obtain ⟨p, hp⟩ := isSome_at.mp hat
    refine h c call.request (call.request, p) ?_
    show (s.calls[c]?).bind Call.at = _
    rw [hc, Option.bind_some, at_inside hp, hk]
  · intro h c a x hinside
    obtain ⟨call, hcall, hat⟩ := Option.bind_eq_some_iff.mp hinside
    obtain ⟨p, hp⟩ := isSome_at.mp (Option.isSome_iff_exists.mpr ⟨_, hat⟩)
    rw [at_inside hp] at hat
    obtain ⟨hk, -⟩ := Prod.mk.inj (Option.some.inj hat)
    exact h call (List.mem_of_getElem? hcall) (isSome_at.mpr ⟨p, hp⟩) hk

/-- One step of the threads is one of the operations, or none. -/
theorem step_parts {a : Act κ} {s' : World κ} {es : List (Event κ)} (h : step s a = some (s', es)) :
    (parts s' = parts s ∧ es.filterMap Event.toEnded = []) ∨
      ∃ b, Parts.step program (parts s) b = some (parts s', es.filterMap Event.toEnded) ∧
        (Apart s a → Parts.Apart (parts s) b) := by
  cases a with
  | submit ident request accepted =>
    simp only [step] at h
    split_ifs at h
    · cases h
      exact .inl ⟨parts_submit _ rfl, rfl⟩
    · cases h
      exact .inl ⟨rfl, rfl⟩
  | noLock c =>
    simp only [step] at h
    split at h
    · next call hcall =>
      split_ifs at h with hphase
      cases h
      exact .inl ⟨parts_set hcall (by simp [Call.at, hphase]), rfl⟩
    · cases h
  | enter c =>
    simp only [step] at h
    split at h
    · next call hcall =>
      split_ifs at h with hadmits
      cases h
      obtain ⟨hphase, hadmits⟩ := hadmits
      have hnone : (parts s).inside c = none := by
        show (s.calls[c]?).bind Call.at = none
        simp [hcall, Call.at, hphase]
      refine .inr ⟨.start c call.ident call.request, ?_, fun hapart => ?_⟩
      · simp only [Parts.step, hnone]
        show some (_, []) = some (Parts.mk (entry s.gestalt) (World.inside _), [])
        rw [World.set, inside_set (List.getElem?_eq_some_iff.mp hcall).1]
        rfl
      · refine idle_parts.mpr fun other hother hat => ?_
        obtain ⟨hreads, hshared⟩ := hadmits other hother hat
        exact hapart call hcall hreads other hother hat hshared
    · cases h
  | step c o =>
    simp only [step] at h
    split at h
    · next call hcall =>
      split at h
      · next p hphase =>
        have hlt := (List.getElem?_eq_some_iff.mp hcall).1
        have hinside : (parts s).inside c = some (call.ident, call.request, (call.request, p)) := by
          show (s.calls[c]?).bind Call.at = _
          rw [hcall, Option.bind_some, at_inside hphase]
        refine .inr ⟨.step c o, ?_, fun _ => trivial⟩
        split at h
        · next e p' hnext =>
          cases h
          simp only [Parts.step, hinside]
          have hprogram : program.next (call.request, p) o ((parts s).part call.ident) = (e, .inl (call.request, p')) := by
            show (_, _) = _
            rw [show (parts s).part call.ident = entry s.gestalt call.ident from rfl, hnext]
            rfl
          rw [hprogram]
          show some (_, _) = some (Parts.mk (entry (s.gestalt.put _ _ _)) (World.inside _), [])
          rw [entry_put, inside_set hlt]
          rfl
        · next e r hnext =>
          cases h
          simp only [Parts.step, hinside]
          have hprogram : program.next (call.request, p) o ((parts s).part call.ident) = (e, .inr r) := by
            show (_, _) = _
            rw [show (parts s).part call.ident = entry s.gestalt call.ident from rfl, hnext]
            rfl
          rw [hprogram]
          show some (_, _) = some (Parts.mk (entry (s.gestalt.put _ _ _)) (World.inside _), [_])
          rw [entry_put, inside_set hlt]
          rfl
      · cases h
    · cases h
  | wait c inTime =>
    simp only [step] at h
    split at h
    · next call hcall =>
      split_ifs at h
      split at h
      · cases h
        exact .inl ⟨parts_set hcall rfl, rfl⟩
      · cases h
      · cases h
        exact .inl ⟨parts_set hcall rfl, rfl⟩
    · cases h

/-- An activity of the machine that runs one after the other, of the same kind and with the same report. -/
def Matches (x : Taken (Gestalt κ) (ServiceGestalt.Act κ) Report) (e : Parts.Ended κ ℕ Request Report) : Prop :=
  x.out = [e.result] ∧ ∃ o, x.act = e.op.act e.key o

/-- What the activities come to one after the other is what the executor with one thread makes of them. -/
theorem run_of_serial {tr : List (Parts.Ended κ ℕ Request Report)} {base : κ → Entry}
    (h : Serial program (fun _ => (none, none)) tr base) :
    ∃ ρ g, Run (ServiceGestalt.machine κ) ρ g ∧ entry g = base ∧ List.Forall₂ Matches ρ tr := by
  induction h with
  | nil => exact ⟨[], _, .start, rfl, .nil⟩
  | @snoc tr base x e _ hends ih =>
    obtain ⟨ρ, g, hrun, rfl, hmatch⟩ := ih
    obtain ⟨o, ho⟩ := ends_run hends
    have hstep : (ServiceGestalt.machine κ).step g (e.op.act e.key o) = some (g.put e.key x.1 x.2, [e.result]) := by
      show some (_, [_]) = _
      rw [ho]
    exact ⟨_, _, hrun.snoc hstep, entry_put g e.key x, List.rel_append hmatch (.cons ⟨rfl, o, rfl⟩ .nil)⟩

/-- The run of the executor with one thread that the threads come to. -/
theorem exists_serial (hr : Run (threads κ) π s) (hapart : Meets Apart π) :
    ∃ ρ g, Run (ServiceGestalt.machine κ) ρ g ∧ List.Forall₂ Matches ρ ((events π).filterMap Event.toEnded) ∧
      ∀ k, s.Idle k → entry s.gestalt k = entry g k := by
  obtain ⟨ρ, hρ, hev, hmeets⟩ := hr.project (N := Parts.machine program fun _ => (none, none)) (f := parts)
    (g := Event.toEnded) (C := Apart) (D := Parts.Apart) rfl (fun s a s' es h => step_parts h)
  obtain ⟨base, hfollows⟩ := Parts.serial_of_run hρ (hmeets hapart)
  obtain ⟨ρ', g, hrun, rfl, hmatch⟩ := run_of_serial hfollows.serial
  exact ⟨ρ', g, hrun, hev ▸ hmatch, fun k hk => hfollows.idle k (idle_parts.mpr hk)⟩

/-- Where no two switches of a service overlap, there is a run of the executor with one thread, of the activities that
have ended, in the order in which they have, with the same reports; and it leaves every service that nobody is at work
on, and its descriptor, as they are. -/
theorem serializable (hr : Run (threads κ) π s) (hapart : Meets Apart π) :
    ∃ ρ g, Run (ServiceGestalt.machine κ) ρ g ∧ List.Forall₂ Matches ρ ((events π).filterMap Event.toEnded) ∧
      ∀ k, s.Idle k → s.gestalt.repository k = g.repository k ∧ s.gestalt.svc_descriptors k = g.svc_descriptors k := by
  obtain ⟨ρ, g, hrun, hmatch, hidle⟩ := exists_serial hr hapart
  exact ⟨ρ, g, hrun, hmatch, fun k hk => Prod.mk.inj (hidle k hk)⟩

/-- A service is loaded; then one caller suspends it while another one, who shares the lock, finds a service 1 missing,
and its caller is told nothing in time. -/
def sharedActs : List (Act ℕ) :=
  let ok : Outcome := ⟨0, .zero, false, none⟩
  [.submit 0 (.load ⟨0⟩) true, .enter 0, .step 0 ok, .step 0 ok, .step 0 ok, .wait 0 true,
    .submit 0 .suspend true, .submit 1 .resume true, .enter 1, .step 1 ok, .enter 2, .step 1 ok, .wait 2 false,
    .step 2 ok, .step 1 ok, .wait 1 true]

theorem serializable_shared : ∃ π s, Run (threads ℕ) π s ∧ Meets Apart π ∧
    ∃ ρ g, Run (ServiceGestalt.machine ℕ) ρ g ∧ List.Forall₂ Matches ρ ((events π).filterMap Event.toEnded) ∧
      ∀ k, s.Idle k → s.gestalt.repository k = g.repository k ∧ s.gestalt.svc_descriptors k = g.svc_descriptors k := by
  obtain ⟨π, s, hr, hp⟩ := exists_run_of_replay (M := threads ℕ) (p := fun π _ => decide (Meets Apart π)) sharedActs
    (by decide)
  exact ⟨π, s, hr, of_decide_eq_true hp, serializable hr (of_decide_eq_true hp)⟩

/-- What nobody is at work on is consistent. -/
theorem settled_consistent (hr : Run (threads κ) π s) (hapart : Meets Apart π) {k : κ} (hk : s.Idle k) :
    ConsistentAt s.gestalt k := by
  obtain ⟨ρ, g, hrun, -, hidle⟩ := exists_serial hr hapart
  have hg : ∀ k, ConsistentAt g k := by
    refine Run.inv (C := fun _ _ => True) (P := fun _ g => ∀ k, ConsistentAt g k) (fun _ _ hd => (by cases hd)) ?_ hrun
      fun _ _ => trivial
    intro _ g a g' es _ h hstep
    obtain ⟨rfl, -⟩ := Prod.mk.inj (Option.some.inj hstep)
    exact ServiceGestalt.run_consistent h a
  obtain ⟨hrepository, hdescriptor⟩ := Prod.mk.inj (hidle k hk)
  intro d hd
  obtain ⟨svc, hsvc, hflag⟩ := hg k d (hdescriptor ▸ hd)
  refine ⟨svc, ?_, hflag⟩
  rw [find_eq_found, hidle k hk, ← find_eq_found, hsvc]

theorem settled_consistent_shared : ∃ π s, Run (threads ℕ) π s ∧ Meets Apart π ∧ s.Idle 0 ∧ ConsistentAt s.gestalt 0 := by
  obtain ⟨π, s, hr, hp⟩ := exists_run_of_replay (M := threads ℕ)
    (p := fun (π : List (Taken (World ℕ) (Act ℕ) (Event ℕ))) s => decide (Meets Apart π ∧ s.Idle 0)) sharedActs
    (by decide)
  obtain ⟨hapart, hidle⟩ := of_decide_eq_true hp
  exact ⟨π, s, hr, hapart, hidle, settled_consistent hr hapart hidle⟩

/-- Where a service is resumed between the directive that suspends it and what follows that, the service is active in the
end and its descriptor is not, and all three callers are told 0. -/
example :
    let ok : Outcome := ⟨0, .zero, false, none⟩
    ((threads ℕ).replay [.submit 0 (.load ⟨0⟩) true, .enter 0, .step 0 ok, .step 0 ok, .step 0 ok, .wait 0 true,
      .submit 0 .suspend true, .submit 0 .resume true, .enter 1, .step 1 ok, .step 1 ok, .enter 2, .step 2 ok,
      .step 2 ok, .step 2 ok, .wait 2 true, .step 1 ok, .wait 1 true]).any (fun r =>
        r.2.gestalt.find 0 = some ⟨true, false⟩ ∧ (r.2.gestalt.svc_descriptors 0).map (·.isActive) = some false ∧
          events r.1 = [.ended 0 0 (.load ⟨0⟩) ⟨0, .zero⟩, .returned 0 0, .ended 2 0 .resume ⟨0, .zero⟩, .returned 2 0,
            .ended 1 0 .suspend ⟨0, .zero⟩, .returned 1 0]) = true := by
  decide

/-! ## What the callers are told -/

/-- The call whose activity has run, with the lock or without. -/
def Event.ends : Event κ → Option ℕ
  | .ended c _ _ _ | .noLock c => some c
  | _ => none

/-- The activity of a call has run, and this is its report. -/
def World.Ran (s : World κ) (c : ℕ) (r : Report) : Prop := ∃ call : Call κ, s.calls[c]? = some call ∧ call.phase = .done r

/-- The activities that have run, and what was told of them. -/
structure Accounted (tr : List (Event κ)) (s : World κ) : Prop where
  done : ∀ c r, s.Ran c r → r.result_ = 0 → ∃ ident req, .ended c ident req r ∈ tr
  ended : ∀ e ∈ tr, ∀ c, e.ends = some c → ∃ r, s.Ran c r
  once : (tr.filterMap Event.ends).Nodup
  zero : ∀ l c, l ++ [.returned c 0] <+: tr → ∃ ident req r, .ended c ident req r ∈ l ∧ r.result_ = 0

namespace Accounted

variable {tr : List (Event κ)} {s' : World κ}

omit [DecidableEq κ] in
/-- A step that is not seen, in which no activity comes to its end. -/
theorem quiet (h : Accounted tr s) (hran : ∀ c r, s'.Ran c r ↔ s.Ran c r) : Accounted (tr ++ []) s' := by
  rw [List.append_nil]
  refine ⟨fun c r hr => h.done c r ((hran c r).mp hr), fun e he c hc => ?_, h.once, h.zero⟩
  obtain ⟨r, hr⟩ := h.ended e he c hc
  exact ⟨r, (hran c r).mpr hr⟩

omit [DecidableEq κ] in
/-- An activity comes to its end. -/
theorem ran (h : Accounted tr s) {c : ℕ} {r : Report} {e : Event κ} (hends : e.ends = some c) (hno : ∀ r, ¬ s.Ran c r)
    (hran : ∀ c' r', s'.Ran c' r' ↔ c' = c ∧ r' = r ∨ c' ≠ c ∧ s.Ran c' r')
    (hzero : r.result_ = 0 → ∃ ident req, e = .ended c ident req r) : Accounted (tr ++ [e]) s' := by
  refine ⟨fun c' r' hr hz => ?_, fun e' he' c' hc' => ?_, ?_, fun l c' hl => ?_⟩
  · rcases (hran c' r').mp hr with ⟨rfl, rfl⟩ | ⟨-, hr⟩
    · obtain ⟨ident, req, rfl⟩ := hzero hz
      exact ⟨ident, req, List.mem_append_right _ (List.mem_singleton_self _)⟩
    · obtain ⟨ident, req, hmem⟩ := h.done c' r' hr hz
      exact ⟨ident, req, List.mem_append_left _ hmem⟩
  · rcases List.mem_append.mp he' with he' | he'
    · obtain ⟨r', hr⟩ := h.ended e' he' c' hc'
      have hne : c' ≠ c := by
        rintro rfl
        exact hno r' hr
      exact ⟨r', (hran c' r').mpr (.inr ⟨hne, hr⟩)⟩
    · obtain rfl := List.mem_singleton.mp he'
      obtain rfl := Option.some.inj (hends.symm.trans hc')
      exact ⟨r, (hran c r).mpr (.inl ⟨rfl, rfl⟩)⟩
  · rw [List.filterMap_append, List.nodup_append, List.filterMap_cons_some hends]
    refine ⟨h.once, List.nodup_singleton c, fun c' hc' c'' hc'' => ?_⟩
    rintro rfl
    obtain rfl := List.mem_singleton.mp hc''
    obtain ⟨e', he', hends'⟩ := List.mem_filterMap.mp hc'
    obtain ⟨r', hr⟩ := h.ended e' he' c' hends'
    exact hno r' hr
  · rcases List.prefix_concat_iff.mp hl with heq | hl
    · obtain ⟨-, heq⟩ := List.append_inj' heq rfl
      obtain rfl := List.singleton_inj.mp heq
      cases hends
    · exact h.zero l c' hl

omit [DecidableEq κ] in
/-- A caller is told something. -/
theorem told (h : Accounted tr s) {e : Event κ} (hends : e.ends = none) (hran : ∀ c r, s'.Ran c r ↔ s.Ran c r)
    (hzero : ∀ c, e = .returned c 0 → ∃ r, s.Ran c r ∧ r.result_ = 0) : Accounted (tr ++ [e]) s' := by
  refine ⟨fun c r hr hz => ?_, fun e' he' c hc => ?_, ?_, fun l c hl => ?_⟩
  · obtain ⟨ident, req, hmem⟩ := h.done c r ((hran c r).mp hr) hz
    exact ⟨ident, req, List.mem_append_left _ hmem⟩
  · rcases List.mem_append.mp he' with he' | he'
    · obtain ⟨r, hr⟩ := h.ended e' he' c hc
      exact ⟨r, (hran c r).mpr hr⟩
    · obtain rfl := List.mem_singleton.mp he'
      cases hends.symm.trans hc
  · rw [List.filterMap_append, List.filterMap_cons_none hends, List.filterMap_nil, List.append_nil]
    exact h.once
  · rcases List.prefix_concat_iff.mp hl with heq | hl
    · obtain ⟨rfl, hlast⟩ := List.append_inj' heq rfl
      obtain ⟨r, hr, hz⟩ := hzero c (List.singleton_inj.mp hlast).symm
      obtain ⟨ident, req, hmem⟩ := h.done c r hr hz
      exact ⟨ident, req, r, hmem, hz⟩
    · exact h.zero l c hl

end Accounted

omit [DecidableEq κ] in
/-- What has run when a call has gone on. -/
theorem ran_set {c : ℕ} {call call' : Call κ} (hcall : s.calls[c]? = some call) (g : Gestalt κ) (c' : ℕ) (r' : Report) :
    World.Ran ⟨g, s.calls.set c call'⟩ c' r' ↔ c' = c ∧ call'.phase = .done r' ∨ c' ≠ c ∧ s.Ran c' r' := by
  have hlt := (List.getElem?_eq_some_iff.mp hcall).1
  by_cases hc : c' = c
  · subst hc
    simp [World.Ran, List.getElem?_set_self hlt]
  · simp [World.Ran, List.getElem?_set_ne (Ne.symm hc), hc]

omit [DecidableEq κ] in
theorem ran_iff {c : ℕ} {call : Call κ} (hcall : s.calls[c]? = some call) {r : Report} :
    s.Ran c r ↔ call.phase = .done r := by
  simp [World.Ran, hcall]

omit [DecidableEq κ] in
/-- A call that has gone on without an end of its activity. -/
theorem ran_same {c : ℕ} {call call' : Call κ} (hcall : s.calls[c]? = some call) (g : Gestalt κ)
    (hphase : ∀ r, call'.phase = .done r ↔ call.phase = .done r) (c' : ℕ) (r' : Report) :
    World.Ran ⟨g, s.calls.set c call'⟩ c' r' ↔ s.Ran c' r' := by
  rw [ran_set hcall]
  by_cases hc : c' = c
  · subst hc
    simp [ran_iff hcall, hphase]
  · simp [hc]

theorem accounted_step {tr es : List (Event κ)} {a : Act κ} {s' : World κ} (h : Accounted tr s)
    (hstep : step s a = some (s', es)) : Accounted (tr ++ es) s' := by
  cases a with
  | submit ident request accepted =>
    simp only [step] at hstep
    split_ifs at hstep
    · cases hstep
      refine h.quiet fun c r => ?_
      rcases lt_trichotomy c s.calls.length with hlt | rfl | hgt
      · simp [World.Ran, List.getElem?_append_left hlt]
      · simp [World.Ran]
      · have hnone : (s.calls ++ [⟨ident, request, .queued, true⟩])[c]? = none :=
          List.getElem?_eq_none (by rw [List.length_append, List.length_singleton]; omega)
        simp [World.Ran, hnone, List.getElem?_eq_none hgt.le]
    · cases hstep
      exact h.told rfl (fun _ _ => Iff.rfl) (fun c hc => by cases hc)
  | noLock c =>
    simp only [step] at hstep
    split at hstep
    · next call hcall =>
      split_ifs at hstep with hphase
      cases hstep
      refine h.ran (r := ⟨-1, .enolck⟩) rfl (fun r hr => ?_) (fun c' r' => ?_) (fun hz => by cases hz)
      · rw [ran_iff hcall, hphase] at hr
        cases hr
      · rw [World.set, ran_set hcall, Phase.done.injEq, eq_comm (b := r')]
    · cases hstep
  | enter c =>
    simp only [step] at hstep
    split at hstep
    · next call hcall =>
      split_ifs at hstep with hadmits
      cases hstep
      exact h.quiet (ran_same hcall _ (by simp [hadmits.1]))
    · cases hstep
  | step c o =>
    simp only [step] at hstep
    split at hstep
    · next call hcall =>
      split at hstep
      · next p hphase =>
        split at hstep
        · next e p' hnext =>
          cases hstep
          exact h.quiet (ran_same hcall _ (by simp [hphase]))
        · next e r hnext =>
          cases hstep
          refine h.ran (r := r) rfl (fun r' hr => ?_) (fun c' r' => ?_) fun _ => ⟨_, _, rfl⟩
          · rw [ran_iff hcall, hphase] at hr
            cases hr
          · rw [ran_set hcall, Phase.done.injEq, eq_comm (b := r')]
      · cases hstep
    · cases hstep
  | wait c inTime =>
    simp only [step] at hstep
    split at hstep
    · next call hcall =>
      split_ifs at hstep with hwaiting
      split at hstep
      · next r hphase =>
        cases hstep
        refine h.told rfl (ran_same hcall _ fun _ => Iff.rfl) fun c' hc' => ?_
        injection hc' with hc' hzero
        subst hc'
        exact ⟨r, (ran_iff hcall).mpr hphase, hzero⟩
      · cases hstep
      · cases hstep
        refine h.told rfl (ran_same hcall _ fun _ => Iff.rfl) fun c' hc' => ?_
        injection hc' with _ hzero
        cases hzero
    · cases hstep

theorem accounted_of_run (hr : Run (threads κ) π s) : Accounted (events π) s := by
  refine Run.inv (C := fun _ _ => True) ⟨?_, nofun, List.nodup_nil, ?_⟩ (fun tr s a s' es _ h hstep => accounted_step h hstep)
    hr fun _ _ => trivial
  · rintro c r ⟨call, hcall, -⟩
    cases hcall
  · intro l c hl
    have hnil := List.prefix_nil.mp hl
    simp at hnil

/-- The activity of a call runs once at most, with the lock or without it; and where a call has returned 0, its
activity has ended so before. -/
theorem returned_zero (hr : Run (threads κ) π s) :
    ((events π).filterMap Event.ends).Nodup ∧
      ∀ l c, l ++ [.returned c 0] <+: events π → ∃ ident req r, .ended c ident req r ∈ l ∧ r.result_ = 0 :=
  ⟨(accounted_of_run hr).once, (accounted_of_run hr).zero⟩

theorem returned_zero_shared : ∃ π s, Run (threads ℕ) π s ∧ .returned 1 0 ∈ events π ∧
    ((events π).filterMap Event.ends).Nodup ∧
      ∀ l c, l ++ [.returned c 0] <+: events π → ∃ ident req r, .ended c ident req r ∈ l ∧ r.result_ = 0 := by
  obtain ⟨π, s, hr, hp⟩ := exists_run_of_replay (M := threads ℕ)
    (p := fun (π : List (Taken (World ℕ) (Act ℕ) (Event ℕ))) _ => decide (.returned 1 0 ∈ events π)) sharedActs
    (by decide)
  exact ⟨π, s, hr, of_decide_eq_true hp, returned_zero hr⟩

end Lasagne.Daf.ServiceGestalt.Threads
