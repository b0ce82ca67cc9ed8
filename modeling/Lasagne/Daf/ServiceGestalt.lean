import Lasagne.Trans.Run
import Mathlib.Data.BitVec
import Mathlib.Logic.Function.Basic

/-!
# Lasagne.Daf.ServiceGestalt — the descriptors of a service gestalt and its repository

The activities of a `DAF::ServiceGestalt` have ACE process a directive, and keep a table of descriptors of the
services that were loaded.

* `run_consistent`, `run_failed` : what one activity does to the two tables;
* `descriptors_consistent` : over every run the descriptors are those of services that are there, with `LOAD_ACTIVE`
  for the active ones, and an activity that fails, other than a removal, changes nothing.
-/

namespace Lasagne.Daf.ServiceGestalt

open Lasagne.Trans

/-! ## The model -/

/-- An `ACE_Service_Type`, as far as it is looked at. -/
structure Service where
  active : Bool
  fini_called : Bool
  deriving DecidableEq

/-- A `ServiceDescriptor`, as far as it is looked at. -/
structure ServiceDescriptor where
  loadflags_ : BitVec 32
  deriving DecidableEq

/-- `LOAD_ACTIVE`. -/
def loadActive : BitVec 32 := 1#32 <<< 6

/-- `ACE_SET_BITS` and `ACE_CLR_BITS` with `LOAD_ACTIVE`. -/
def ServiceDescriptor.setActive (d : ServiceDescriptor) : ServiceDescriptor := ⟨d.loadflags_ ||| loadActive⟩

def ServiceDescriptor.clrActive (d : ServiceDescriptor) : ServiceDescriptor := ⟨d.loadflags_ &&& ~~~loadActive⟩

def ServiceDescriptor.isActive (d : ServiceDescriptor) : Bool := d.loadflags_ &&& loadActive != 0#32

/-- What `DAF_OS::last_error()` can be. -/
inductive Errno
  | zero
  | enolck
  | eexist
  | eacces
  | einval
  | enotsup
  | enoent
  | other (n : ℕ)
  deriving DecidableEq

/-- What cannot be suspended or resumed is not supported. -/
def Errno.unsupported : Errno → Errno
  | .einval => .enotsup
  | e => e

/-- The result of a removal: some errors do not count. -/
def Errno.forgiven (result : ℤ) : Errno → ℤ
  | .zero | .einval => 0
  | _ => result

/-- The repository of ACE, and the descriptors. -/
structure Gestalt (κ : Type*) where
  repository : κ → Option Service
  svc_descriptors : κ → Option ServiceDescriptor

/-- How a directive ends: what `process_directive` returns and the error it leaves, the flag of a service that it
failed to suspend or to resume, and what there is of a service that it failed to remove. -/
structure Outcome where
  result : ℤ
  error : Errno
  flag : Bool
  left : Option Service
  deriving DecidableEq

inductive Directive
  | load
  | suspend
  | resume
  | remove
  deriving DecidableEq

/-- `result_` and `error_` of a `ServiceActivity` that has run. -/
structure Report where
  result_ : ℤ
  error_ : Errno
  deriving DecidableEq

variable {κ : Type*} [DecidableEq κ]

/-- What becomes of the service. -/
def Directive.effect (d : Directive) (o : Outcome) (svc : Option Service) : Option Service :=
  match d with
  | .load => if o.result = 0 then some ⟨true, false⟩ else none
  | .suspend => svc.map fun x => { x with active := if o.result = 0 then false else o.flag }
  | .resume => svc.map fun x => { x with active := if o.result = 0 then true else o.flag }
  | .remove => if o.result = 0 then none else o.left

namespace Gestalt

/-- `find`, which does not find a service whose `fini` was called. -/
def find (g : Gestalt κ) (ident : κ) : Option Service := (g.repository ident).filter fun svc => !svc.fini_called

def processDirective (g : Gestalt κ) (d : Directive) (ident : κ) (o : Outcome) : Gestalt κ :=
  { g with repository := Function.update g.repository ident (d.effect o (g.repository ident)) }

/-- `svc_type->active(b)`. -/
def setActive (g : Gestalt κ) (ident : κ) (b : Bool) : Gestalt κ :=
  let svc := (g.repository ident).map fun x => { x with active := b }
  { g with repository := Function.update g.repository ident svc }

/-- The descriptor of a service is changed, if there is one. -/
def modify (g : Gestalt κ) (ident : κ) (f : ServiceDescriptor → ServiceDescriptor) : Gestalt κ :=
  { g with svc_descriptors := Function.update g.svc_descriptors ident ((g.svc_descriptors ident).map f) }

/-- `svc_descriptors().insert(…)`, and the bit is set if it was inserted. -/
def insert (g : Gestalt κ) (ident : κ) (sd : ServiceDescriptor) : Gestalt κ :=
  match g.svc_descriptors ident with
  | some _ => g
  | none => { g with svc_descriptors := Function.update g.svc_descriptors ident (some sd.setActive) }

def erase (g : Gestalt κ) (ident : κ) : Gestalt κ :=
  { g with svc_descriptors := Function.update g.svc_descriptors ident none }

end Gestalt

def loadActivityRun (g : Gestalt κ) (ident : κ) (sd : ServiceDescriptor) (o : Outcome) : Gestalt κ × Report :=
  match g.find ident with
  | some _ => (g, ⟨-1, .eexist⟩)
  | none =>
    let g' := g.processDirective .load ident o
    if o.result ≠ 0 then (g', ⟨o.result, o.error⟩) else (g'.insert ident sd, ⟨o.result, o.error⟩)

/-- A service is switched on or off.  `switch` is done when it is as it should be; when the directive fails its flag
is set back, and when it succeeds the flag of its descriptor follows. -/
def switchActivityRun (d : Directive) (b : Bool) (follow : ServiceDescriptor → ServiceDescriptor) (g : Gestalt κ)
    (ident : κ) (o : Outcome) : Gestalt κ × Report :=
  match g.find ident with
  | none => (g, ⟨-1, .eexist⟩)
  | some svc =>
    if svc.fini_called then (g, ⟨-1, .eacces⟩)
    else if svc.active = b then (g, ⟨0, .zero⟩)
    else
      let g' := g.processDirective d ident o
      if o.result ≠ 0 then (g'.setActive ident (!b), ⟨o.result, o.error.unsupported⟩)
      else (g'.modify ident follow, ⟨o.result, o.error⟩)

def suspendActivityRun (g : Gestalt κ) (ident : κ) (o : Outcome) : Gestalt κ × Report :=
  switchActivityRun .suspend false ServiceDescriptor.clrActive g ident o

def resumeActivityRun (g : Gestalt κ) (ident : κ) (o : Outcome) : Gestalt κ × Report :=
  switchActivityRun .resume true ServiceDescriptor.setActive g ident o

/-- The descriptor goes whatever becomes of the directive. -/
def removeActivityRun (g : Gestalt κ) (ident : κ) (o : Outcome) : Gestalt κ × Report :=
  match g.find ident with
  | none => (g, ⟨-1, .eexist⟩)
  | some svc =>
    if svc.fini_called then (g, ⟨-1, .eacces⟩)
    else
      let g' := g.processDirective .remove ident o
      match g.svc_descriptors ident with
      | some _ => (g'.erase ident, ⟨o.error.forgiven o.result, o.error⟩)
      | none => (g'.erase ident, ⟨Errno.zero.forgiven o.result, .enoent⟩)

/-- An activity that gets the lock of the descriptors, or does not. -/
inductive Act (κ : Type*)
  | load (ident : κ) (sd : ServiceDescriptor) (o : Outcome)
  | suspend (ident : κ) (o : Outcome)
  | resume (ident : κ) (o : Outcome)
  | remove (ident : κ) (o : Outcome)
  | noLock
  deriving DecidableEq

def run (g : Gestalt κ) : Act κ → Gestalt κ × Report
  | .load ident sd o => loadActivityRun g ident sd o
  | .suspend ident o => suspendActivityRun g ident o
  | .resume ident o => resumeActivityRun g ident o
  | .remove ident o => removeActivityRun g ident o
  | .noLock => (g, ⟨-1, .enolck⟩)

/-- The singleton executor runs one activity after the other. -/
def machine (κ : Type*) [DecidableEq κ] : Machine (Gestalt κ) (Act κ) Report where
  init := ⟨fun _ => none, fun _ => none⟩
  step g a := some ((run g a).1, [(run g a).2])

/-! ## The flag -/

variable {g : Gestalt κ} {a : Act κ} {ident k : κ} {o : Outcome} {sd : ServiceDescriptor} {svc : Service}

@[simp] theorem isActive_setActive (d : ServiceDescriptor) : d.setActive.isActive = true := by
  have hbit : ((d.loadflags_ ||| loadActive) &&& loadActive) = loadActive := by
    ext i hi
    simp only [BitVec.getElem_and, BitVec.getElem_or]
    cases loadActive[i] <;> simp
  unfold ServiceDescriptor.isActive ServiceDescriptor.setActive
  rw [hbit]
  decide

@[simp] theorem isActive_clrActive (d : ServiceDescriptor) : d.clrActive.isActive = false := by
  have hbit : (d.loadflags_ &&& ~~~loadActive) &&& loadActive = 0#32 := by
    ext i hi
    simp only [BitVec.getElem_and, BitVec.getElem_not]
    cases loadActive[i] <;> simp
  unfold ServiceDescriptor.isActive ServiceDescriptor.clrActive
  rw [hbit]
  decide

/-! ## One activity -/

/-- One name has another entry in the repository, and another descriptor. -/
def Gestalt.put (g : Gestalt κ) (ident : κ) (svc : Option Service) (d : Option ServiceDescriptor) : Gestalt κ :=
  ⟨Function.update g.repository ident svc, Function.update g.svc_descriptors ident d⟩

/-- The descriptor of a name, if there is one, is that of a service that is there, with its flag. -/
def ConsistentAt (g : Gestalt κ) (k : κ) : Prop :=
  ∀ d, g.svc_descriptors k = some d → ∃ svc, g.find k = some svc ∧ d.isActive = svc.active

omit [DecidableEq κ] in
theorem repository_of_find (h : g.find ident = some svc) : g.repository ident = some svc :=
  (Option.filter_eq_some_iff.mp h).1

omit [DecidableEq κ] in
theorem fini_of_find (h : g.find ident = some svc) : svc.fini_called = false := by
  have hfini := (Option.filter_eq_some_iff.mp h).2
  simpa using hfini

omit [DecidableEq κ] in
/-- Where nothing is found there is no descriptor. -/
theorem ConsistentAt.eq_none (h : ConsistentAt g k) (hfind : g.find k = none) : g.svc_descriptors k = none := by
  cases hd : g.svc_descriptors k with
  | none => rfl
  | some d =>
    obtain ⟨svc, hsvc, -⟩ := h d hd
    cases hfind.symm.trans hsvc

theorem find_put_self (svc : Option Service) (d : Option ServiceDescriptor) :
    (g.put ident svc d).find ident = svc.filter fun x => !x.fini_called := by
  unfold Gestalt.put Gestalt.find
  dsimp only
  rw [Function.update_self]

theorem find_put_ne (svc : Option Service) (d : Option ServiceDescriptor) (hk : k ≠ ident) :
    (g.put ident svc d).find k = g.find k := by
  unfold Gestalt.put Gestalt.find
  dsimp only
  rw [Function.update_of_ne hk]

/-- Another name is where it was. -/
theorem consistentAt_put {x : Option Service} {y : Option ServiceDescriptor} (h : ∀ k, ConsistentAt g k)
    (hself : ∀ d, y = some d → ∃ svc, x = some svc ∧ svc.fini_called = false ∧ d.isActive = svc.active) (k : κ) :
    ConsistentAt (g.put ident x y) k := by
  by_cases hk : k = ident
  · subst hk
    intro d hd
    have hd' : Function.update g.svc_descriptors k y k = some d := hd
    rw [Function.update_self] at hd'
    obtain ⟨svc, rfl, hfini, hflag⟩ := hself d hd'
    refine ⟨svc, ?_, hflag⟩
    rw [find_put_self, Option.filter_some, hfini]
    rfl
  · intro d hd
    have hd' : Function.update g.svc_descriptors ident y k = some d := hd
    rw [Function.update_of_ne hk] at hd'
    rw [find_put_ne _ _ hk]
    exact h k d hd'

/-- What switching a service does: nothing, and in the end nothing when it fails; or what it should. -/
theorem switch_cases {d : Directive} {b : Bool} {follow : ServiceDescriptor → ServiceDescriptor}
    (heffect : ∀ x, d.effect o x = x.map fun y => { y with active := if o.result = 0 then b else o.flag })
    {g' : Gestalt κ} {r : Report} (h : switchActivityRun d b follow g ident o = (g', r)) :
    g' = g ∨ r.result_ = 0 ∧ ∃ svc, g.find ident = some svc ∧
      g' = g.put ident (some { svc with active := b }) ((g.svc_descriptors ident).map follow) := by
  unfold switchActivityRun at h
  split at h
  · exact Or.inl (Prod.mk.inj h).1.symm
  next svc hfind =>
  have hrep := repository_of_find hfind
  split at h
  · exact Or.inl (Prod.mk.inj h).1.symm
  split at h
  · exact Or.inl (Prod.mk.inj h).1.symm
  next hactive =>
  dsimp only at h
  split at h
  · next hres =>
    obtain ⟨rfl, rfl⟩ := Prod.mk.inj h
    have hback : (!b) = svc.active := by
      cases b
      · exact (Bool.eq_true_of_not_eq_false hactive).symm
      · exact (Bool.eq_false_of_not_eq_true hactive).symm
    -- the flag is as it was before the directive
    have hsame : Function.update (Function.update g.repository ident (d.effect o (g.repository ident))) ident
        (((Function.update g.repository ident (d.effect o (g.repository ident))) ident).map
          fun x => { x with active := !b }) = g.repository := by
      rw [Function.update_idem, Function.update_self, heffect, hrep, hback]
      exact Function.update_eq_self_iff.mpr hrep.symm
    refine Or.inl ?_
    unfold Gestalt.setActive Gestalt.processDirective
    dsimp only
    rw [hsame]
  · next hres =>
    obtain ⟨rfl, rfl⟩ := Prod.mk.inj h
    have hzero : o.result = 0 := not_not.mp hres
    refine Or.inr ⟨hzero, svc, hfind, ?_⟩
    unfold Gestalt.modify Gestalt.processDirective Gestalt.put
    rw [heffect, hrep]
    simp only [hzero, ite_true, Option.map_some]

/-- What loading a service does. -/
theorem load_cases {g' : Gestalt κ} {r : Report} (h : loadActivityRun g ident sd o = (g', r)) :
    g' = g ∨ g.find ident = none ∧ (r.result_ ≠ 0 ∧ g' = g.put ident none (g.svc_descriptors ident) ∨
      r.result_ = 0 ∧ (g.svc_descriptors ident = none →
        g' = g.put ident (some ⟨true, false⟩) (some sd.setActive))) := by
  unfold loadActivityRun at h
  split at h
  · exact Or.inl (Prod.mk.inj h).1.symm
  next hfind =>
  dsimp only at h
  refine Or.inr ⟨hfind, ?_⟩
  split at h
  · next hres =>
    obtain ⟨rfl, rfl⟩ := Prod.mk.inj h
    refine Or.inl ⟨hres, ?_⟩
    unfold Gestalt.processDirective Gestalt.put
    rw [Function.update_eq_self]
    simp only [Directive.effect, if_neg hres]
  · next hres =>
    obtain ⟨rfl, rfl⟩ := Prod.mk.inj h
    have hzero : o.result = 0 := not_not.mp hres
    refine Or.inr ⟨hzero, fun hnone => ?_⟩
    unfold Gestalt.insert Gestalt.processDirective Gestalt.put
    simp only [hnone, Directive.effect, hzero, ite_true]

theorem remove_cases {g' : Gestalt κ} {r : Report} (h : removeActivityRun g ident o = (g', r)) :
    g' = g ∨ ∃ x, g' = g.put ident x none := by
  unfold removeActivityRun at h
  split at h
  · exact Or.inl (Prod.mk.inj h).1.symm
  split at h
  · exact Or.inl (Prod.mk.inj h).1.symm
  dsimp only at h
  split at h
  · exact Or.inr ⟨_, (Prod.mk.inj h).1.symm⟩
  · exact Or.inr ⟨_, (Prod.mk.inj h).1.symm⟩

/-- The descriptors of what was switched follow it. -/
theorem consistent_switch {b : Bool} {follow : ServiceDescriptor → ServiceDescriptor} (h : ∀ k, ConsistentAt g k)
    (hfind : g.find ident = some svc) (hfollow : ∀ d, (follow d).isActive = b) (k : κ) :
    ConsistentAt (g.put ident (some { svc with active := b }) ((g.svc_descriptors ident).map follow)) k := by
  refine consistentAt_put h (fun d hd => ?_) k
  obtain ⟨d', -, rfl⟩ := Option.map_eq_some_iff.mp hd
  have hfini : svc.fini_called = false := fini_of_find hfind
  exact ⟨{ svc with active := b }, rfl, hfini, hfollow d'⟩

theorem run_consistent (h : ∀ k, ConsistentAt g k) (a : Act κ) : ∀ k, ConsistentAt (run g a).1 k := by
  cases a with
  | load ident sd o =>
    simp only [run]
    rcases hrun : loadActivityRun g ident sd o with ⟨g', r⟩
    rcases load_cases hrun with rfl | ⟨hfind, ⟨-, rfl⟩ | ⟨-, heq⟩⟩
    · exact h
    · refine consistentAt_put h fun d hd => ?_
      cases hd.symm.trans ((h ident).eq_none hfind)
    · rw [heq ((h ident).eq_none hfind)]
      refine consistentAt_put h fun d hd => ⟨⟨true, false⟩, rfl, rfl, ?_⟩
      obtain rfl := Option.some.inj hd
      exact isActive_setActive sd
  | suspend ident o =>
    simp only [run]
    rcases hrun : suspendActivityRun g ident o with ⟨g', r⟩
    rcases switch_cases (fun _ => rfl) hrun with rfl | ⟨-, svc, hfind, rfl⟩
    · exact h
    · exact consistent_switch h hfind isActive_clrActive
  | resume ident o =>
    simp only [run]
    rcases hrun : resumeActivityRun g ident o with ⟨g', r⟩
    rcases switch_cases (fun _ => rfl) hrun with rfl | ⟨-, svc, hfind, rfl⟩
    · exact h
    · exact consistent_switch h hfind isActive_setActive
  | remove ident o =>
    simp only [run]
    rcases hrun : removeActivityRun g ident o with ⟨g', r⟩
    rcases remove_cases hrun with rfl | ⟨x, rfl⟩
    · exact h
    · exact consistentAt_put h fun d hd => (by cases hd)
  | noLock => exact h

/-- The activity is not the removal of a service. -/
def Act.isRemove : Act κ → Bool
  | .remove _ _ => true
  | _ => false

/-- A failure leaves what can be found as it is. -/
theorem run_failed (ha : a.isRemove = false) (hfail : (run g a).2.result_ ≠ 0) :
    (run g a).1.svc_descriptors = g.svc_descriptors ∧ ∀ k, (run g a).1.find k = g.find k := by
  cases a with
  | load ident sd o =>
    simp only [run] at hfail ⊢
    rcases hrun : loadActivityRun g ident sd o with ⟨g', r⟩
    rw [hrun] at hfail
    rcases load_cases hrun with rfl | ⟨hfind, ⟨-, rfl⟩ | ⟨hzero, -⟩⟩
    · exact ⟨rfl, fun _ => rfl⟩
    · refine ⟨Function.update_eq_self .., fun k => ?_⟩
      by_cases hk : k = ident
      · subst hk
        rw [find_put_self, hfind]
        rfl
      · exact find_put_ne _ _ hk
    · exact absurd hzero hfail
  | suspend ident o =>
    simp only [run] at hfail ⊢
    rcases hrun : suspendActivityRun g ident o with ⟨g', r⟩
    rw [hrun] at hfail
    rcases switch_cases (fun _ => rfl) hrun with rfl | ⟨hzero, -⟩
    · exact ⟨rfl, fun _ => rfl⟩
    · exact absurd hzero hfail
  | resume ident o =>
    simp only [run] at hfail ⊢
    rcases hrun : resumeActivityRun g ident o with ⟨g', r⟩
    rw [hrun] at hfail
    rcases switch_cases (fun _ => rfl) hrun with rfl | ⟨hzero, -⟩
    · exact ⟨rfl, fun _ => rfl⟩
    · exact absurd hzero hfail
  | remove ident o => cases ha
  | noLock => exact ⟨rfl, fun _ => rfl⟩

/-! ## Runs -/

variable {π : List (Taken (Gestalt κ) (Act κ) Report)}

/-- **Descriptors.**  After every sequence of activities, whatever becomes of their directives, every descriptor is that
of a service that is there and has `LOAD_ACTIVE` exactly if the service is active; and then a load, a suspension or a
resumption that fails leaves the descriptors, and the services that are there with their flags, as they were. -/
theorem descriptors_consistent (hr : Run (machine κ) π g) :
    (∀ k d, g.svc_descriptors k = some d → ∃ svc, g.find k = some svc ∧ d.isActive = svc.active) ∧
    ∀ a : Act κ, a.isRemove = false → (run g a).2.result_ ≠ 0 →
      (run g a).1.svc_descriptors = g.svc_descriptors ∧ ∀ k, (run g a).1.find k = g.find k := by
  refine ⟨?_, fun a ha hfail => run_failed ha hfail⟩
  induction hr with
  | start => exact fun k d hd => (by cases hd)
  | @snoc π g g' a es _ hstep ih =>
    obtain ⟨rfl, -⟩ := Prod.mk.inj (Option.some.inj hstep)
    exact run_consistent ih a

/-- A service is loaded and suspended, and then a resumption fails after it has set the flag. -/
theorem descriptors_consistent_two : ∃ (π : List (Taken (Gestalt ℕ) (Act ℕ) Report)) (g : Gestalt ℕ),
    Run (machine ℕ) π g ∧ g.find 5 = some ⟨false, false⟩ ∧ g.svc_descriptors 5 = some ⟨4#32⟩ ∧
    (run g (.resume 5 ⟨-1, .einval, true, none⟩)).2 = ⟨-1, .enotsup⟩ ∧
    (run g (.resume 5 ⟨-1, .einval, true, none⟩)).1.find 5 = some ⟨false, false⟩ := by
  obtain ⟨π, g, hr, hp⟩ := exists_run_of_replay (M := machine ℕ)
    (p := fun (_ : List (Taken (Gestalt ℕ) (Act ℕ) Report)) (g : Gestalt ℕ) =>
      decide (g.find 5 = some ⟨false, false⟩ ∧ g.svc_descriptors 5 = some ⟨4#32⟩ ∧
        (run g (.resume 5 ⟨-1, .einval, true, none⟩)).2 = ⟨-1, .enotsup⟩))
    [.load 5 ⟨4#32⟩ ⟨0, .zero, false, none⟩, .suspend 5 ⟨0, .zero, false, none⟩] (by decide +kernel)
  obtain ⟨hfind, hdesc, hreport⟩ := of_decide_eq_true hp
  have hfail : (run g (.resume 5 ⟨-1, .einval, true, none⟩)).2.result_ ≠ 0 := by
    rw [hreport]
    decide
  have hkeep := ((descriptors_consistent hr).2 _ rfl hfail).2 5
  exact ⟨π, g, hr, hfind, hdesc, hreport, hkeep.trans hfind⟩

end Lasagne.Daf.ServiceGestalt
