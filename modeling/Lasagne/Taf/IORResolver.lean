import Lasagne.Trans.Run
import Mathlib.Data.Fintype.Basic
import Mathlib.Logic.Function.Basic

/-!
# Lasagne.Taf.IORResolver — `TAF::IORResolverChain_T::resolve` and the resolvers of the chain

`resolve` has every resolver of the chain run, by another thread, and then waits on the monitor of the chain.  A
resolver stores what it found, outside the monitor, and signals once.

* `Move.good` : under which conditions on a step a result that is there is never missed;
* `nil_sound` : in a run whose steps meet them, `resolve` gives up only when no resolver has a result;
* `nil_unsound` : a resolver that is done before the wait begins is missed.
-/

namespace Lasagne.Taf.IORResolver

open Lasagne.Trans

/-! ## The model -/

/-- `FileResolver_T`, `InitialRefResolver_T` and `NamingResolver_T`. -/
inductive Kind
  | file
  | initialRef
  | naming
  deriving DecidableEq

/-- Where the thread in `resolve` is: having the rest of the chain executed, and with nothing left of it on its way
into the monitor; in the wait; looking at the rest of the chain, with the monitor's lock; or past the time-out. -/
inductive Pc (ρ : Type*)
  | outside
  | executing (rest : List ρ)
  | waiting (notified : Bool)
  | scanning (rest : List ρ)
  | timedOut
  deriving DecidableEq

/-- A `run()` of a resolver that is under way, and whether it has stored its result. -/
structure Task (ρ : Type*) where
  resolver : ρ
  stored : Bool
  deriving DecidableEq

/-- `ρ` are the resolvers, `τ` the threads of the executor and `T` the references that are not nil. -/
structure World (ρ τ T : Type*) where
  pc : Pc ρ
  task : τ → Option (Task ρ)
  result_ : ρ → Option T

/-- What the steps are: those of the resolving thread, and from `store` on those of a `run()`. -/
inductive Act (τ T : Type*)
  | resolve
  | execute (t : τ)
  | refuse
  | lock
  | wake
  | timeOut
  | interrupted
  | look
  | giveUp
  | store (t : τ) (v : Option T)
  | fail (t : τ)
  | signal (t : τ)
  | finish (t : τ)
  deriving DecidableEq

/-- `resolve` has returned. -/
inductive Event (T : Type*)
  | returned (v : Option T)
  deriving DecidableEq

variable {ρ τ T : Type*} [DecidableEq ρ] [DecidableEq τ]

/-- Where a wait is, it is woken. -/
def Pc.notify : Pc ρ → Pc ρ
  | .waiting _ => .waiting true
  | pc => pc

def Pc.isScanning : Pc ρ → Bool
  | .scanning _ => true
  | _ => false

def Pc.isWaiting : Pc ρ → Bool
  | .waiting _ => true
  | _ => false

def step (kind : ρ → Kind) (chain : List ρ) (s : World ρ τ T) : Act τ T → Option (World ρ τ T × List (Event T))
  | .resolve => if s.pc = .outside then some ({ s with pc := .executing chain }, []) else none
  | .execute t =>
    match s.pc with
    | .executing (r :: rest) =>
      if s.task t = none then
        some ({ s with pc := .executing rest, task := Function.update s.task t (some ⟨r, false⟩) }, [])
      else none
    | _ => none
  | .refuse =>
    match s.pc with
    | .executing (_ :: rest) => some ({ s with pc := .executing rest }, [])
    | _ => none
  | .lock => if s.pc = .executing [] then some ({ s with pc := .waiting false }, []) else none
  | .wake => if s.pc.isWaiting then some ({ s with pc := .scanning chain }, []) else none
  | .timeOut => if s.pc.isWaiting then some ({ s with pc := .timedOut }, []) else none
  | .interrupted => if s.pc.isWaiting then some ({ s with pc := .outside }, []) else none
  | .look =>
    match s.pc with
    | .scanning (r :: rest) =>
      match s.result_ r with
      | some v => some ({ s with pc := .outside }, [.returned (some v)])
      | none => some ({ s with pc := .scanning rest }, [])
    | .scanning [] => some ({ s with pc := .executing [] }, [])
    | _ => none
  | .giveUp => if s.pc = .timedOut then some ({ s with pc := .outside }, [.returned none]) else none
  | .store t v =>
    match s.task t with
    | some ⟨r, false⟩ =>
      some ({ s with
        task := Function.update s.task t (some ⟨r, true⟩)
        result_ := Function.update s.result_ r v }, [])
    | _ => none
  | .fail t =>
    match s.task t with
    | some ⟨_, false⟩ => some ({ s with task := Function.update s.task t none }, [])
    | _ => none
  | .signal t =>
    match s.task t with
    | some ⟨r, true⟩ =>
      -- only a `FileResolver_T` signals a nil result
      if (kind r = .file ∨ s.result_ r ≠ none) ∧ s.pc.isScanning = false then
        some ({ s with pc := s.pc.notify, task := Function.update s.task t none }, [])
      else none
    | _ => none
  | .finish t =>
    match s.task t with
    | some ⟨r, true⟩ =>
      if kind r ≠ .file ∧ s.result_ r = none then some ({ s with task := Function.update s.task t none }, []) else none
    | _ => none

/-- A chain whose resolvers have not run, and any number of calls of `resolve`, one after the other. -/
def machine (τ T : Type*) [DecidableEq τ] (kind : ρ → Kind) (chain : List ρ) :
    Machine (World ρ τ T) (Act τ T) (Event T) where
  init := ⟨.outside, fun _ => none, fun _ => none⟩
  step := step kind chain

variable {kind : ρ → Kind} {chain : List ρ} {s s' : World ρ τ T} {a : Act τ T} {es : List (Event T)}

/-! ## What a step does -/

/-- What a step can do. -/
inductive Move (kind : ρ → Kind) (chain : List ρ) (s : World ρ τ T) : Act τ T → World ρ τ T → List (Event T) → Prop
  | resolve : s.pc = .outside → Move kind chain s .resolve { s with pc := .executing chain } []
  | execute {t : τ} {q : ρ} {rest : List ρ} : s.pc = .executing (q :: rest) → s.task t = none →
      Move kind chain s (.execute t)
        { s with pc := .executing rest, task := Function.update s.task t (some ⟨q, false⟩) } []
  | refuse {q : ρ} {rest : List ρ} : s.pc = .executing (q :: rest) →
      Move kind chain s .refuse { s with pc := .executing rest } []
  | lock : s.pc = .executing [] → Move kind chain s .lock { s with pc := .waiting false } []
  | wake : s.pc.isWaiting = true → Move kind chain s .wake { s with pc := .scanning chain } []
  | timeOut : s.pc.isWaiting = true → Move kind chain s .timeOut { s with pc := .timedOut } []
  | interrupted : s.pc.isWaiting = true → Move kind chain s .interrupted { s with pc := .outside } []
  | found {q : ρ} {rest : List ρ} {v : T} : s.pc = .scanning (q :: rest) → s.result_ q = some v →
      Move kind chain s .look { s with pc := .outside } [.returned (some v)]
  | passed {q : ρ} {rest : List ρ} : s.pc = .scanning (q :: rest) → s.result_ q = none →
      Move kind chain s .look { s with pc := .scanning rest } []
  | again : s.pc = .scanning [] → Move kind chain s .look { s with pc := .executing [] } []
  | giveUp : s.pc = .timedOut → Move kind chain s .giveUp { s with pc := .outside } [.returned none]
  | store {t : τ} {q : ρ} {v : Option T} : s.task t = some ⟨q, false⟩ →
      Move kind chain s (.store t v) { s with
        task := Function.update s.task t (some ⟨q, true⟩)
        result_ := Function.update s.result_ q v } []
  | fail {t : τ} {q : ρ} : s.task t = some ⟨q, false⟩ →
      Move kind chain s (.fail t) { s with task := Function.update s.task t none } []
  | signal {t : τ} {q : ρ} : s.task t = some ⟨q, true⟩ → s.pc.isScanning = false →
      Move kind chain s (.signal t) { s with pc := s.pc.notify, task := Function.update s.task t none } []
  | finish {t : τ} {q : ρ} : s.task t = some ⟨q, true⟩ → s.result_ q = none →
      Move kind chain s (.finish t) { s with task := Function.update s.task t none } []

theorem step_move (hs : step kind chain s a = some (s', es)) : Move kind chain s a s' es := by
  cases a with
  | resolve | lock | wake | timeOut | interrupted | giveUp =>
    simp only [step] at hs
    split at hs
    · next hpc =>
      obtain ⟨rfl, rfl⟩ := Prod.mk.inj (Option.some.inj hs)
      constructor
      exact hpc
    · cases hs
  | execute t =>
    simp only [step] at hs
    split at hs
    · next q rest hpc =>
      split at hs
      · next hfree =>
        obtain ⟨rfl, rfl⟩ := Prod.mk.inj (Option.some.inj hs)
        exact .execute hpc hfree
      · cases hs
    · cases hs
  | refuse =>
    simp only [step] at hs
    split at hs
    · next q rest hpc =>
      obtain ⟨rfl, rfl⟩ := Prod.mk.inj (Option.some.inj hs)
      exact .refuse hpc
    · cases hs
  | look =>
    simp only [step] at hs
    split at hs
    · next q rest hpc =>
      split at hs
      · next v hres =>
        obtain ⟨rfl, rfl⟩ := Prod.mk.inj (Option.some.inj hs)
        exact .found hpc hres
      · next hres =>
        obtain ⟨rfl, rfl⟩ := Prod.mk.inj (Option.some.inj hs)
        exact .passed hpc hres
    · next hpc =>
      obtain ⟨rfl, rfl⟩ := Prod.mk.inj (Option.some.inj hs)
      exact .again hpc
    · cases hs
  | store t v =>
    simp only [step] at hs
    split at hs
    · next q htask =>
      obtain ⟨rfl, rfl⟩ := Prod.mk.inj (Option.some.inj hs)
      exact .store htask
    · cases hs
  | fail t =>
    simp only [step] at hs
    split at hs
    · next q htask =>
      obtain ⟨rfl, rfl⟩ := Prod.mk.inj (Option.some.inj hs)
      exact .fail htask
    · cases hs
  | signal t =>
    simp only [step] at hs
    split at hs
    · next q htask =>
      split at hs
      · next hwho =>
        obtain ⟨rfl, rfl⟩ := Prod.mk.inj (Option.some.inj hs)
        exact .signal htask hwho.2
      · cases hs
    · cases hs
  | finish t =>
    simp only [step] at hs
    split at hs
    · next q htask =>
      split at hs
      · next hwho =>
        obtain ⟨rfl, rfl⟩ := Prod.mk.inj (Option.some.inj hs)
        exact .finish htask hwho.2
      · cases hs
    · cases hs

/-! ## What is not missed -/

/-- A resolver has stored its result, and has not signalled. -/
def Unsignalled (s : World ρ τ T) (r : ρ) : Prop := ∃ t, s.task t = some ⟨r, true⟩

/-- The result of the resolver that a thread runs. -/
def World.resultOf (s : World ρ τ T) (t : τ) : Option T := (s.task t).bind fun x => s.result_ x.resolver

/-- The step does not come at a time where a result is missed: `resolve` is not called when a resolver has one from
before; a resolver that has one signals when `resolve` waits, or is not there; the wait does not time out when it
was woken, or with such a signal still to come; and no result is stored between the time-out and the return. -/
def Timely (chain : List ρ) (s : World ρ τ T) : Act τ T → Prop
  | .resolve => ∀ r ∈ chain, s.result_ r = none
  | .signal t => s.resultOf t = none ∨ s.pc.isWaiting = true ∨ s.pc = .outside
  | .timeOut => s.pc = .waiting false ∧ ∀ r ∈ chain, Unsignalled s r → s.result_ r = none
  | .store _ v => v = none ∨ s.pc ≠ .timedOut
  | _ => True

/-- A result that is there is still to be signalled, or still to be looked at. -/
def Heard (s : World ρ τ T) (r : ρ) : Prop :=
  match s.pc with
  | .outside => True
  | .executing _ => Unsignalled s r
  | .waiting notified => notified = true ∨ Unsignalled s r
  | .scanning rest => r ∈ rest ∨ Unsignalled s r
  | .timedOut => False

def Good (chain : List ρ) (s : World ρ τ T) : Prop := ∀ r ∈ chain, s.result_ r ≠ none → Heard s r

section

omit [DecidableEq ρ] [DecidableEq τ]

variable {r : ρ} {rest : List ρ}

theorem heard_outside (hpc : s.pc = .outside) : Heard s r := by
  unfold Heard
  rw [hpc]
  trivial

theorem heard_executing (hpc : s.pc = .executing rest) : Heard s r ↔ Unsignalled s r := by
  unfold Heard
  rw [hpc]

theorem heard_waiting {notified : Bool} (hpc : s.pc = .waiting notified) :
    Heard s r ↔ notified = true ∨ Unsignalled s r := by
  unfold Heard
  rw [hpc]

theorem heard_scanning (hpc : s.pc = .scanning rest) : Heard s r ↔ r ∈ rest ∨ Unsignalled s r := by
  unfold Heard
  rw [hpc]

theorem not_heard_timedOut (hpc : s.pc = .timedOut) : ¬Heard s r := by
  unfold Heard
  rw [hpc]
  exact id

/-- What is still to be signalled is not missed, except after the time-out. -/
theorem Unsignalled.heard (h : Unsignalled s r) (hpc : s.pc ≠ .timedOut) : Heard s r := by
  unfold Heard
  split
  · trivial
  · exact h
  · exact Or.inr h
  · exact Or.inr h
  · next hout => exact hpc hout

end

omit [DecidableEq ρ] in
theorem Unsignalled.update {t : τ} {x : Option (Task ρ)} {r : ρ} {pc : Pc ρ} {result_ : ρ → Option T}
    (h : Unsignalled s r) (hne : s.task t ≠ some ⟨r, true⟩) :
    Unsignalled ⟨pc, Function.update s.task t x, result_⟩ r := by
  obtain ⟨u, hu⟩ := h
  refine ⟨u, ?_⟩
  have hut : u ≠ t := fun heq => hne (heq ▸ hu)
  show Function.update s.task t x u = some ⟨r, true⟩
  rw [Function.update_of_ne hut, hu]

omit [DecidableEq ρ] in
/-- What another resolver's thread does takes nothing away, and a signal only adds. -/
theorem Heard.update {t : τ} {x : Option (Task ρ)} {r : ρ} {pc : Pc ρ} {result_ : ρ → Option T} (h : Heard s r)
    (hne : s.task t ≠ some ⟨r, true⟩) (hpc : pc = s.pc ∨ pc = s.pc.notify) :
    Heard ⟨pc, Function.update s.task t x, result_⟩ r := by
  cases hs : s.pc with
  | outside =>
    rw [hs] at hpc
    exact heard_outside (hpc.elim id id)
  | timedOut => exact absurd h (not_heard_timedOut hs)
  | executing rest =>
    rw [hs] at hpc
    exact (heard_executing (hpc.elim id id)).2 (((heard_executing hs).1 h).update hne)
  | scanning rest =>
    rw [hs] at hpc
    refine (heard_scanning (hpc.elim id id)).2 (((heard_scanning hs).1 h).imp_right ?_)
    exact fun hu => hu.update hne
  | waiting notified =>
    rw [hs] at hpc
    rcases hpc with rfl | rfl
    · refine (heard_waiting rfl).2 (((heard_waiting hs).1 h).imp_right ?_)
      exact fun hu => hu.update hne
    · exact (heard_waiting rfl).2 (Or.inl rfl)

omit [DecidableEq ρ] in
/-- A signal is heard by who waits, and by nobody when `resolve` is not there. -/
theorem heard_signal {t : τ} {q : ρ} (htask : s.task t = some ⟨q, true⟩) (hres : s.result_ q ≠ none)
    (ha : Timely chain s (.signal t)) : Heard ⟨s.pc.notify, Function.update s.task t none, s.result_⟩ q := by
  have hresult : s.resultOf t = s.result_ q := by
    unfold World.resultOf
    rw [htask]
    rfl
  rcases ha with hnil | hwait | hout
  · exact absurd (hresult.symm.trans hnil) hres
  · cases hpc : s.pc with
    | waiting b => exact (heard_waiting rfl).2 (Or.inl rfl)
    | outside => rw [hpc] at hwait; cases hwait
    | executing rest => rw [hpc] at hwait; cases hwait
    | scanning rest => rw [hpc] at hwait; cases hwait
    | timedOut => rw [hpc] at hwait; cases hwait
  · rw [hout]
    exact heard_outside rfl

/-- A step that comes in time misses nothing. -/
theorem Move.good (hm : Move kind chain s a s' es) (ha : Timely chain s a) (h : Good chain s) : Good chain s' := by
  intro r hr hres
  cases hm with
  | resolve hpc => exact absurd (ha r hr) hres
  | execute hpc hfree =>
    have hun := (heard_executing hpc).1 (h r hr hres)
    exact (heard_executing rfl).2 (hun.update (by rw [hfree]; exact fun heq => (by cases heq)))
  | refuse hpc => exact (heard_executing rfl).2 ((heard_executing hpc).1 (h r hr hres))
  | lock hpc => exact (heard_waiting rfl).2 (Or.inr ((heard_executing hpc).1 (h r hr hres)))
  | wake hpc => exact (heard_scanning rfl).2 (Or.inl hr)
  | timeOut hpc =>
    obtain ⟨hwait, hnone⟩ := ha
    rcases (heard_waiting hwait).1 (h r hr hres) with hfalse | hun
    · cases hfalse
    · exact absurd (hnone r hr hun) hres
  | interrupted hpc | found hpc hresult | giveUp hpc => exact heard_outside rfl
  | passed hpc hresult =>
    -- the one that was looked at has none
    have hne : r ≠ _ := fun heq => hres (heq ▸ hresult)
    refine (heard_scanning rfl).2 (((heard_scanning hpc).1 (h r hr hres)).imp_left ?_)
    exact fun hmem => (List.mem_cons.mp hmem).resolve_left hne
  | again hpc => exact (heard_executing rfl).2 (((heard_scanning hpc).1 (h r hr hres)).resolve_left List.not_mem_nil)
  | @store t q v htask =>
    by_cases heq : r = q
    · subst heq
      have hv : v ≠ none := by
        rintro rfl
        exact hres (Function.update_self ..)
      refine Unsignalled.heard ⟨t, Function.update_self ..⟩ ?_
      exact ha.resolve_left hv
    · have hres' : s.result_ r ≠ none := fun hnil => hres ((Function.update_of_ne heq ..).trans hnil)
      refine (h r hr hres').update ?_ (Or.inl rfl)
      rw [htask]
      exact fun habs => (by cases habs)
  | fail htask =>
    refine (h r hr hres).update ?_ (Or.inl rfl)
    rw [htask]
    exact fun habs => (by cases habs)
  | @signal t q htask _ =>
    by_cases heq : r = q
    · subst heq
      exact heard_signal htask hres ha
    · refine (h r hr hres).update ?_ (Or.inr rfl)
      rw [htask]
      intro habs
      exact heq (Task.mk.inj (Option.some.inj habs)).1.symm
  | finish htask hnil =>
    refine (h r hr hres).update ?_ (Or.inl rfl)
    rw [htask]
    intro habs
    obtain rfl := (Task.mk.inj (Option.some.inj habs)).1
    exact hres hnil

/-! ## Runs -/

variable {π : List (Taken (World ρ τ T) (Act τ T) (Event T))}

/-- `resolve` gives up only when no resolver of the chain has a result. -/
def NilSound (chain : List ρ) (s : World ρ τ T) (a : Act τ T) : Prop :=
  match a with
  | .giveUp => ∀ r ∈ chain, s.result_ r = none
  | _ => True

instance [DecidableEq T] (chain : List ρ) (s : World ρ τ T) (a : Act τ T) : Decidable (NilSound chain s a) :=
  match a with
  | .giveUp => inferInstanceAs (Decidable (∀ r ∈ chain, s.result_ r = none))
  | .resolve | .execute _ | .refuse | .lock | .wake | .timeOut | .interrupted | .look | .store _ _ | .fail _
  | .signal _ | .finish _ => inferInstanceAs (Decidable True)

theorem good_of_run (hr : Run (machine τ T kind chain) π s) (hmeets : Meets (Timely chain) π) : Good chain s := by
  refine Run.inv (P := fun _ s => Good chain s) ?_ ?_ hr hmeets
  · exact fun r _ hres => absurd rfl hres
  · exact fun _ _ _ _ _ ha hgood hstep => (step_move hstep).good ha hgood

/-- **Resolving.**  In every run of a chain of resolvers, of whatever kinds and however many, in which no step comes
at a time where a result is missed, `resolve` returns nil, when it is not interrupted, only if no resolver of the
chain has a result then. -/
theorem nil_sound (hr : Run (machine τ T kind chain) π s) (hmeets : Meets (Timely chain) π) :
    Meets (NilSound chain) π := by
  induction hr with
  | start => exact meets_nil _
  | @snoc π s s' a es hrun hstep ih =>
    obtain ⟨hπ, -⟩ := meets_snoc.mp hmeets
    refine meets_snoc.mpr ⟨ih hπ, ?_⟩
    have hgood := good_of_run hrun hπ
    cases step_move hstep with
    | giveUp hpc =>
      intro r hr
      by_contra hres
      exact not_heard_timedOut hpc (hgood r hr hres)
    | _ => trivial

instance [DecidableEq T] [Fintype τ] (s : World ρ τ T) (r : ρ) : Decidable (Unsignalled s r) :=
  inferInstanceAs (Decidable (∃ t, s.task t = some ⟨r, true⟩))

instance [DecidableEq T] [Fintype τ] (chain : List ρ) (s : World ρ τ T) (a : Act τ T) : Decidable (Timely chain s a) :=
  match a with
  | .resolve => inferInstanceAs (Decidable (∀ r ∈ chain, s.result_ r = none))
  | .signal t => inferInstanceAs (Decidable (s.resultOf t = none ∨ s.pc.isWaiting = true ∨ s.pc = .outside))
  | .timeOut => inferInstanceAs (Decidable (_ ∧ ∀ r ∈ chain, _ → _))
  | .store _ v => inferInstanceAs (Decidable (v = none ∨ s.pc ≠ .timedOut))
  | .execute _ | .refuse | .lock | .wake | .interrupted | .look | .giveUp | .fail _ | .finish _ =>
    inferInstanceAs (Decidable True)

/-- Of two resolvers one fails and one signals that it has nothing, and then the wait times out. -/
theorem nil_sound_two : ∃ (π : List (Taken (World ℕ (Fin 2) ℕ) (Act (Fin 2) ℕ) (Event ℕ))) (s : World ℕ (Fin 2) ℕ),
    Run (machine (Fin 2) ℕ (fun _ => .file) [0, 1]) π s ∧ Event.returned none ∈ events π ∧
    Meets (NilSound [0, 1]) π := by
  obtain ⟨π, s, hr, hp⟩ := exists_run_of_replay (M := machine (Fin 2) ℕ (fun _ => .file) [0, 1])
    (p := fun (π : List (Taken (World ℕ (Fin 2) ℕ) (Act (Fin 2) ℕ) (Event ℕ))) (_ : World ℕ (Fin 2) ℕ) =>
      decide (Event.returned none ∈ events π ∧ Meets (Timely [0, 1]) π))
    [.resolve, .execute 0, .execute 1, .fail 0, .lock, .store 1 none, .signal 1, .wake, .look, .look, .look, .lock,
      .timeOut, .giveUp] (by decide +kernel)
  obtain ⟨hreturned, hmeets⟩ := of_decide_eq_true hp
  exact ⟨π, s, hr, hreturned, nil_sound hr hmeets⟩

/-- The only resolver is done before the wait begins, and what it found is missed. -/
theorem nil_unsound : ∃ (π : List (Taken (World ℕ (Fin 1) ℕ) (Act (Fin 1) ℕ) (Event ℕ))) (s : World ℕ (Fin 1) ℕ),
    Run (machine (Fin 1) ℕ (fun _ => .naming) [0]) π s ∧ Event.returned none ∈ events π ∧ s.pc = .outside ∧
    s.result_ 0 = some 7 ∧ ¬ Meets (NilSound [0]) π := by
  obtain ⟨π, s, hr, hp⟩ := exists_run_of_replay (M := machine (Fin 1) ℕ (fun _ => .naming) [0])
    (p := fun (π : List (Taken (World ℕ (Fin 1) ℕ) (Act (Fin 1) ℕ) (Event ℕ))) (s : World ℕ (Fin 1) ℕ) =>
      decide (Event.returned none ∈ events π ∧ s.pc = .outside ∧ s.result_ 0 = some 7 ∧ ¬ Meets (NilSound [0]) π))
    [.resolve, .execute 0, .store 0 (some 7), .signal 0, .lock, .timeOut, .giveUp] (by decide +kernel)
  obtain ⟨hreturned, hout, hres, hnot⟩ := of_decide_eq_true hp
  exact ⟨π, s, hr, hreturned, hout, hres, hnot⟩

end Lasagne.Taf.IORResolver
