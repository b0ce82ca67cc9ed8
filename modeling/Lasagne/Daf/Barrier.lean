import Lasagne.Daf.PartyCycle
import Lasagne.Daf.PartyReset

/-!
# Lasagne.Daf.Barrier — `DAF::Barrier`

`barrier()` and `barrier(msecs)` run the same sections; the timed one also looks at the clock before
it waits, and its wait at the gate may fail.  The barrier command is run with the monitor locked.

* `accounting_iff`: where no command throws and nobody calls `waitReset`, `resets_` is the number of
  threads inside exactly as long as no thread enters a broken cycle.  With three parties one can: the
  thread that timed out has left, the gate still has a permit, and `resets_ = ++count_` counts the
  leaver again.
* `agreement`: in a cycle in which some call returned, all parties entered, then the command ran, then
  the parties left, and those that returned did so with distinct indices.
* `recovery_iff`: with untimed calls, an empty barrier is as new, unless a command throws in a barrier
  of one party; its thread is the only one, and the handler does not run the reset block.
-/

namespace Lasagne.Daf

open Lasagne.Trans

/-- The fields of `DAF::Barrier`, but for `barrierCommand_`, which its sections take as `cmd`. -/
abbrev Barrier := Core

/-- `Runnable::run` of a command: the `int` it returns, or `none` where it throws. -/
abbrev Command (Ω : Type*) := Ω → Option ℤ

/-- How the `while` loop of an entrant ends. -/
inductive Loop (Obj : Type*) where
  /-- in `this->wait` -/
  | wait (o : Obj)
  /-- with `broken_` or `triggered_` set -/
  | done (timeout : Bool) (ran : Option Bool) (o : Obj)
  /-- in the handler of the exception -/
  | threw (o : Obj)

namespace Barrier

variable {Ω : Type*} (cmd : Option (Command Ω))

/-- `Barrier::Barrier(parties, command)`, which throws for no parties. -/
def new (parties : ℕ) : Option Barrier := if parties = 0 then none else some (Core.new parties)

/-- `while (!(broken_ || triggered_)) try { ... } catch (...) { ... }`.  Every round that does not
wait ends the loop.  `expired` is `end_time <= gettimeofday()`, never so in the untimed call. -/
def loop (expired : Bool) (ω : Ω) (b : Barrier) : Loop Barrier :=
  if b.broken_ || b.triggered_ then .done false none b
  else if b.shutdown_ then .done false none { b with broken_ := true }
  else if b.count_ ≠ b.parties_ then
    if expired then .done true none { b with broken_ := true } else .wait b
  else
    match cmd with
    | none => .done false none { b with triggered_ := true }
    | some run =>
      match run ω with
      | some _ => .done false (some true) { b with triggered_ := true }
      | none => .threw { b with broken_ := true, resets_ := b.resets_ - 1 }

/-- From the loop to the end of `barrier`, for the thread with this `index`. -/
def finish (b : Barrier) (expired : Bool) (ω : Ω) (_ : Unit) (index : ℕ) : Section Barrier ℤ :=
  match loop cmd expired ω b with
  | .wait b => ⟨b, none, none⟩
  | .threw b => ⟨b, some false, some (.exn .foreign)⟩
  | .done timeout ran b =>
    ⟨b.leave, ran, some (
      if timeout then .exn .timeout
      else if b.shutdown_ then .exn .illegalThreadState
      else if b.broken_ then .exn .brokenBarrier
      else .value (toInt index))⟩

/-- `DAF::Barrier` as a party; a call presents nothing. -/
def party : Party Unit ℤ Barrier Ω where
  core := id
  setGate b g := { b with entryGate_ := g }
  enter b _ := .ok b.enter
  finish := finish cmd
  busy b := b.count_ > 0
  breakUp b := { b with broken_ := true }
  resetShutdown := id

/-- Any number of threads calling a barrier of `parties` threads. -/
def machine {ι : Type*} [DecidableEq ι] (parties : ℕ) :
    Machine (World ι Unit Barrier) (Act ι Unit Ω) (Event ι Unit ℤ) :=
  (party cmd).machine (Core.new parties)

/-- The command can throw. -/
def CanThrow : Prop := ∃ run, cmd = some run ∧ ∃ ω, run ω = none

theorem lawful : (party cmd).Lawful cmd.isSome 0 (CanThrow cmd) where
  core_setGate _ _ := rfl
  setGate_self _ := rfl
  core_breakUp _ := rfl
  core_enter _ _ _ := ⟨_, rfl, rfl⟩
  core_finish := by
    intro b expired ω arg i hsd
    change b.shutdown_ = false at hsd
    simp only [party, id]
    unfold finish loop
    simp only [hsd, Bool.false_eq_true, if_false]
    by_cases hbt : (b.broken_ || b.triggered_) = true
    · have hd : Finished cmd.isSome 0 (CanThrow cmd) expired b none (some !b.broken_) b.leave := by
        simpa only [Bool.or_false] using Finished.drain false hbt
      rw [if_pos hbt]
      cases hb : b.broken_ <;> simpa [hb, hsd, Exit.isValue] using hd
    · obtain ⟨hb, ht⟩ : b.broken_ = false ∧ b.triggered_ = false := by simpa using hbt
      by_cases hc : b.count_ = b.parties_
      · have htrip : Finished cmd.isSome 0 (CanThrow cmd) expired b _ _ _ := .trip false hb ht hc
        cases hcmd : cmd with
        | none => simp_all [Exit.isValue]
        | some run =>
          cases hrun : run ω with
          | some v => simp_all [Exit.isValue]
          | none =>
            have habort : Finished cmd.isSome 0 (CanThrow cmd) expired b _ _ _ :=
              .abort ⟨run, hcmd, ω, hrun⟩ hb ht hc
            simp_all [Exit.isValue]
      · cases hx : expired with
        | true =>
          have hexp : Finished cmd.isSome 0 (CanThrow cmd) expired b _ _ _ := .expire hb ht hc hx
          simp_all [Exit.isValue]
        | false =>
          have hwait : Finished cmd.isSome 0 (CanThrow cmd) expired b _ _ _ := .wait hb ht hc
          simp_all

theorem vacates : (party cmd).Vacates where
  busy_setGate _ _ := rfl
  busy_breakUp _ := rfl
  busy_finish b expired ω arg i hsd hne := by
    have h0 := ((lawful cmd).core_finish b expired ω arg i hsd).count_eq_zero hne
    change (finish cmd b expired ω arg i).obj.count_ = 0 at h0
    change decide ((finish cmd b expired ω arg i).obj.count_ > 0) = false
    simpa using h0

/-! ## Accounting -/

section Accounting

variable {ι : Type*} [Fintype ι] [DecidableEq ι] {cmd} {parties : ℕ} {s : World ι Unit Barrier}
  {π : List (Taken (World ι Unit Barrier) (Act ι Unit Ω) (Event ι Unit ℤ))}

/-- `resets_` is the number of threads past the `count_` increment that have not left, and a barrier
with no thread inside is as new. -/
def Accounted (parties : ℕ) (s : World ι Unit Barrier) : Prop :=
  s.obj.resets_ = count Pc.isInside s.pc ∧ (s.Empty → s.obj.AsNew parties)

/-- **Accounting.**  With commands that do not throw, timed and untimed calls and no `waitReset`, a
state is accounted for exactly when no thread on the way there passed the `count_` increment while
`broken_` was set (and `parties` is an `int`, where the gate has to hold that many permits). -/
theorem accounting_iff (hcmd : ¬ CanThrow cmd) (hr : Run (machine cmd parties) π s)
    (hC : Meets (fun _ a => a.noReset) π) :
    Accounted parties s ↔
      Meets (fun s a => (party cmd).unbroken s a) π ∧ (s.Empty → parties < 2 ^ 31) := by
  constructor
  · rintro ⟨hres, hnew⟩
    have hgood : Meets (fun s a => (party cmd).unbroken s a) π := by
      by_contra hbad
      have hstuck := Party.run_stuck (lawful cmd) rfl hr hC hbad
      exact absurd hres (Nat.ne_of_gt hstuck)
    refine ⟨hgood, fun he => ?_⟩
    have hclean := Party.run_clean (lawful cmd) rfl hcmd hr fun x hx => ⟨hC x hx, hgood x hx⟩
    exact ((Party.asNew_iff (lawful cmd) (Nat.zero_le 1) rfl hr hclean he).mp (hnew he)).2
  · rintro ⟨hgood, hpar⟩
    have hclean := Party.run_clean (lawful cmd) rfl hcmd hr fun x hx => ⟨hC x hx, hgood x hx⟩
    refine ⟨hclean.exact, fun he => ?_⟩
    exact (Party.asNew_iff (lawful cmd) (Nat.zero_le 1) rfl hr hclean he).mpr
      ⟨Nat.zero_mul _, hpar he⟩

/-- Two threads meet at a barrier of two and both leave: the hypotheses and both sides hold. -/
theorem accounting_iff_two :
    ∃ (π : _) (s : World (Fin 2) Unit Barrier), Run (machine (none : Option (Command Unit)) 2) π s ∧
      π ≠ [] ∧ Accounted 2 s := by
  obtain ⟨π, s, hr, hp⟩ := exists_run_of_replay (M := machine (none : Option (Command Unit)) 2)
    (p := fun π s => decide (π ≠ [] ∧ Meets (fun _ (a : Act (Fin 2) Unit Unit) => a.noReset) π ∧
      Meets (fun s a => (party (none : Option (Command Unit))).unbroken s a) π))
    [.call (0 : Fin 2) false (), .call 1 true (), .acquire 0, .acquire 1, .enter 0 false (),
      .enter 1 false (), .wake 0 false ()] (by decide)
  obtain ⟨hne, hC, hgood⟩ := of_decide_eq_true hp
  exact ⟨π, s, hr, hne,
    (accounting_iff (by simp [CanThrow]) hr hC).mpr ⟨hgood, fun _ => by decide⟩⟩

/-- Three parties: thread 0 times out and leaves, thread 2 enters before thread 1 has left.  All three
leave, `resets_` stays at one and the gate stays shut. -/
theorem accounting_fails_three :
    ¬ ∀ (π : _) (s : World (Fin 3) Unit Barrier), Run (machine (none : Option (Command Unit)) 3) π s →
      Meets (fun _ a => a.noReset) π → Accounted 3 s := by
  intro h
  obtain ⟨π, s, hr, hp⟩ := exists_run_of_replay (M := machine (none : Option (Command Unit)) 3)
    (p := fun π s => decide (Meets (fun _ (a : Act (Fin 3) Unit Unit) => a.noReset) π ∧
      s.obj.resets_ = 1 ∧ count Pc.isInside s.pc = 0))
    [.call (0 : Fin 3) true (), .call 1 false (), .call 2 false (), .acquire 0, .acquire 1, .acquire 2,
      .enter 0 false (), .enter 1 false (), .wake 0 true (), .enter 2 false (), .wake 1 false ()]
    (by decide)
  obtain ⟨hC, h1, h0⟩ := of_decide_eq_true hp
  have hacc := (h π s hr hC).1
  omega

end Accounting

/-! ## Agreement -/

section Agreement

variable {ι : Type*} [Fintype ι] [DecidableEq ι] {cmd} {parties : ℕ} {s : World ι Unit Barrier}
  {π : List (Taken (World ι Unit Barrier) (Act ι Unit Ω) (Event ι Unit ℤ))}

/-- What the calls returned. -/
def returned {ι : Type*} (es : List (Event ι Unit ℤ)) : List ℤ :=
  (leavers es).filterMap fun l => l.2.2.value?

/-- The events of a cycle on which all parties agree: they enter, the command (if there is one) runs
once and to its end, and they leave. -/
structure Agreed (command : Bool) (parties c : ℕ) (es : List (Event ι Unit ℤ)) : Prop where
  events : es = entries c (entrants es) ++ commandRun command c ++ departures c (leavers es)
  entered : (entrants es).length = parties
  threads : ((entrants es).map Prod.fst).Nodup
  distinct : (returned es).Nodup
  range : ∀ v ∈ returned es, 0 ≤ v ∧ v < parties

omit [Fintype ι] [DecidableEq ι] in
/-- A value is returned with `triggered_` set, which it is in a full barrier. -/
theorem finish_value {b : Barrier} {expired : Bool} {ω : Ω} {u : Unit} {i : ℕ} {v : ℤ}
    (h : (finish cmd b expired ω u i).exit = some (.value v)) :
    v = toInt i ∧ (b.triggered_ = true ∨ b.count_ = b.parties_) := by
  unfold finish at h
  cases hl : loop cmd expired ω b with
  | wait b' => simp [hl] at h
  | threw b' => simp [hl] at h
  | done timeout ran b' =>
    simp only [hl, Option.some.injEq] at h
    split_ifs at h with _ _ hb
    refine ⟨(Exit.value.inj h).symm, ?_⟩
    unfold loop at hl
    split_ifs at hl with hbt
    · obtain ⟨-, -, rfl⟩ := Loop.done.inj hl
      simp_all
    · obtain ⟨-, -, rfl⟩ := Loop.done.inj hl
      simp at hb
    · obtain ⟨-, -, rfl⟩ := Loop.done.inj hl
      simp at hb
    · simp_all

/-- A call that returns does so with its index, and only where `parties` is an `int`. -/
theorem run_returns (hr : Run (machine cmd parties) π s) {c : ℕ} {t : ι} {i : ℕ} {v : ℤ}
    (h : .left c t i (.value v) ∈ events π) : v = toInt i ∧ parties < 2 ^ 31 := by
  revert h c t i v
  refine (Party.inv_of_moves (D := fun _ _ => True) (lawful cmd) rfl
    (I := fun tr s => ((party cmd).account s).Sound parties (0 * Party.aborts tr) ∧
      ∀ {c : ℕ} {t : ι} {i : ℕ} {v : ℤ}, .left c t i (.value v) ∈ tr → v = toInt i ∧ parties < 2 ^ 31)
    ⟨Party.account_init_of rfl (Account.Sound.new parties), by simp⟩ ?_ hr
    fun _ _ => Party.allowed_true _ _).2
  rintro tr s k es s' - hsd ⟨hS, hI⟩ hm
  rw [Party.aborts_append, Nat.mul_add]
  refine ⟨hS.move (Nat.zero_le 1) (hm.account (lawful cmd) hsd), ?_⟩
  intro c t i v hmem
  rcases List.mem_append.mp hmem with hmem | hmem
  · exact hI hmem
  cases hm with
  | call | pass | enter | broke => simp at hmem
  | quiet _ _ _ _ _ _ _ hes => cases hes _ hmem
  | @finish u timed expired arg =>
    obtain ⟨rfl, rfl, rfl, hex⟩ := Party.mem_afterSection_left.mp hmem
    obtain ⟨hv, hfull⟩ := finish_value (u := arg) hex
    refine ⟨hv, ?_⟩
    have hcount : s.obj.count_ = parties := hfull.elim hS.triggered fun hc => hc.trans hS.parties_eq
    rw [← hcount]
    exact hS.count_lt

/-- **Agreement.**  With any mix of timed and untimed calls and `waitReset`, throwing commands and
broken cycles included, all parties agree on a cycle in which some call returned. -/
theorem agreement (hr : Run (machine cmd parties) π s) {c : ℕ} {t : ι} {i : ℕ} {v : ℤ}
    (h : .left c t i (.value v) ∈ events π) :
    Agreed cmd.isSome parties c (ofCycle c (events π)) := by
  have hT := (Party.run_shape (lawful cmd) (Nat.zero_le 1) rfl hr).tripped h
  have hpar := (run_returns hr h).2
  -- a returned value is the index of a leaver, which is below `parties`
  have hret : ∀ l ∈ leavers (ofCycle c (events π)), ∀ w, l.2.2.value? = some w →
      w = (l.2.1 : ℤ) ∧ l.2.1 < parties := by
    rintro ⟨u, j, r⟩ hl w hw
    obtain rfl : r = .value w := Exit.value?_eq_some.mp hw
    have hlt : j < parties := by
      obtain ⟨p, hp, -⟩ := Option.map_eq_some_iff.mp (hT.seats _ hl)
      rw [← hT.length]
      exact (List.getElem?_eq_some_iff.mp hp).1
    rw [(run_returns hr (mem_leavers_ofCycle.mp hl)).1]
    exact ⟨toInt_eq_iff.mpr (hlt.trans hpar), hlt⟩
  refine ⟨hT.events, hT.length, hT.threads, ?_, ?_⟩
  · unfold returned List.Nodup
    rw [List.pairwise_filterMap]
    refine (List.pairwise_map.mp hT.indices).imp_of_mem ?_
    intro l l' hl hl' hne w hw w' hw'
    have h1 := (hret l hl w hw).1
    have h2 := (hret l' hl' w' hw').1
    omega
  · intro w hw
    obtain ⟨l, hl, hlw⟩ := List.mem_filterMap.mp hw
    obtain ⟨rfl, hlt⟩ := hret l hl w hlw
    omega

/-- A barrier of two with a command; thread 1 has returned, thread 0 is still inside. -/
theorem agreement_two :
    ∃ (π : _) (s : World (Fin 2) Unit Barrier), Run (machine (some fun _ : Unit => some 0) 2) π s ∧
      .left 0 1 1 (.value 1) ∈ events π ∧ Agreed true 2 0 (ofCycle 0 (events π)) := by
  obtain ⟨π, s, hr, hp⟩ := exists_run_of_replay (M := machine (some fun _ : Unit => some 0) 2)
    (p := fun π _ => decide ((Event.left 0 1 1 (.value 1) : Event (Fin 2) Unit ℤ) ∈ events π))
    [.call (0 : Fin 2) false (), .call 1 true (), .acquire 0, .acquire 1, .enter 0 false (),
      .enter 1 false ()] (by decide)
  have hmem := of_decide_eq_true hp
  exact ⟨π, s, hr, hmem, agreement hr hmem⟩

end Agreement

/-! ## Recovery from a throwing command -/

section Recovery

variable {ι : Type*} [Fintype ι] [DecidableEq ι] {cmd} {parties : ℕ}

omit [Fintype ι] in
/-- A barrier of one whose command throws: the thread is gone and nothing has been reset. -/
theorem exists_run_one_throws [Nonempty ι] (hcmd : CanThrow cmd) :
    ∃ (π : _) (s : World ι Unit Barrier), Run (machine cmd 1) π s ∧
      Meets (fun _ a => a.untimed) π ∧ s.Empty ∧ s.obj.count_ = 1 := by
  obtain ⟨run, rfl, ω, hω⟩ := hcmd
  let t : ι := Classical.arbitrary ι
  let s₀ : World ι Unit Barrier := ⟨Core.new 1, fun _ => .idle⟩
  let b₁ : Barrier := { Core.new 1 with entryGate_ := ⟨0, 0⟩ }
  let b₂ : Barrier := { b₁ with count_ := 1, resets_ := 0, broken_ := true }
  have hgate : (Core.new 1).entryGate_.acquire = (⟨0, 0⟩, .acquired) := by decide
  have hfin : finish (some run) (Core.enter b₁) (false && false) ω () 0 =
      ⟨b₂, some false, some (.exn .foreign)⟩ := by
    simp [finish, loop, hω, Core.enter, Core.new, b₁, b₂]
  have h1 : (machine (some run) 1).step s₀ (.call t false ()) =
      some (s₀.goto t (Core.new 1) (.gate false ()), []) := rfl
  have h2 : (machine (some run) 1).step (s₀.goto t (Core.new 1) (.gate false ())) (.acquire t) =
      some (s₀.goto t b₁ (.admitted false ()), []) := by
    simp only [machine, Party.machine, Party.step, World.goto_pc_self]
    change some ((party (some run)).afterGate _ t false () (Core.new 1).entryGate_.acquire) = _
    rw [hgate]
    simp only [Party.afterGate, World.goto_goto]
    rfl
  have h3 : (machine (some run) 1).step (s₀.goto t b₁ (.admitted false ())) (.enter t false ω) =
      some (s₀.goto t b₂ .idle, [.entered 0 t 0 (), .ran 0 false, .left 0 t 0 (.exn .foreign)]) := by
    simp only [machine, Party.machine, Party.step, World.goto_pc_self]
    change some ((Party.afterSection _ 0 t false () 0 (finish (some run) (Core.enter b₁) _ ω () 0)).1,
      _ :: (Party.afterSection _ 0 t false () 0 (finish (some run) (Core.enter b₁) _ ω () 0)).2) = _
    rw [hfin]
    simp only [Party.afterSection, World.goto_goto]
    rfl
  refine ⟨_, _, ((Run.start.snoc h1).snoc h2).snoc h3, ?_, ?_, rfl⟩
  · intro x hx
    simp only [List.nil_append, List.cons_append, List.mem_cons, List.not_mem_nil, or_false] at hx
    rcases hx with rfl | rfl | rfl <;> rfl
  · intro u
    by_cases hu : u = t
    · subst hu
      simp [Pc.isAdmitted, Pc.isInside]
    · rw [World.goto_pc_of_ne _ _ _ _ hu]
      exact ⟨rfl, rfl⟩

/-- **Recovery.**  With untimed calls only, every empty barrier reached is as new exactly when
`parties` is an `int` and the command cannot throw or there is a second party. -/
theorem recovery_iff [Nonempty ι] (hp : 0 < parties) :
    (∀ (π : _) (s : World ι Unit Barrier), Run (machine cmd parties) π s →
      Meets (fun _ a => a.untimed) π → s.Empty → s.obj.AsNew parties) ↔
    parties < 2 ^ 31 ∧ (2 ≤ parties ∨ ¬ CanThrow cmd) := by
  constructor
  · intro h
    have h0 := h [] (machine cmd parties).init .start (by simp) fun t => ⟨rfl, rfl⟩
    have hperm : toInt parties = parties := by
      simpa only [machine, Party.machine, Core.new] using h0.permits
    refine ⟨toInt_eq_iff.mp hperm, ?_⟩
    by_contra hc
    obtain ⟨hlt, hthrow⟩ : parties < 2 ∧ CanThrow cmd := by simpa [not_or] using hc
    obtain rfl : parties = 1 := by omega
    obtain ⟨π, s, hr, hC, he, hcount⟩ := exists_run_one_throws (ι := ι) hthrow
    have := (h π s hr hC he).count
    omega
  · rintro ⟨hint, hor⟩ π s hr hC he
    have hcalm := Party.run_calm (lawful cmd) (Nat.zero_le 1) rfl hr hC
    have hclean : ((party cmd).account s).Clean := by
      refine hcalm.clean ?_
      rcases hor with h2 | hthrow
      · exact Or.inr h2
      · exact Or.inl (Party.run_aborts (lawful cmd) rfl hthrow hr)
    exact (Party.asNew_iff (lawful cmd) (Nat.zero_le 1) rfl hr hclean he).mpr
      ⟨Nat.zero_mul _, hint⟩

/-- The hypotheses hold for two parties and a command that always throws. -/
theorem recovery_iff_two : CanThrow (some fun _ : Unit => none) ∧
    ∀ (π : _) (s : World (Fin 2) Unit Barrier), Run (machine (some fun _ : Unit => none) 2) π s →
      Meets (fun _ a => a.untimed) π → s.Empty → s.obj.AsNew 2 :=
  ⟨⟨_, rfl, (), rfl⟩, (recovery_iff (by decide)).mpr ⟨by decide, Or.inl (by decide)⟩⟩

/-- One party whose command throws: the barrier is empty and `count_` is one. -/
theorem recovery_fails_one :
    ¬ ∀ (π : _) (s : World (Fin 1) Unit Barrier), Run (machine (some fun _ : Unit => none) 1) π s →
      Meets (fun _ a => a.untimed) π → s.Empty → s.obj.AsNew 1 := by
  intro h
  obtain ⟨π, s, hr, hp⟩ := exists_run_of_replay (M := machine (some fun _ : Unit => none) 1)
    (p := fun π s => decide (Meets (fun _ (a : Act (Fin 1) Unit Unit) => a.untimed) π ∧ s.Empty ∧
      s.obj.count_ = 1))
    [.call (0 : Fin 1) false (), .acquire 0, .enter 0 false ()] (by decide)
  obtain ⟨hC, he, h1⟩ := of_decide_eq_true hp
  have := (h π s hr hC he).count
  omega

end Recovery

end Barrier

end Lasagne.Daf
