import Lasagne.Trans.Count
import Lasagne.Daf.TaskExecutor

/-!
# Lasagne.Daf.ThreadCount — the threads of an executor and `thr_count_`

`thr_count_` is raised before `spawn_n`, lowered by as much if that fails, and lowered by one in every
`threadCleanup`.  When `spawn_n` fails after it has started some of its threads, they are not counted.

* `step_tally`: what one step does to the counter and to the number of threads.
* `accurate_iff`: the counter is right in a whole run exactly when no spawn fails halfway.
-/

namespace Lasagne.Daf.TaskExecutor

open Lasagne.Trans

variable {ι R : Type*}

/-! ## Threads -/

/-- A thread that `spawn_n` has started and that has not run `threadCleanup` yet. -/
def Pc.isLive : Pc R → Bool
  | .starting _ _ | .dispatch _ | .polling | .serving | .running | .leaving => true
  | _ => false

@[simp] theorem WorkerTask.run_isLive (task : WorkerTask R) : task.run.isLive = true := by
  cases task <;> rfl

/-- `execute(n_threads, ..)` in which `spawn_n` fails after it has started some threads. -/
def spawnsSome (s : World ι R) : Act ι R → Bool
  | .lock p shut ws =>
    match s.pc p with
    | .groupLock n_threads force_active =>
      (isAvailable s shut).executorAvailable_ && (force_active || s.thr_count_ = 0) &&
        (ws ≠ [] ∧ ws.length ≠ n_threads)
    | _ => false
  | _ => false

section Tally

variable [Fintype ι]

/-- The number of threads of the executor. -/
def live (s : World ι R) : ℕ := count Pc.isLive s.pc

/-- `thr_count_` is right, and no `threadCleanup` takes it below zero. -/
structure Accurate (s : World ι R) : Prop where
  count_eq : s.thr_count_.toNat = live s
  unwrapped : ∀ p, s.pc p = .leaving → s.thr_count_ ≠ 0

/-- What a step does to the counter and to the number of threads; `true` says that a spawn failed halfway. -/
inductive Tally (s s' : World ι R) : Bool → Prop
  | same : live s' = live s → s'.thr_count_ = s.thr_count_ → Tally s s' false
  | spawned {n : ℕ} : live s' = live s + n → s'.thr_count_ = s.thr_count_ + .ofNat n → Tally s s' false
  | halfway {n : ℕ} : 0 < n → live s' = live s + n → s'.thr_count_ = s.thr_count_ → Tally s s' true
  | cleanup : live s' + 1 = live s → s'.thr_count_ = s.thr_count_ - 1 → Tally s s' false

variable [DecidableEq ι] {s s' : World ι R} {es : List (Event ι R)} {p : ι} {a : Act ι R}

/-- One thread moves, and is a thread of the executor before and after, or neither. -/
theorem Tally.one {x : Pc R} (hpc : s'.pc = Function.update s.pc p x) (hx : x.isLive = (s.pc p).isLive)
    (hthr : s'.thr_count_ = s.thr_count_) : Tally s s' false := by
  refine .same ?_ hthr
  have := count_update Pc.isLive s.pc p x
  rw [hx] at this
  unfold live
  rw [hpc]
  omega

omit [DecidableEq ι] in
theorem Tally.of_isAvailable {shut b : Bool} (h : Tally (isAvailable s shut) s' b) : Tally s s' b := by
  cases h with
  | same h1 h2 => exact .same h1 h2
  | spawned h1 h2 => exact .spawned h1 h2
  | halfway h1 h2 h3 => exact .halfway h1 h2 h3
  | cleanup h1 h2 => exact .cleanup h1 h2

/-- `spawn_n` starts `ws`, and its caller `p`, which is no thread of the executor, goes on to `x`. -/
theorem live_spawn_n {n : ℕ} (task : WorkerTask R) {ws : List ι} {x : Pc R}
    (hcan : canSpawn s n ws = true) (hp : (s.pc p).isLive = false) (hidle : s.pc p ≠ .idle)
    (hx : x.isLive = false) : live ((spawn_n s n task ws).goto p x) = live s + ws.length := by
  simp only [canSpawn, decide_eq_true_eq, List.all_eq_true] at hcan
  obtain ⟨-, hnodup, hws⟩ := hcan
  have hfree : ∀ w ∈ ws, s.pc w = .idle := by
    intro w hw
    have := hws w hw
    split at this
    · assumption
    · cases this
  have hpw : p ∉ ws := fun hw => hidle (hfree p hw)
  have hspawn := count_ite_mem (p := Pc.isLive) (f := s.pc) (g := fun _ => .starting s.tasks task) hnodup
    (fun _ _ => rfl) fun w hw => by rw [hfree w hw]; rfl
  have hgo := count_update Pc.isLive (spawn_n s n task ws).pc p x
  rw [show (spawn_n s n task ws).pc p = s.pc p by simp [spawn_n, hpw], hp, hx] at hgo
  exact (Nat.add_right_cancel hgo).trans hspawn

/-! ## Steps -/

theorem execute_tally {command : Option R} (hp : s.pc p = .idle)
    (hs : execute s p command = some (s', es)) : Tally s s' false := by
  unfold execute at hs
  dsimp only at hs
  split_ifs at hs
  · cases command with
    | none =>
      obtain ⟨rfl, -⟩ := by simpa using hs
      exact .same rfl rfl
    | some c =>
      simp only [Option.map_eq_some_iff, Prod.mk.injEq] at hs
      obtain ⟨-, -, rfl, -⟩ := hs
      exact .one rfl (by rw [hp]; rfl) rfl
  · obtain ⟨rfl, -⟩ := by simpa using hs
    exact .same rfl rfl

omit [Fintype ι] [DecidableEq ι] in
/-- An offer is no thread of the executor, whatever it ends with. -/
theorem offerEnds_isLive {k : ℕ} {c : R} (ds : List (SynchronousChannel.Event (Ref R))) :
    ((ds.findSome? (offerEnds (ι := ι) k c)).getD (.offering k c, [])).1.isLive = false := by
  cases hf : ds.findSome? (offerEnds (ι := ι) k c) with
  | none => rfl
  | some y =>
    obtain ⟨e, -, he⟩ := List.exists_of_findSome?_eq_some hf
    cases e <;> simp only [offerEnds, Option.some.injEq, reduceCtorEq] at he <;> rw [← he] <;> rfl

omit [Fintype ι] [DecidableEq ι] in
/-- A worker stays one, whatever its poll ends with. -/
theorem pollEnds_isLive (ds : List (SynchronousChannel.Event (Ref R))) :
    ((ds.findSome? pollEnds).getD .polling).isLive = true := by
  cases hf : ds.findSome? pollEnds with
  | none => rfl
  | some y =>
    obtain ⟨e, -, he⟩ := List.exists_of_findSome?_eq_some hf
    cases e <;> simp only [pollEnds, Option.some.injEq, reduceCtorEq] at he <;> rw [← he] <;> rfl

theorem channel_tally {b : SynchronousChannel.Act ι (Ref R)} (hs : channel s p b = some (s', es)) :
    Tally s s' false := by
  unfold channel at hs
  split at hs
  · next k c hp =>
    simp only [Option.map_eq_some_iff, Prod.mk.injEq] at hs
    obtain ⟨r, -, rfl, -⟩ := hs
    exact .one rfl (by rw [hp]; exact offerEnds_isLive r.2) rfl
  · next hp =>
    simp only [Option.map_eq_some_iff, Prod.mk.injEq] at hs
    obtain ⟨r, -, rfl, -⟩ := hs
    exact .one rfl (by rw [hp]; exact pollEnds_isLive r.2) rfl
  · cases hs

theorem task_dispatch_tally {command : Ref R} (hp : s.pc p = .dispatch command)
    (hs : task_dispatch s p command = some (s', es)) : Tally s s' false := by
  unfold task_dispatch at hs
  split_ifs at hs
  · cases command with
    | none =>
      simp only [Option.map_eq_some_iff, Prod.mk.injEq] at hs
      obtain ⟨-, -, rfl, -⟩ := hs
      exact .one rfl (by rw [hp]; rfl) rfl
    | some kc =>
      obtain ⟨rfl, -⟩ := by simpa using hs
      exact .one rfl (by rw [hp]; rfl) rfl
  · obtain ⟨rfl, -⟩ := by simpa using hs
    exact .one rfl (by rw [hp]; rfl) rfl

/-- `spawn_n` starts all threads or none. -/
theorem spawn_n_tally {n : ℕ} {task : WorkerTask R} {ws : List ι} {x : Pc R} (hcan : canSpawn s n ws = true)
    (hp : (s.pc p).isLive = false) (hidle : s.pc p ≠ .idle) (hx : x.isLive = false)
    (hall : ws = [] ∨ ws.length = n) : Tally s ((spawn_n s n task ws).goto p x) false := by
  have hlive := live_spawn_n task hcan hp hidle hx
  by_cases hn : ws.length = n
  · rw [hn] at hlive
    exact .spawned hlive (by simp [World.goto, spawn_n, hn])
  · obtain rfl := hall.resolve_right hn
    refine .same hlive ?_
    simp only [World.goto, spawn_n, if_neg hn, UInt64.add_sub_cancel]

theorem task_handOff_tally {k : ℕ} {c : R} {ws : List ι} (hp : s.pc p = .handLock k c)
    (hs : task_handOff s p k c ws = some (s', es)) : Tally s s' false := by
  have hlive : (s.pc p).isLive = false := by rw [hp]; rfl
  have hidle : s.pc p ≠ .idle := by rw [hp]; simp
  unfold task_handOff at hs
  dsimp only at hs
  split_ifs at hs with hav hcan hone
  · obtain ⟨rfl, -⟩ := by simpa using hs
    exact spawn_n_tally hcan hlive hidle rfl (Or.inr hone)
  · obtain ⟨rfl, -⟩ := by simpa using hs
    have hle : ws.length ≤ 1 := by
      simp only [canSpawn, decide_eq_true_eq] at hcan
      exact hcan.1
    exact spawn_n_tally hcan hlive hidle rfl (Or.inl (List.length_eq_zero_iff.mp (by omega)))
  · obtain ⟨rfl, -⟩ := by simpa using hs
    exact .one rfl (by rw [hp]; rfl) rfl

theorem execute_n_tally {n : ℕ} {force_active shut : Bool} {ws : List ι}
    (hp : s.pc p = .groupLock n force_active)
    (hs : execute_n (isAvailable s shut) p n force_active ws = some (s', es)) :
    Tally s s' (spawnsSome s (.lock p shut ws)) := by
  have hlive : (s.pc p).isLive = false := by rw [hp]; rfl
  have hidle : s.pc p ≠ .idle := by rw [hp]; simp
  unfold execute_n at hs
  dsimp only at hs
  split_ifs at hs with hno hcan hall
  · obtain ⟨rfl, -⟩ := by simpa using hs
    rw [show spawnsSome s (.lock p shut ws) = false by
      rcases hno with hno | ⟨hforce, hthr⟩
      · simp [spawnsSome, hp, hno]
      · have hthr : s.thr_count_ ≠ 0 := hthr
        simp [spawnsSome, hp, hforce, hthr]]
    exact .one rfl (by rw [hp]; rfl) rfl
  · obtain ⟨rfl, -⟩ := by simpa using hs
    rw [show spawnsSome s (.lock p shut ws) = false by simp [spawnsSome, hp, hall]]
    exact (spawn_n_tally (s := isAvailable s shut) hcan hlive hidle rfl (Or.inr hall)).of_isAvailable
  · obtain ⟨rfl, -⟩ := by simpa using hs
    by_cases hnil : ws = []
    · rw [show spawnsSome s (.lock p shut ws) = false by simp [spawnsSome, hp, hnil]]
      exact (spawn_n_tally (s := isAvailable s shut) hcan hlive hidle rfl (Or.inl hnil)).of_isAvailable
    · -- the threads that were started are there, and `thr_count_` is what it was
      rw [show spawnsSome s (.lock p shut ws) = true by
        obtain ⟨hav, hthr⟩ := not_or.mp hno
        have hav : (isAvailable s shut).executorAvailable_ = true := by simpa using hav
        have hthr : force_active = false → s.thr_count_ = 0 := fun h => by
          by_contra hne
          exact hthr ⟨h, hne⟩
        cases force_active <;> simp_all [spawnsSome]]
      have hcount := live_spawn_n (s := isAvailable s shut) (x := .idle) .svc hcan hlive hidle rfl
      refine .halfway (List.length_pos_iff.mpr hnil) hcount ?_
      simp [World.goto, spawn_n, hall, isAvailable]

theorem module_closed_tally (hs : module_closed s p = some (s', es)) : Tally s s' false := by
  unfold module_closed at hs
  split at hs
  · next hp =>
    obtain ⟨rfl, -⟩ := by simpa using hs
    exact .one rfl (by rw [hp]; rfl) rfl
  · next hp =>
    obtain ⟨rfl, -⟩ := by simpa using hs
    exact .one rfl (by rw [hp]; split_ifs <;> rfl) rfl
  · next hp =>
    obtain ⟨rfl, -⟩ := by simpa using hs
    exact .one rfl (by rw [hp]; rfl) rfl
  · next hp =>
    simp only [Option.map_eq_some_iff, Prod.mk.injEq] at hs
    obtain ⟨-, -, rfl, -⟩ := hs
    exact .one rfl (by rw [hp]; rfl) rfl
  · next hp =>
    split_ifs at hs
    obtain ⟨rfl, -⟩ := by simpa using hs
    exact .one rfl (by rw [hp]; rfl) rfl
  · cases hs

theorem next_tally {shut : Bool} (hs : next s p shut = some (s', es)) : Tally s s' false := by
  unfold next at hs
  split at hs
  · next k c hp =>
    dsimp only at hs
    split_ifs at hs <;> obtain ⟨rfl, -⟩ := by simpa using hs
    all_goals exact .one (s := s) rfl (by rw [hp]; rfl) rfl
  · next k tp hp =>
    split_ifs at hs
    cases k with
    | some k =>
      obtain ⟨rfl, -⟩ := by simpa using hs
      exact .one rfl (by rw [hp]; rfl) rfl
    | none =>
      obtain ⟨rfl, -⟩ := by simpa using hs
      exact .one rfl (by rw [hp]; rfl) rfl
  · next tp task hp =>
    obtain ⟨rfl, -⟩ := by simpa using hs
    exact .one rfl (by rw [hp, task.run_isLive]; rfl) rfl
  · next command hp => exact (task_dispatch_tally (s := isAvailable s shut) hp hs).of_isAvailable
  · next hp =>
    obtain ⟨rfl, -⟩ := by simpa using hs
    exact .one rfl (by rw [hp]; rfl) rfl
  · next hp =>
    obtain ⟨rfl, -⟩ := by simpa using hs
    exact .one rfl (by rw [hp]; rfl) rfl
  · next hp =>
    obtain ⟨rfl, -⟩ := by simpa using hs
    have hone := count_update Pc.isLive s.pc p .exited
    rw [hp] at hone
    exact .cleanup hone rfl
  · cases hs

/-- Every step is one of the four. -/
theorem step_tally (hs : step s a = some (s', es)) : Tally s s' (spawnsSome s a) := by
  cases a with
  | execute p command shut =>
    simp only [step] at hs
    split at hs
    · next hp => exact (execute_tally (s := isAvailable s shut) hp hs).of_isAvailable
    · cases hs
  | execute_n p n force shut =>
    simp only [step] at hs
    split at hs
    · next hp =>
      split_ifs at hs <;> obtain ⟨rfl, -⟩ := by simpa using hs
      · exact .same rfl rfl
      · exact .one rfl (by rw [hp]; rfl) rfl
      · exact .same rfl rfl
    · cases hs
  | module_closed p => exact module_closed_tally hs
  | run p shut => exact next_tally hs
  | channel p r =>
    cases r with
    | none => exact channel_tally hs
    | some r => exact channel_tally hs
  | lock p shut ws =>
    simp only [step] at hs
    split at hs
    · next hp =>
      rw [show spawnsSome s (.lock p shut ws) = false by simp [spawnsSome, hp]]
      exact (task_handOff_tally (s := isAvailable s shut) hp hs).of_isAvailable
    · next hp => exact execute_n_tally hp hs
    · cases hs
  | throws p =>
    simp only [step] at hs
    split at hs
    · next hp =>
      obtain ⟨rfl, -⟩ := by simpa using hs
      exact .one rfl (by rw [hp]; rfl) rfl
    · next hp =>
      obtain ⟨rfl, -⟩ := by simpa using hs
      exact .one rfl (by rw [hp]; rfl) rfl
    · next hp =>
      obtain ⟨rfl, -⟩ := by simpa using hs
      exact .one rfl (by rw [hp]; rfl) rfl
    · cases hs

/-! ## Runs -/

omit [DecidableEq ι] in
theorem Accurate.of_count (h : s.thr_count_.toNat = live s) : Accurate s := by
  refine ⟨h, fun p hp hzero => ?_⟩
  have hpos : 0 < live s := count_pos (i := p) (by rw [hp]; rfl)
  rw [hzero] at h
  simp at h
  omega

omit [DecidableEq ι] in
/-- Where there is room in a `size_t`, a step keeps the counter right exactly if no spawn fails halfway. -/
theorem Tally.accurate {b : Bool} (h : Tally s s' b) (hs : Accurate s) :
    Accurate s' ↔ b = false ∧ live s' < 2 ^ 64 := by
  have hcount := hs.count_eq
  have hlt := s'.thr_count_.toNat_lt
  constructor
  · intro hs'
    have hcount' := hs'.count_eq
    refine ⟨?_, by omega⟩
    cases h with
    | same | spawned | cleanup => rfl
    | halfway hpos hlive hthr =>
      rw [hthr] at hcount'
      omega
  · rintro ⟨rfl, hroom⟩
    refine .of_count ?_
    cases h with
    | same hlive hthr => rw [hthr, hlive, hcount]
    | @spawned n hlive hthr =>
      rw [hthr, UInt64.toNat_add, hcount, UInt64.toNat_ofNat']
      omega
    | cleanup hlive hthr =>
      rw [hthr, UInt64.toNat_sub, hcount]
      simp only [UInt64.toNat_one]
      omega

variable {π : List (Taken (World ι R) (Act ι R) (Event ι R))}

/-- **Thread count.**  Through a whole run `thr_count_` is the number of threads of the executor, exactly when
no `spawn_n` fails after it has started some of its threads and there are never `2 ^ 64` of them. -/
theorem accurate_iff (hr : Run machine π s) :
    ((∀ x ∈ π, Accurate x.pre) ∧ Accurate s) ↔
      Meets (fun s a => spawnsSome s a = false) π ∧ (∀ x ∈ π, live x.pre < 2 ^ 64) ∧ live s < 2 ^ 64 := by
  induction hr with
  | start =>
    have hlive : live (machine : Machine (World ι R) (Act ι R) (Event ι R)).init = 0 :=
      count_eq_zero.mpr fun _ => rfl
    have hinit : Accurate (machine : Machine (World ι R) (Act ι R) (Event ι R)).init :=
      .of_count (by rw [hlive]; rfl)
    simp [hinit, hlive]
  | @snoc π s s' a es hr hstep ih =>
    have hstate : ∀ P : World ι R → Prop,
        (∀ x ∈ π ++ [(⟨s, a, es⟩ : Taken (World ι R) (Act ι R) (Event ι R))], P x.pre) ↔
          (∀ x ∈ π, P x.pre) ∧ P s := by
      simp [or_imp, forall_and]
    rw [hstate, hstate (fun s => live s < 2 ^ 64), meets_snoc, ih]
    constructor
    · rintro ⟨⟨hπ, hroom, hlt⟩, hs'⟩
      have hs := (ih.mpr ⟨hπ, hroom, hlt⟩).2
      obtain ⟨hnot, hlt'⟩ := ((step_tally hstep).accurate hs).mp hs'
      exact ⟨⟨hπ, hnot⟩, ⟨hroom, hlt⟩, hlt'⟩
    · rintro ⟨⟨hπ, hnot⟩, ⟨hroom, hlt⟩, hlt'⟩
      have hs := (ih.mpr ⟨hπ, hroom, hlt⟩).2
      exact ⟨⟨hπ, hroom, hlt⟩, ((step_tally hstep).accurate hs).mpr ⟨hnot, hlt'⟩⟩

/-- Two threads are started as a group.  One leaves and another one is started; a group that is refused and a
spawn that starts nobody change nothing. -/
theorem accurate_iff_four :
    ∃ (π : _) (s : World (Fin 4) ℕ), Run machine π s ∧ live s = 2 ∧
      (∀ x ∈ π, Accurate x.pre) ∧ Accurate s := by
  obtain ⟨π, s, hr, hp⟩ := exists_run_of_replay (M := machine)
    (p := fun π s => decide (live s = 2 ∧
      Meets (fun s (a : Act (Fin 4) ℕ) => spawnsSome s a = false) π ∧ ∀ x ∈ π, live x.pre < 3))
    [.execute_n (0 : Fin 4) 2 false false, .lock 0 false [1, 2], .run 1 false, .run 2 false, .run 0 false,
      .execute_n 0 1 false false, .lock 0 false [], .execute_n 0 1 true false, .lock 0 false [],
      .run 1 false, .run 1 false, .execute_n 0 1 true false, .lock 0 false [3]] (by decide)
  obtain ⟨hlive, hC, hroom⟩ := of_decide_eq_true hp
  have hlt : ∀ x ∈ π, live x.pre < 2 ^ 64 := fun x hx => (hroom x hx).trans (by decide)
  exact ⟨π, s, hr, hlive, (accurate_iff hr).mpr ⟨hC, hlt, by omega⟩⟩

/-- One of two threads is started and the other cannot be: nothing is counted, and when the thread leaves the
counter goes below zero. -/
theorem inaccurate_two :
    ¬ ∀ (π : _) (s : World (Fin 2) ℕ), Run machine π s → Accurate s := by
  intro h
  obtain ⟨π, s, hr, hp⟩ := exists_run_of_replay (M := machine)
    (p := fun _ (s : World (Fin 2) ℕ) => decide (s.thr_count_ = 0 - 1 ∧ live s = 0))
    [.execute_n (0 : Fin 2) 2 false false, .lock 0 false [1], .run 1 false, .run 1 false,
      .run 1 false] (by decide)
  obtain ⟨hthr, hlive⟩ := of_decide_eq_true hp
  have hcount := (h π s hr).count_eq
  rw [hthr, hlive] at hcount
  revert hcount
  decide

end Tally

end Lasagne.Daf.TaskExecutor
