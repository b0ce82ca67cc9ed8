import Lasagne.Daf.Barrier

/-!
# Lasagne.Daf.Rendezvous — `DAF::Rendezvous` and `DAF::RendezvousRotator`

A rendezvous is a barrier whose parties put a value each into `slots_`; the last one runs the functor
on the slots, and every party returns with what is then in its own slot.
-/

namespace Lasagne.Daf

open Lasagne.Trans

/-- The fields of `DAF::Rendezvous<T, F>`, but for `fn_`, which its sections take as `fn`. -/
structure Rendezvous (T : Type*) extends Core where
  slots_ : List T
deriving DecidableEq, Repr

/-- A functor on the slots: what it leaves in them, and whether it threw (`error`). -/
abbrev RendezvousCommand (T Ω : Type*) := Ω → List T → Except (List T) (List T)

/-- `RendezvousRotator::operator()`. -/
def rotator {T : Type*} : List T → List T
  | [] => []
  | v :: val => val ++ [v]

namespace Rendezvous

variable {T Ω : Type*} (fn : RendezvousCommand T Ω)

/-- `Rendezvous::Rendezvous(parties, fn)` after its check. -/
def init (parties : ℕ) : Rendezvous T := ⟨Core.new parties, []⟩

/-- `Rendezvous::Rendezvous(parties, fn)`, which throws for no parties. -/
def new (parties : ℕ) : Option (Rendezvous T) := if parties = 0 then none else some (init parties)

/-- `while (!(broken_ || triggered_)) try { ... } catch (...) { ... }`. -/
def loop (expired : Bool) (ω : Ω) (r : Rendezvous T) : Loop (Rendezvous T) :=
  if r.broken_ || r.triggered_ then .done false none r
  else if r.shutdown_ then .done false none { r with broken_ := true }
  else if r.count_ ≠ r.parties_ then
    if expired then .done true none { r with broken_ := true } else .wait r
  else
    match fn ω r.slots_ with
    | .ok slots => .done false (some true) { r with slots_ := slots, triggered_ := true }
    | .error slots =>
      .threw { r with
        slots_ := slots
        resets_ := r.resets_ - 1
        count_ := r.count_ - 1
        broken_ := true }

/-- `if (--this->resets_ == 0) { slots_.clear(); ... }`. -/
def leave (r : Rendezvous T) : Rendezvous T :=
  { toCore := r.toCore.leave, slots_ := if r.resets_ - 1 = 0 then [] else r.slots_ }

/-- `if (index >= slots_.size()) broken_ = true; else t_rtn = slots_[index];`, where `t_rtn` is `t`. -/
def read (r : Rendezvous T) (t : T) (index : ℕ) : Rendezvous T × T :=
  match r.slots_[index]? with
  | none => ({ r with broken_ := true }, t)
  | some t_rtn => (r, t_rtn)

/-- From the end of the loop to the end of `rendezvous`. -/
def out (r : Rendezvous T) (timeout : Bool) (ran : Option Bool) (t : T) (index : ℕ) :
    Section (Rendezvous T) T :=
  let (r, t_rtn) := r.read t index
  ⟨r.leave, ran, some (
    if timeout then .exn .timeout
    else if r.shutdown_ then .exn .illegalThreadState
    else if r.broken_ then .exn .brokenBarrier
    else .value t_rtn)⟩

/-- From the loop to the end of `rendezvous`, for the thread with this `index` that presented `t`. -/
def finish (r : Rendezvous T) (expired : Bool) (ω : Ω) (t : T) (index : ℕ) :
    Section (Rendezvous T) T :=
  match loop fn expired ω r with
  | .wait r => ⟨r, none, none⟩
  | .threw r => ⟨r, some false, some (.exn .foreign)⟩
  | .done timeout ran r => r.out timeout ran t index

/-- `DAF::Rendezvous` as a party; a call presents a value. -/
def party : Party T T (Rendezvous T) Ω where
  core := toCore
  setGate r g := { r with entryGate_ := g }
  enter r t :=
    if r.shutdown_ then .error .illegalThreadState
    else .ok { toCore := r.toCore.enter, slots_ := r.slots_ ++ [t] }
  finish := finish fn
  busy r := r.slots_.length > 0
  breakUp r := { r with broken_ := true }
  resetShutdown r := { r with broken_ := true }

/-- Any number of threads calling a rendezvous of `parties` threads. -/
def machine {ι : Type*} [DecidableEq ι] (parties : ℕ) :
    Machine (World ι T (Rendezvous T)) (Act ι T Ω) (Event ι T T) :=
  (party fn).machine (init parties)

/-- The functor can throw. -/
def CanThrow : Prop := ∃ ω slots slots', fn ω slots = .error slots'

/-- The way out on the fields; `short`: there was no slot to read. -/
theorem out_obj {r : Rendezvous T} (hsd : r.shutdown_ = false) (timeout : Bool) (ran : Option Bool)
    (t : T) (i : ℕ) : ∃ short,
    (r.out timeout ran t i).obj = { r with broken_ := r.broken_ || short }.leave ∧
    (r.out timeout ran t i).exit.map Exit.isValue = some !(timeout || r.broken_ || short) ∧
    (short = true ↔ r.slots_.length ≤ i) := by
  unfold out read
  cases hi : r.slots_[i]? with
  | none =>
    refine ⟨true, ?_, ?_, ?_⟩
    · simp
    · cases timeout <;> simp [hsd, Exit.isValue]
    · simpa using hi
  | some v =>
    refine ⟨false, ?_, ?_, ?_⟩
    · simp
    · cases timeout with
      | true => rfl
      | false => cases hb : r.broken_ <;> simp [hsd, hb, Exit.isValue]
    · simpa using (List.getElem?_eq_some_iff.mp hi).1

/-- A call that returns does so with its slot. -/
theorem out_value {r : Rendezvous T} {timeout : Bool} {ran : Option Bool} {t : T} {i : ℕ} {v : T}
    (h : (r.out timeout ran t i).exit = some (.value v)) : r.slots_[i]? = some v := by
  unfold out read at h
  cases hi : r.slots_[i]? with
  | none =>
    rw [hi] at h
    cases timeout <;> cases hs : r.shutdown_ <;> simp [hs] at h
  | some w =>
    rw [hi] at h
    simp only [Option.some.injEq] at h
    split_ifs at h
    rw [Exit.value.inj h]

/-- What a section of an entrant can do, as long as nobody destroys the rendezvous. -/
theorem finish_cases {r : Rendezvous T} (hsd : r.shutdown_ = false) (expired : Bool) (ω : Ω) (t : T)
    (i : ℕ) :
    ((r.broken_ || r.triggered_) = true ∧ finish fn r expired ω t i = r.out false none t i) ∨
    (r.broken_ = false ∧ r.triggered_ = false ∧ r.count_ ≠ r.parties_ ∧
      finish fn r expired ω t i = ⟨r, none, none⟩) ∨
    (r.broken_ = false ∧ r.triggered_ = false ∧ r.count_ ≠ r.parties_ ∧ expired = true ∧
      finish fn r expired ω t i = { r with broken_ := true }.out true none t i) ∨
    (r.broken_ = false ∧ r.triggered_ = false ∧ r.count_ = r.parties_ ∧
      ∃ slots, fn ω r.slots_ = .ok slots ∧ finish fn r expired ω t i =
        { r with slots_ := slots, triggered_ := true }.out false (some true) t i) ∨
    (r.broken_ = false ∧ r.triggered_ = false ∧ r.count_ = r.parties_ ∧
      ∃ slots, fn ω r.slots_ = .error slots ∧ finish fn r expired ω t i =
        ⟨{ r with slots_ := slots, resets_ := r.resets_ - 1, count_ := r.count_ - 1, broken_ := true },
          some false, some (.exn .foreign)⟩) := by
  have hsd' : ¬ r.shutdown_ = true := by simp [hsd]
  unfold finish loop
  by_cases hbt : (r.broken_ || r.triggered_) = true
  · exact Or.inl ⟨hbt, by rw [if_pos hbt]⟩
  obtain ⟨hb, ht⟩ : r.broken_ = false ∧ r.triggered_ = false := by simpa using hbt
  refine Or.inr ?_
  rw [if_neg hbt, if_neg hsd']
  by_cases hc : r.count_ = r.parties_
  · rw [if_neg (not_not.mpr hc)]
    cases hfn : fn ω r.slots_ with
    | ok slots => exact Or.inr (Or.inr (Or.inl ⟨hb, ht, hc, slots, rfl, rfl⟩))
    | error slots => exact Or.inr (Or.inr (Or.inr ⟨hb, ht, hc, slots, rfl, rfl⟩))
  · rw [if_pos hc]
    cases expired with
    | false => exact Or.inl ⟨hb, ht, hc, rfl⟩
    | true => exact Or.inr (Or.inl ⟨hb, ht, hc, rfl, rfl⟩)

theorem lawful : (party fn).Lawful true 1 (CanThrow fn) where
  core_setGate _ _ := rfl
  setGate_self _ := rfl
  core_breakUp _ := rfl
  core_enter r t hsd := by
    refine ⟨{ toCore := r.toCore.enter, slots_ := r.slots_ ++ [t] }, ?_, rfl⟩
    have h : r.shutdown_ = false := hsd
    simp [party, h]
  core_finish := by
    intro r expired ω t i hsd
    change r.shutdown_ = false at hsd
    simp only [party]
    rcases finish_cases fn hsd expired ω t i with ⟨hbt, hf⟩ | ⟨hb, ht, hc, hf⟩ | ⟨hb, ht, hc, hx, hf⟩ |
      ⟨hb, ht, hc, slots, -, hf⟩ | ⟨hb, ht, hc, slots, hthrow, hf⟩ <;> rw [hf]
    · obtain ⟨short, hobj, hex, -⟩ := out_obj hsd false none t i
      rw [hobj, hex, Bool.false_or]
      exact .drain short hbt
    · exact .wait hb ht hc
    · obtain ⟨short, hobj, hex, -⟩ := out_obj (r := { r with broken_ := true }) hsd true none t i
      rw [hobj, hex]
      exact .expire hb ht hc hx
    · obtain ⟨short, hobj, hex, -⟩ := out_obj (r := { r with slots_ := slots, triggered_ := true })
        hsd false (some true) t i
      rw [hobj, hex]
      simp only [hb, Bool.false_or]
      exact .trip short hb ht hc
    · exact .abort ⟨ω, _, _, hthrow⟩ hb ht hc

/-- The reset block clears the slots. -/
theorem out_slots {r : Rendezvous T} (hsd : r.shutdown_ = false) {timeout : Bool} {ran : Option Bool}
    {t : T} {i : ℕ} (hne : (r.out timeout ran t i).obj.synch_ ≠ r.synch_) :
    (r.out timeout ran t i).obj.slots_ = [] := by
  obtain ⟨short, hobj, -, -⟩ := out_obj hsd timeout ran t i
  rw [hobj] at hne ⊢
  have hl : r.resets_ - 1 = 0 := (Core.leave_count hne).1
  exact if_pos hl

theorem vacates : (party fn).Vacates where
  busy_setGate _ _ := rfl
  busy_breakUp _ := rfl
  busy_finish r expired ω t i hsd hne := by
    change r.shutdown_ = false at hsd
    change (finish fn r expired ω t i).obj.synch_ ≠ r.synch_ at hne
    change decide ((finish fn r expired ω t i).obj.slots_.length > 0) = false
    rcases finish_cases fn hsd expired ω t i with ⟨-, hf⟩ | ⟨-, -, -, hf⟩ | ⟨-, -, -, -, hf⟩ |
      ⟨-, -, -, slots, -, hf⟩ | ⟨-, -, -, slots, -, hf⟩ <;> rw [hf] at hne ⊢
    · rw [out_slots hsd hne]
      rfl
    · exact absurd rfl hne
    · rw [out_slots (r := { r with broken_ := true }) hsd hne]
      rfl
    · rw [out_slots (r := { r with slots_ := slots, triggered_ := true }) hsd hne]
      rfl
    · exact absurd rfl hne

/-! ## The slots -/

section Slots

variable {ι : Type*} {fn}

/-- What was presented, in order. -/
def args (es : List (Event ι T T)) : List T := (entrants es).map Prod.snd

@[simp] theorem args_append (es es' : List (Event ι T T)) : args (es ++ es') = args es ++ args es' := by
  simp [args]

/-- Those that returned did so with what `slots` has at their index. -/
def Yields (slots : List T) (es : List (Event ι T T)) : Prop :=
  ∀ l ∈ leavers es, ∀ v, l.2.2 = .value v → slots[l.2.1]? = some v

theorem Yields.of_noValue {es : List (Event ι T T)} (h : NoValue es) (slots : List T) :
    Yields slots es := by
  intro l hl v hv
  have := h l hl
  rw [hv] at this
  cases this

theorem Yields.append {slots : List T} {es es' : List (Event ι T T)} (h : Yields slots es)
    (h' : Yields slots es') : Yields slots (es ++ es') := by
  intro l hl
  rw [leavers_append, List.mem_append] at hl
  exact hl.elim (h l) (h' l)

/-- The slots hold what was presented until the cycle is triggered, then what the functor made of it,
and that is what the calls return. -/
structure Served (fn : RendezvousCommand T Ω) (tr : List (Event ι T T)) (r : Rendezvous T) : Prop where
  past : ∀ c < r.synch_, NoValue (ofCycle c tr) ∨
    ∃ ω slots, fn ω (args (ofCycle c tr)) = .ok slots ∧ Yields slots (ofCycle c tr)
  gathering : r.broken_ = false → r.triggered_ = false → r.slots_ = args (ofCycle r.synch_ tr)
  draining : r.triggered_ = true →
    (∃ ω, fn ω (args (ofCycle r.synch_ tr)) = .ok r.slots_) ∧ Yields r.slots_ (ofCycle r.synch_ tr)

variable {tr es : List (Event ι T T)} {r q : Rendezvous T}

theorem Served.init (parties : ℕ) : Served fn ([] : List (Event ι T T)) (init parties) where
  past c hc := absurd hc (Nat.not_lt_zero c)
  gathering _ _ := rfl
  draining := nofun

/-- The way out. -/
theorem Served.leave (h : Served fn tr r) (hsy : q.synch_ = r.synch_)
    (hbt : (q.broken_ || q.triggered_) = true) (hes : ∀ e ∈ es, e.cycle = some r.synch_)
    (hnew : ofCycle (r.synch_ + 1) (tr ++ es) = [])
    (htrip : q.triggered_ = true → (∃ ω, fn ω (args (ofCycle r.synch_ tr ++ es)) = .ok q.slots_) ∧
      Yields q.slots_ (ofCycle r.synch_ tr ++ es))
    (hno : q.triggered_ = false → NoValue (ofCycle r.synch_ tr ++ es)) :
    Served fn (tr ++ es) q.leave := by
  have hE : ofCycle r.synch_ (tr ++ es) = ofCycle r.synch_ tr ++ es := by
    rw [ofCycle_append, ofCycle_of_eq hes]
  have hpast : ∀ c < r.synch_, NoValue (ofCycle c (tr ++ es)) ∨ ∃ ω slots,
      fn ω (args (ofCycle c (tr ++ es))) = .ok slots ∧ Yields slots (ofCycle c (tr ++ es)) := by
    intro c hc
    rw [ofCycle_append_other hes hc.ne']
    exact h.past c hc
  unfold Rendezvous.leave
  by_cases hl : q.resets_ - 1 = 0
  · rw [Core.leave_last hl, if_pos hl]
    refine ⟨?_, ?_, nofun⟩ <;> simp only [hsy]
    · intro c hc
      rcases Nat.lt_succ_iff_lt_or_eq.mp hc with hc | rfl
      · exact hpast c hc
      · rw [hE]
        cases ht : q.triggered_ with
        | true => exact Or.inr ⟨_, _, (htrip ht).1.choose_spec, (htrip ht).2⟩
        | false => exact Or.inl (hno ht)
    · intro _ _
      rw [hnew]
      rfl
  · rw [Core.leave_other hl, if_neg hl]
    refine ⟨?_, ?_, ?_⟩ <;> simp only [hsy, hE]
    · exact hpast
    · intro hb ht
      simp [hb, ht] at hbt
    · exact htrip

variable [DecidableEq ι]

/-- The way out, with the look at the slot. -/
theorem Served.out (h : Served fn tr r) (hsy : q.synch_ = r.synch_) (hsd : q.shutdown_ = false)
    (hbt : (q.broken_ || q.triggered_) = true)
    (hbound : ∀ e ∈ tr, ∀ c, e.cycle = some c → c ≤ r.synch_)
    (htrip : q.triggered_ = true → (∃ ω, fn ω (args (ofCycle r.synch_ tr)) = .ok q.slots_) ∧
      Yields q.slots_ (ofCycle r.synch_ tr))
    (hno : q.triggered_ = false → NoValue (ofCycle r.synch_ tr))
    (s : World ι T (Rendezvous T)) (u : ι) (timed timeout : Bool) (ran : Option Bool) (t : T) (i : ℕ) :
    Served fn (tr ++ (Party.afterSection s r.synch_ u timed t i (q.out timeout ran t i)).2)
      (q.out timeout ran t i).obj := by
  obtain ⟨short, hobj, hex, -⟩ := out_obj hsd timeout ran t i
  obtain ⟨x, hx, hval⟩ := Option.map_eq_some_iff.mp hex
  have hcyc := Party.cycle_afterSection s r.synch_ u timed t i (q.out timeout ran t i)
  have hargs : args (Party.afterSection s r.synch_ u timed t i (q.out timeout ran t i)).2 = [] := by
    rw [args, Party.entrants_afterSection, List.map_nil]
  have hleave := Party.leavers_afterSection s r.synch_ u timed t i (q.out timeout ran t i)
  rw [hx] at hleave
  rw [hobj]
  refine h.leave hsy ?_ hcyc ?_ ?_ ?_
  · rcases Bool.or_eq_true _ _ ▸ hbt with hb | ht
    · simp [hb]
    · simp [ht]
  · refine ofCycle_succ_eq_nil fun e he c hc => ?_
    rcases List.mem_append.mp he with he | he
    · exact hbound e he c hc
    · rw [hcyc e he, Option.some.injEq] at hc
      exact hc.ge
  · intro ht
    obtain ⟨hfn, hy⟩ := htrip ht
    rw [args_append, hargs, List.append_nil]
    refine ⟨hfn, hy.append ?_⟩
    intro l hl v hv
    obtain rfl : l = (u, i, x) := by simpa [hleave] using hl
    obtain rfl : x = .value v := hv
    exact out_value hx
  · intro ht
    refine (hno ht).append ?_
    intro l hl
    obtain rfl : l = (u, i, x) := by simpa [hleave] using hl
    have hb : q.broken_ = true := by
      change q.triggered_ = false at ht
      simpa [ht] using hbt
    rw [hval, hb]
    simp

omit [DecidableEq ι] in
/-- Nothing happens in the cycle, but that it may break. -/
theorem Served.outside (h : Served fn tr r) (hes : ∀ e ∈ es, e.cycle = none) {g : Semaphore} {b : Bool}
    (hb : b = false → r.broken_ = false) :
    Served fn (tr ++ es) { r with entryGate_ := g, broken_ := b } := by
  have hE : ∀ c, ofCycle c (tr ++ es) = ofCycle c tr := fun c => ofCycle_append_none hes
  refine ⟨?_, ?_, ?_⟩ <;> simp only [hE]
  · exact h.past
  · exact fun hb' ht => h.gathering (hb hb') ht
  · exact h.draining

omit [DecidableEq ι] in
theorem Served.enter (h : Served fn tr r) (ht : r.triggered_ = false) (u : ι) (t : T) :
    Served fn (tr ++ [.entered r.synch_ u r.count_ t])
      { toCore := r.toCore.enter, slots_ := r.slots_ ++ [t] } := by
  have hes : ∀ e ∈ [(.entered r.synch_ u r.count_ t : Event ι T T)], e.cycle = some r.synch_ := by
    simp [Event.cycle]
  refine ⟨?_, ?_, ?_⟩
  · intro c hc
    rw [ofCycle_append_other hes (Nat.ne_of_gt hc)]
    exact h.past c hc
  · intro hb _
    change r.slots_ ++ [t] = args (ofCycle r.synch_ _)
    rw [h.gathering hb ht, ofCycle_append, ofCycle_of_eq hes, args_append]
    rfl
  · exact fun ht' => absurd (ht.symm.trans ht') Bool.false_ne_true

variable [Fintype ι] {parties lost : ℕ} {s s' : World ι T (Rendezvous T)}

/-- Every move keeps the slots. -/
theorem Served.move (h : Served fn tr s.obj) (hsh : (party fn).Shape true parties tr s)
    (hS : ((party fn).account s).Sound parties lost) (hsd : s.obj.shutdown_ = false) {k : Party.Kind}
    (hm : Party.Move (party fn) s k es s') : Served fn (tr ++ es) s'.obj := by
  have hbound : ∀ e ∈ tr, ∀ c, e.cycle = some c → c ≤ s.obj.synch_ := hsh.bound
  have hno : s.obj.triggered_ = false → NoValue (ofCycle s.obj.synch_ tr) := hsh.noValue
  cases hm with
  | call => exact h.outside (b := s.obj.broken_) (by simp) id
  | quiet _ _ _ _ _ _ _ hes => exact h.outside (b := s.obj.broken_) hes id
  | pass => exact h.outside (b := s.obj.broken_) (by simp) id
  | broke => exact h.outside (b := true) (by simp [Event.cycle]) fun hb => by cases hb
  | @enter t timed arg o hpc ho hc =>
    have ht : s.obj.triggered_ = false := Party.not_triggered hS hpc
    obtain rfl : { toCore := s.obj.toCore.enter, slots_ := s.obj.slots_ ++ [arg] } = o := by
      simpa [party, hsd] using ho
    exact h.enter ht t arg
  | @finish t timed expired arg i ω hpc =>
    change Served fn (tr ++ (Party.afterSection s s.obj.synch_ t timed arg i
      (finish fn s.obj (timed && expired) ω arg i)).2) (finish fn s.obj (timed && expired) ω arg i).obj
    rcases finish_cases fn hsd (timed && expired) ω arg i with ⟨hbt, hf⟩ | ⟨hb, ht, hc, hf⟩ |
      ⟨hb, ht, hc, hx, hf⟩ | ⟨hb, ht, hc, slots, hok, hf⟩ | ⟨hb, ht, hc, slots, hthrow, hf⟩ <;> rw [hf]
    · exact h.out rfl hsd hbt hbound h.draining hno ..
    · simpa [Party.afterSection] using h
    · refine h.out (q := { s.obj with broken_ := true }) rfl hsd rfl hbound ?_ (fun _ => hno ht) ..
      exact fun ht' => absurd (ht.symm.trans ht') Bool.false_ne_true
    · refine h.out (q := { s.obj with slots_ := slots, triggered_ := true }) rfl hsd
        (Bool.or_true _) hbound (fun _ => ?_) (fun ht' => by cases ht') ..
      rw [h.gathering hb ht] at hok
      exact ⟨⟨ω, hok⟩, .of_noValue (hno ht) _⟩
    · have hes := Party.cycle_afterSection s s.obj.synch_ t timed arg i
        (finish fn s.obj (timed && expired) ω arg i)
      rw [hf] at hes
      refine ⟨?_, fun hb' => (by cases hb'), ?_⟩
      · intro c hc
        rw [ofCycle_append_other hes (Nat.ne_of_gt hc)]
        exact h.past c hc
      · exact fun ht' => absurd (ht.symm.trans ht') Bool.false_ne_true

variable {π : List (Taken (World ι T (Rendezvous T)) (Act ι T Ω) (Event ι T T))}

/-- The slots in every run. -/
theorem run_served (hr : Run (machine fn parties) π s) : Served fn (events π) s.obj := by
  refine (Party.inv_of_moves (D := fun _ _ => True) (lawful fn) rfl
    (I := fun tr s => ((party fn).account s).Sound parties (1 * Party.aborts tr) ∧
      (party fn).Shape true parties tr s ∧ Served fn tr s.obj) ?_ ?_ hr
    fun _ _ => Party.allowed_true _ _).2.2
  · exact ⟨Party.account_init_of rfl (Account.Sound.new parties), .init rfl, .init parties⟩
  · rintro tr s k es s' - hsd ⟨hS, hsh, h⟩ hm
    rw [Party.aborts_append, Nat.mul_add]
    exact ⟨hS.move le_rfl (hm.account (lawful fn) hsd), hsh.move (lawful fn) hS hsd hm,
      h.move hsh hS hsd hm⟩

end Slots

/-! ## Exchange -/

section Exchange

variable {ι : Type*}

/-- What the calls returned. -/
def received (es : List (Event ι T T)) : List T := (leavers es).filterMap fun l => l.2.2.value?

theorem rotator_eq (v : List T) : rotator v = v.rotate 1 := by
  cases v with
  | nil => rfl
  | cons v val => simp [rotator]

/-- The values of some departures, read off the slots. -/
theorem map_some_received (slots : List T) (ls : List (ι × ℕ × Exit T))
    (h : ∀ l ∈ ls, ∀ v, l.2.2 = .value v → slots[l.2.1]? = some v) :
    (ls.filterMap fun l => l.2.2.value?).map some =
      ((ls.filter fun l => l.2.2.isValue).map fun l => l.2.1).map fun i => slots[i]? := by
  induction ls with
  | nil => rfl
  | cons l ls ih =>
    have ih := ih fun l hl => h l (List.mem_cons_of_mem _ hl)
    obtain ⟨t, i, r⟩ := l
    cases r with
    | value v =>
      have hv := h (t, i, .value v) (List.mem_cons_self ..) v rfl
      simp only [List.filterMap_cons, Exit.value?, List.map_cons, List.filter_cons, Exit.isValue,
        if_true, hv]
      exact congrArg _ ih
    | exn e => simpa [Exit.value?, Exit.isValue] using ih

/-- In a cycle in which as many calls returned as entered, they returned everything in the slots. -/
theorem received_perm {parties c : ℕ} {slots : List T} {es : List (Event ι T T)}
    (hT : Tripped true parties c es) (hy : Yields slots es) (hlen : slots.length = parties)
    (hall : (received es).length = parties) : (received es).Perm slots := by
  let idx := ((leavers es).filter fun l => l.2.2.isValue).map fun l => l.2.1
  have hmap : (received es).map some = idx.map fun i => slots[i]? := map_some_received slots _ hy
  have hnd : idx.Nodup := hT.indices.sublist ((List.filter_sublist).map _)
  have hsub : idx ⊆ List.range parties := by
    intro i hi
    obtain ⟨l, hl, rfl⟩ := List.mem_map.mp hi
    obtain ⟨p, hp, -⟩ := Option.map_eq_some_iff.mp (hT.seats l (List.mem_filter.mp hl).1)
    rw [List.mem_range, ← hT.length]
    exact (List.getElem?_eq_some_iff.mp hp).1
  have hidx : idx.Perm (List.range parties) := by
    refine (List.subperm_of_subset hnd hsub).perm_of_length_le ?_
    have := congrArg List.length hmap
    simp only [List.length_map] at this
    rw [List.length_range]
    omega
  have hrange : (List.range parties).map (fun i => slots[i]?) = slots.map some := by
    refine List.ext_getElem (by simp [hlen]) fun i h1 h2 => ?_
    simp
  have hperm : ((received es).map some).Perm (slots.map some) := by
    rw [hmap, ← hrange]
    exact hidx.map _
  exact (List.map_perm_map_iff (Option.some_injective T)).mp hperm

variable [DecidableEq ι] [Fintype ι] {fn} {parties : ℕ} {s : World ι T (Rendezvous T)}
  {π : List (Taken (World ι T (Rendezvous T)) (Act ι T Ω) (Event ι T T))} {f : List T → List T}

/-- A cycle in which some call returned: the slots were what the functor made of what was presented. -/
theorem run_yields (hfn : ∀ ω v, fn ω v = .ok (f v)) (hr : Run (machine fn parties) π s) {c : ℕ} {u : ι}
    {i : ℕ} {v : T} (h : .left c u i (.value v) ∈ events π) :
    Tripped true parties c (ofCycle c (events π)) ∧
      Yields (f (args (ofCycle c (events π)))) (ofCycle c (events π)) := by
  have hsh : (party fn).Shape true parties (events π) s :=
    Party.run_shape (o := init parties) (lawful fn) le_rfl rfl hr
  have hsv := run_served hr
  refine ⟨hsh.tripped h, ?_⟩
  have hnot : ¬ NoValue (ofCycle c (events π)) := fun hno => by
    simpa [Exit.isValue] using hno _ (mem_leavers_ofCycle.mpr h)
  rcases (hsh.bound _ h c rfl).lt_or_eq with hc | rfl
  · obtain ⟨ω, slots, hok, hy⟩ := (hsv.past c hc).resolve_left hnot
    rw [hfn] at hok
    rwa [Except.ok.inj hok]
  · have ht : s.obj.triggered_ = true := by
      by_contra ht
      exact hnot (hsh.noValue (Bool.eq_false_of_not_eq_true ht))
    obtain ⟨⟨ω, hok⟩, hy⟩ := hsv.draining ht
    rw [hfn] at hok
    change Yields (f (args (ofCycle s.obj.synch_ _))) (ofCycle s.obj.synch_ _)
    rwa [Except.ok.inj hok]

/-- **Exchange.**  The `i`-th entrant of a cycle returns with the `i`-th value of `f` of what the entrants
of that cycle presented, whatever timed and untimed calls and `waitReset` interleave.  With the rotator
this is what the next entrant presented, and where all return everything is received once. -/
theorem exchange (hp : 0 < parties) (hfn : ∀ ω v, fn ω v = .ok (f v))
    (hr : Run (machine fn parties) π s) :
    (∀ c u i v, .left c u i (.value v) ∈ events π →
      ((entrants (ofCycle c (events π)))[i]?).map Prod.fst = some u ∧
      (args (ofCycle c (events π))).length = parties ∧
      (f (args (ofCycle c (events π))))[i]? = some v) ∧
    (f = rotator →
      (∀ c u i v, .left c u i (.value v) ∈ events π →
        (args (ofCycle c (events π)))[(i + 1) % parties]? = some v) ∧
      ∀ c, (received (ofCycle c (events π))).length = parties →
        (received (ofCycle c (events π))).Perm (args (ofCycle c (events π)))) := by
  have hone : ∀ c u i v, .left c u i (.value v) ∈ events π →
      ((entrants (ofCycle c (events π)))[i]?).map Prod.fst = some u ∧
      (args (ofCycle c (events π))).length = parties ∧
      (f (args (ofCycle c (events π))))[i]? = some v := by
    intro c u i v h
    obtain ⟨hT, hy⟩ := run_yields hfn hr h
    have hmem := mem_leavers_ofCycle.mpr h
    refine ⟨hT.seats _ hmem, ?_, hy _ hmem v rfl⟩
    rw [args, List.length_map, hT.length]
  refine ⟨hone, ?_⟩
  rintro rfl
  constructor
  · intro c u i v h
    obtain ⟨-, hlen, hv⟩ := hone c u i v h
    rw [rotator_eq] at hv
    have hi : i < (args (ofCycle c (events π))).length := by
      rw [← List.length_rotate _ 1]
      exact (List.getElem?_eq_some_iff.mp hv).1
    rwa [List.getElem?_rotate hi, hlen] at hv
  · intro c hall
    -- somebody returned, since `parties` is not zero
    obtain ⟨v, hv⟩ := List.exists_mem_of_length_pos (hall.symm ▸ hp)
    obtain ⟨⟨u, i, r⟩, hl, hr'⟩ := List.mem_filterMap.mp hv
    obtain rfl : r = .value v := Exit.value?_eq_some.mp hr'
    have h := mem_leavers_ofCycle.mp hl
    obtain ⟨hT, hy⟩ := run_yields hfn hr h
    have hlen : (rotator (args (ofCycle c (events π)))).length = parties := by
      rw [rotator_eq, List.length_rotate, (hone c u i v h).2.1]
    have hperm := received_perm hT hy hlen hall
    rw [rotator_eq] at hperm
    exact hperm.trans (List.rotate_perm _ 1)

/-- Two threads exchange `10` and `20`. -/
theorem exchange_two :
    ∃ (π : _) (s : World (Fin 2) ℕ (Rendezvous ℕ)),
      Run (machine (fun (_ : Unit) v => .ok (rotator v)) 2) π s ∧
      .left 0 0 0 (.value 20) ∈ events π ∧
      (args (ofCycle 0 (events π)))[(0 + 1) % 2]? = some 20 := by
  obtain ⟨π, s, hr, hp⟩ := exists_run_of_replay
    (M := machine (T := ℕ) (fun (_ : Unit) v => .ok (rotator v)) 2)
    (p := fun π _ => decide ((Event.left 0 0 0 (.value 20) : Event (Fin 2) ℕ ℕ) ∈ events π))
    [.call (0 : Fin 2) false 10, .call 1 true 20, .acquire 0, .acquire 1, .enter 0 false (),
      .enter 1 false (), .wake 0 false ()] (by decide)
  have hmem := of_decide_eq_true hp
  exact ⟨π, s, hr, hmem, ((exchange (by decide) (fun _ _ => rfl) hr).2 rfl).1 0 0 0 20 hmem⟩

end Exchange

/-! ## Recovery from a throwing functor -/

section Recovery

variable {ι : Type*} [Fintype ι] [DecidableEq ι] {fn} {parties : ℕ} {s : World ι T (Rendezvous T)}
  {π : List (Taken (World ι T (Rendezvous T)) (Act ι T Ω) (Event ι T T))}

/-- **Recovery.**  With untimed calls only, an empty rendezvous is as new exactly when no functor call
threw on the way (and `parties` is an `int`): the handler takes its thread off `count_`, and with it the
permit that the reset block would have given back. -/
theorem restored_iff (hr : Run (machine fn parties) π s) (hC : Meets (fun _ a => a.untimed) π)
    (he : s.Empty) :
    (s.obj.slots_ = [] ∧ s.obj.toCore.AsNew parties) ↔
      Party.aborts (events π) = 0 ∧ parties < 2 ^ 31 := by
  constructor
  · rintro ⟨-, hnew⟩
    have hS := (Party.run_sound (o := init parties) (lawful fn) le_rfl rfl hr).permits
    obtain ⟨hA, -⟩ := Party.empty_iff (P := party fn).mp he
    have h1 : ((party fn).core s.obj).entryGate_.permits_ = parties := hnew.permits
    have h2 : ((party fn).core s.obj).count_ = 0 := hnew.count
    have hle := toInt_le parties
    rw [Party.account_core, hA, h1, h2] at hS
    rw [← toInt_eq_iff]
    omega
  · rintro ⟨h0, hpar⟩
    have hclean := (Party.run_calm (o := init parties) (lawful fn) le_rfl rfl hr hC).clean (Or.inl h0)
    have hnew : s.obj.toCore.AsNew parties :=
      (Party.asNew_iff (o := init parties) (lawful fn) le_rfl rfl hr hclean he).mpr ⟨by omega, hpar⟩
    refine ⟨?_, hnew⟩
    have hv := Party.run_vacant (o := init parties) (lawful fn) (vacates fn) le_rfl rfl rfl hr
      (Or.inl (by rw [h0, Nat.mul_zero])) hnew.count
    change decide (s.obj.slots_.length > 0) = false at hv
    simpa using hv

/-- Two threads meet, exchange and leave. -/
theorem restored_iff_two :
    ∃ (π : _) (s : World (Fin 2) ℕ (Rendezvous ℕ)),
      Run (machine (fun (_ : Unit) v => .ok (rotator v)) 2) π s ∧ π ≠ [] ∧ s.obj.toCore.AsNew 2 := by
  obtain ⟨π, s, hr, hp⟩ := exists_run_of_replay
    (M := machine (T := ℕ) (fun (_ : Unit) v => .ok (rotator v)) 2)
    (p := fun π s => decide (π ≠ [] ∧ Meets (fun _ (a : Act (Fin 2) ℕ Unit) => a.untimed) π ∧
      s.Empty ∧ Party.aborts (events π) = 0))
    [.call (0 : Fin 2) false 10, .call 1 false 20, .acquire 0, .acquire 1, .enter 0 false (),
      .enter 1 false (), .wake 0 false ()] (by decide)
  obtain ⟨hne, hC, he, h0⟩ := of_decide_eq_true hp
  exact ⟨π, s, hr, hne, ((restored_iff hr hC he).mpr ⟨h0, by decide⟩).2⟩

/-- Two parties whose functor throws: both have left, and the gate has one permit. -/
theorem restored_fails_two :
    ¬ ∀ (π : _) (s : World (Fin 2) ℕ (Rendezvous ℕ)),
      Run (machine (fun (_ : Unit) v => .error v) 2) π s → Meets (fun _ a => a.untimed) π →
      s.Empty → s.obj.slots_ = [] ∧ s.obj.toCore.AsNew 2 := by
  intro h
  obtain ⟨π, s, hr, hp⟩ := exists_run_of_replay
    (M := machine (T := ℕ) (fun (_ : Unit) v => .error v) 2)
    (p := fun π s => decide (Meets (fun _ (a : Act (Fin 2) ℕ Unit) => a.untimed) π ∧ s.Empty ∧
      s.obj.entryGate_.permits_ = 1))
    [.call (0 : Fin 2) false 10, .call 1 false 20, .acquire 0, .acquire 1, .enter 0 false (),
      .enter 1 false (), .wake 0 false ()] (by decide)
  obtain ⟨hC, he, h1⟩ := of_decide_eq_true hp
  have := (h π s hr hC he).2.permits
  omega

end Recovery

/-! ## All or none -/

section AllOrNone

variable {ι : Type*} [DecidableEq ι] {fn} {parties : ℕ} {s s' : World ι T (Rendezvous T)}
  {tr es : List (Event ι T T)} {r q : Rendezvous T}

/-- Everybody who left did so by returning. -/
def AllValue (es : List (Event ι T T)) : Prop := ∀ l ∈ leavers es, l.2.2.isValue = true

/-- Everybody who left returned, or nobody did. -/
def Uniform (es : List (Event ι T T)) : Prop := AllValue es ∨ NoValue es

omit [DecidableEq ι] in
theorem AllValue.append (h : AllValue tr) (h' : AllValue es) : AllValue (tr ++ es) := by
  intro l hl
  rw [leavers_append, List.mem_append] at hl
  exact hl.elim (h l) (h' l)

/-- Cycles so far are uniform, and a triggered one is not broken. -/
structure AllOrNone (tr : List (Event ι T T)) (r : Rendezvous T) : Prop where
  past : ∀ c < r.synch_, Uniform (ofCycle c tr)
  draining : r.triggered_ = true → r.broken_ = false ∧ AllValue (ofCycle r.synch_ tr)

/-- A timed-out `waitReset` finds `triggered_` unset. -/
def undisturbed (s : World ι T (Rendezvous T)) : Act ι T Ω → Bool
  | .wakeReset _ .timedOut => !s.obj.triggered_
  | _ => true

omit [DecidableEq ι] in
/-- The way out. -/
theorem AllOrNone.leave (h : AllOrNone tr r) (hsy : q.synch_ = r.synch_)
    (hes : ∀ e ∈ es, e.cycle = some r.synch_)
    (htrip : q.triggered_ = true → q.broken_ = false ∧ AllValue (ofCycle r.synch_ tr ++ es))
    (hno : q.triggered_ = false → NoValue (ofCycle r.synch_ tr ++ es)) :
    AllOrNone (tr ++ es) q.leave := by
  have hE : ofCycle r.synch_ (tr ++ es) = ofCycle r.synch_ tr ++ es := by
    rw [ofCycle_append, ofCycle_of_eq hes]
  have hpast : ∀ c < r.synch_, Uniform (ofCycle c (tr ++ es)) := by
    intro c hc
    rw [ofCycle_append_other hes hc.ne']
    exact h.past c hc
  unfold Rendezvous.leave
  by_cases hl : q.resets_ - 1 = 0
  · rw [Core.leave_last hl]
    refine ⟨?_, nofun⟩
    simp only [hsy]
    intro c hc
    rcases Nat.lt_succ_iff_lt_or_eq.mp hc with hc | rfl
    · exact hpast c hc
    · rw [hE]
      cases ht : q.triggered_ with
      | true => exact Or.inl (htrip ht).2
      | false => exact Or.inr (hno ht)
  · rw [Core.leave_other hl]
    refine ⟨?_, ?_⟩ <;> simp only [hsy, hE]
    · exact hpast
    · exact htrip

/-- The way out, with the look at the slot: whoever leaves a triggered cycle finds it. -/
theorem AllOrNone.out (h : AllOrNone tr r) (hsy : q.synch_ = r.synch_) (hsd : q.shutdown_ = false)
    (hbt : (q.broken_ || q.triggered_) = true) {timeout : Bool} {i : ℕ}
    (htrip : q.triggered_ = true → timeout = false ∧ q.broken_ = false ∧ i < q.slots_.length ∧
      AllValue (ofCycle r.synch_ tr))
    (hno : q.triggered_ = false → NoValue (ofCycle r.synch_ tr))
    (s : World ι T (Rendezvous T)) (u : ι) (timed : Bool) (ran : Option Bool) (t : T) :
    AllOrNone (tr ++ (Party.afterSection s r.synch_ u timed t i (q.out timeout ran t i)).2)
      (q.out timeout ran t i).obj := by
  obtain ⟨short, hobj, hex, hshort⟩ := out_obj hsd timeout ran t i
  obtain ⟨x, hx, hval⟩ := Option.map_eq_some_iff.mp hex
  have hcyc := Party.cycle_afterSection s r.synch_ u timed t i (q.out timeout ran t i)
  have hleave := Party.leavers_afterSection s r.synch_ u timed t i (q.out timeout ran t i)
  rw [hx] at hleave
  rw [hobj]
  refine h.leave hsy hcyc ?_ ?_
  · intro ht
    obtain ⟨hto, hb, hi, hall⟩ := htrip ht
    have hs : short = false := by
      by_contra hs
      have := hshort.mp (by simpa using hs)
      omega
    refine ⟨by simp [hb, hs], hall.append ?_⟩
    intro l hl
    obtain rfl : l = (u, i, x) := by simpa [hleave] using hl
    simp [hval, hto, hb, hs]
  · intro ht
    refine (hno ht).append ?_
    intro l hl
    obtain rfl : l = (u, i, x) := by simpa [hleave] using hl
    have hb : q.broken_ = true := by
      change q.triggered_ = false at ht
      simpa [ht] using hbt
    simp [hval, hb]

omit [DecidableEq ι] in
theorem AllOrNone.outside (h : AllOrNone tr r) (hes : ∀ e ∈ es, e.cycle = none) {g : Semaphore}
    {b : Bool} (hb : r.triggered_ = true → b = r.broken_) :
    AllOrNone (tr ++ es) { r with entryGate_ := g, broken_ := b } := by
  have hE : ∀ c, ofCycle c (tr ++ es) = ofCycle c tr := fun c => ofCycle_append_none hes
  refine ⟨?_, ?_⟩ <;> simp only [hE]
  · exact h.past
  · intro ht
    rw [hb ht]
    exact h.draining ht

omit [DecidableEq ι] in
/-- Events of the current cycle do not change a past one. -/
theorem AllOrNone.spoil (h : AllOrNone tr r) (hes : ∀ e ∈ es, e.cycle = some r.synch_)
    (hsy : q.synch_ = r.synch_) (ht : q.triggered_ = false) : AllOrNone (tr ++ es) q := by
  refine ⟨?_, fun ht' => absurd (ht.symm.trans ht') Bool.false_ne_true⟩
  rw [hsy]
  intro c hc
  rw [ofCycle_append_other hes hc.ne']
  exact h.past c hc

variable [Fintype ι] {lost : ℕ}

/-- Every move keeps cycles uniform, if `waitReset` breaks no triggered one. -/
theorem AllOrNone.move (hfn : ∀ ω v w, fn ω v = .ok w → w.length = v.length) (h : AllOrNone tr s.obj)
    (hsv : Served fn tr s.obj) (hsh : (party fn).Shape true parties tr s)
    (hS : ((party fn).account s).Sound parties lost) (hsd : s.obj.shutdown_ = false) {k : Party.Kind}
    (hk : ∀ x, k = .broke x → s.obj.triggered_ = false) (hm : Party.Move (party fn) s k es s') :
    AllOrNone (tr ++ es) s'.obj := by
  have hno : s.obj.triggered_ = false → NoValue (ofCycle s.obj.synch_ tr) := hsh.noValue
  cases hm with
  | call => exact h.outside (b := s.obj.broken_) (by simp) fun _ => rfl
  | quiet _ _ _ _ _ _ _ hes => exact h.outside (b := s.obj.broken_) hes fun _ => rfl
  | pass => exact h.outside (b := s.obj.broken_) (by simp) fun _ => rfl
  | broke =>
    refine h.outside (b := true) (by simp [Event.cycle]) fun ht => ?_
    rw [hk _ rfl] at ht
    cases ht
  | @enter t timed arg o hpc ho hc =>
    have ht : s.obj.triggered_ = false := Party.not_triggered hS hpc
    have hc' : o.toCore = s.obj.toCore.enter := hc
    refine h.spoil (by simp [Event.cycle]; rfl) ?_ ?_ <;> rw [World.goto_obj, hc']
    · rfl
    · exact ht
  | @finish t timed expired arg i ω hpc =>
    change AllOrNone (tr ++ (Party.afterSection s s.obj.synch_ t timed arg i
      (finish fn s.obj (timed && expired) ω arg i)).2) (finish fn s.obj (timed && expired) ω arg i).obj
    rcases finish_cases fn hsd (timed && expired) ω arg i with ⟨hbt, hf⟩ | ⟨hb, ht, hc, hf⟩ |
      ⟨hb, ht, hc, hx, hf⟩ | ⟨hb, ht, hc, slots, hok, hf⟩ | ⟨hb, ht, hc, slots, hthrow, hf⟩ <;> rw [hf]
    · refine h.out rfl hsd hbt (fun ht => ?_) hno ..
      obtain ⟨hb, hall⟩ := h.draining ht
      obtain ⟨hT, hseat⟩ := hsh.draining ht
      obtain ⟨⟨ω', hok⟩, -⟩ := hsv.draining ht
      refine ⟨rfl, hb, ?_, hall⟩
      rw [hfn _ _ _ hok, args, List.length_map]
      exact (List.getElem?_eq_some_iff.mp (hseat t timed arg i hpc).1).1
    · simpa [Party.afterSection] using h
    · refine h.out (q := { s.obj with broken_ := true }) rfl hsd rfl ?_ (fun _ => hno ht) ..
      exact fun ht' => absurd (ht.symm.trans ht') Bool.false_ne_true
    · refine h.out (q := { s.obj with slots_ := slots, triggered_ := true }) rfl hsd
        (Bool.or_true _) (fun _ => ?_) (fun ht' => by cases ht') ..
      have hG := hsh.gathering hb ht
      refine ⟨rfl, hb, ?_, ?_⟩
      · change i < slots.length
        rw [hfn _ _ _ hok, hsv.gathering hb ht, args, List.length_map]
        exact (List.getElem?_eq_some_iff.mp (hG.seated t timed arg i hpc).1).1
      · intro l hl
        have := hG.leavers_eq
        change leavers (ofCycle s.obj.synch_ tr) = [] at this
        rw [this] at hl
        cases hl
    · have hes := Party.cycle_afterSection s s.obj.synch_ t timed arg i
        (finish fn s.obj (timed && expired) ω arg i)
      rw [hf] at hes
      exact h.spoil hes rfl ht

variable {π : List (Taken (World ι T (Rendezvous T)) (Act ι T Ω) (Event ι T T))}

theorem run_allOrNone (hfn : ∀ ω v w, fn ω v = .ok w → w.length = v.length)
    (hr : Run (machine fn parties) π s) (hC : Meets (fun s a => undisturbed s a) π) :
    AllOrNone (events π) s.obj := by
  refine (Party.inv_of_moves (D := fun s k => ∀ x, k = .broke x → s.obj.triggered_ = false)
    (lawful fn) rfl
    (I := fun tr s => ((party fn).account s).Sound parties (1 * Party.aborts tr) ∧
      (party fn).Shape true parties tr s ∧ Served fn tr s.obj ∧ AllOrNone tr s.obj) ?_ ?_ hr
    (hC.mono ?_)).2.2.2
  · exact ⟨Party.account_init_of rfl (Account.Sound.new parties), .init rfl, .init parties,
      fun c hc => absurd hc (Nat.not_lt_zero c), nofun⟩
  · rintro tr s k es s' hk hsd ⟨hS, hsh, hsv, h⟩ hm
    rw [Party.aborts_append, Nat.mul_add]
    refine ⟨hS.move le_rfl (hm.account (lawful fn) hsd), hsh.move (lawful fn) hS hsd hm,
      hsv.move hsh hS hsd hm, h.move hfn hsv hsh hS hsd ?_ hm⟩
    rintro x rfl
    exact hk x rfl
  · intro s a ha
    cases a with
    | wakeReset t r =>
      cases r with
      | timedOut =>
        intro k _ x _
        simpa [undisturbed] using ha
      | woken => trivial
    | call => exact nofun
    | enter => exact nofun
    | acquire | resume | wake | waitReset => trivial

/-- **All or none.**  As long as every `waitReset` that times out finds `triggered_` unset, nobody leaves
a cycle by an exception that somebody else left by returning. -/
theorem all_or_none (hfn : ∀ ω v w, fn ω v = .ok w → w.length = v.length)
    (hr : Run (machine fn parties) π s) (hC : Meets (fun s a => undisturbed s a) π) (c : ℕ) :
    Uniform (ofCycle c (events π)) := by
  have hsh : (party fn).Shape true parties (events π) s :=
    Party.run_shape (o := init parties) (lawful fn) le_rfl rfl hr
  have h := run_allOrNone hfn hr hC
  rcases Nat.lt_trichotomy c s.obj.synch_ with hc | rfl | hc
  · exact h.past c hc
  · cases ht : s.obj.triggered_ with
    | true => exact Or.inl (h.draining ht).2
    | false => exact Or.inr (hsh.noValue ht)
  · -- a cycle to come has no events
    have hnil : ofCycle c (events π) = [] := by
      refine ofCycle_of_ne fun e he hce => ?_
      exact absurd (hsh.bound e he c hce) (Nat.not_le_of_gt hc)
    rw [hnil]
    exact Or.inr nofun

/-- Two threads meet and leave while a third calls `waitReset`, which returns. -/
theorem all_or_none_two :
    ∃ (π : _) (s : World (Fin 3) ℕ (Rendezvous ℕ)),
      Run (machine (fun (_ : Unit) v => .ok (rotator v)) 2) π s ∧
      .waitedReset 2 (some true) ∈ events π ∧ Uniform (ofCycle 0 (events π)) := by
  obtain ⟨π, s, hr, hp⟩ := exists_run_of_replay
    (M := machine (T := ℕ) (fun (_ : Unit) v => .ok (rotator v)) 2)
    (p := fun π _ => decide ((.waitedReset 2 (some true) : Event (Fin 3) ℕ ℕ) ∈ events π ∧
      Meets (fun s (a : Act (Fin 3) ℕ Unit) => undisturbed s a) π))
    [.call (0 : Fin 3) false 10, .call 1 false 20, .acquire 0, .acquire 1, .enter 0 false (),
      .waitReset 2, .enter 1 false (), .wake 0 false (), .wakeReset 2 .woken] (by decide)
  obtain ⟨hret, hC⟩ := of_decide_eq_true hp
  refine ⟨π, s, hr, hret, all_or_none ?_ hr hC 0⟩
  rintro _ v _ ⟨⟩
  rw [rotator_eq, List.length_rotate]

/-- Thread 1 has returned when the `waitReset` of thread 2 times out, and thread 0 leaves with
`BrokenBarrierException`. -/
theorem all_or_none_fails_two :
    ¬ ∀ (π : _) (s : World (Fin 3) ℕ (Rendezvous ℕ)),
      Run (machine (fun (_ : Unit) v => .ok (rotator v)) 2) π s →
      ∀ c, Uniform (ofCycle c (events π)) := by
  intro h
  obtain ⟨π, s, hr, hp⟩ := exists_run_of_replay
    (M := machine (T := ℕ) (fun (_ : Unit) v => .ok (rotator v)) 2)
    (p := fun π _ => decide (leavers (ofCycle 0 (events π)) =
      [((1 : Fin 3), 1, .value 10), (0, 0, .exn .brokenBarrier)]))
    [.call (0 : Fin 3) false 10, .call 1 false 20, .acquire 0, .acquire 1, .enter 0 false (),
      .waitReset 2, .enter 1 false (), .wakeReset 2 .timedOut, .wake 0 false ()] (by decide)
  have hl := of_decide_eq_true hp
  rcases h π s hr 0 with hall | hno
  · have := hall (0, 0, .exn .brokenBarrier) (by rw [hl]; simp)
    cases this
  · have := hno (1, 1, .value 10) (by rw [hl]; simp)
    cases this

end AllOrNone

end Rendezvous

end Lasagne.Daf
