import Lasagne.Daf.SynchValue

/-!
# Lasagne.Daf.SynchWaiters — who has seen the value of a setter

A setter takes as many permits of `itemTaken_` as it has counted waiters, whoever gives them.  A waiter that was
not there, or has looked at the value already, may return from its wait during the cycle and give one more:
then the setter leaves before everybody has looked.  It does so too if it takes the last permit, and returns, while
the waiter that gave it is still on its way to look.

* `Tidy`: what a setter still has to take is what is there and what the waiters that it woke will give.
* `none_missed`: in every run in which nobody gives too much, every waiter looks at the value before the setter
  returns and before another value is stored.
-/

namespace Lasagne.Daf.SynchValue

open Lasagne.Trans

variable {ι T : Type*}

/-! ## Cycles -/

/-- In the loop of `waitValue`: one of `waiters_`. -/
def Pc.isWaiting : Pc T → Bool
  | .waiting _ _ _ | .looking _ _ _ => true
  | _ => false

/-- In `wait`, and woken. -/
def Pc.isNotified : Pc T → Bool
  | .waiting _ _ b => b
  | _ => false

/-- Back from `wait`, where it was woken. -/
def Pc.isLate : Pc T → Bool
  | .looking _ _ b => b
  | _ => false

/-- Back from `wait`, with the lock. -/
def Pc.isLooking : Pc T → Bool
  | .looking _ _ _ => true
  | _ => false

/-- What a setter has to take yet, less one. -/
def Pc.cycle : Pc T → Option ℤ
  | .taking n | .takeWait n => some n
  | _ => none

@[simp] theorem Pc.isWaiting_notify (x : Pc T) : x.notify.isWaiting = x.isWaiting := by
  cases x <;> rfl

theorem Pc.isNotified_notify {x : Pc T} (h : x.isLooking = false) : x.notify.isNotified = x.isWaiting := by
  cases x <;> first | rfl | cases h

@[simp] theorem Pc.isLooking_notify (x : Pc T) : x.notify.isLooking = x.isLooking := by
  cases x <;> rfl

@[simp] theorem Pc.cycle_notify (x : Pc T) : x.notify.cycle = x.cycle := by
  cases x <;> rfl

theorem Pc.isPast_of_cycle {x : Pc T} {n : ℤ} (h : x.cycle = some n) : x.isPast = true := by
  cases x <;> first | rfl | cases h

variable [Fintype ι]

/-- A waiter that was not woken gives a permit while another one that was woken has not; a setter is about to return
while a waiter that was woken has given its permit and not looked; or there are too many waiters and permits for an
`int`. -/
def oversteps (s : World ι T) : Act ι T → Bool
  | .wake p =>
    match s.pc p with
    | .waiting _ _ b => s.itemTaken_.permits_ = 2 ^ 31 - 1 ∨ (b = false ∧ 0 < count Pc.isNotified s.pc)
    | _ => false
  | .run p =>
    match s.pc p with
    | .store _ => s.waiters_ + s.itemTaken_.permits_ > 2 ^ 31
    | .ungate => 0 < count Pc.isLate s.pc
    | _ => false
  | _ => false

omit [Fintype ι] in
/-- Whoever is about to look at the value has the lock. -/
def Owned (s : World ι T) : Prop := ∀ q, (s.pc q).isLooking = true → s.owner = some q

namespace Owned

omit [Fintype ι]

variable {s s' : World ι T}

theorem nobody (h : Owned s) (hfree : s.owner = none) (q : ι) : (s.pc q).isLooking = false := by
  by_contra hq
  have howner := h q (by simpa using hq)
  rw [hfree] at howner
  cases howner

variable [DecidableEq ι] {p : ι} {x : Pc T}

/-- One thread moves without the lock. -/
theorem outside (h : Owned s) (hpc : s'.pc = Function.update s.pc p x) (howner : s'.owner = s.owner)
    (hx : x.isLooking = false) : Owned s' := by
  intro q hq
  rw [hpc] at hq
  by_cases hqp : q = p
  · rw [hqp, Function.update_self, hx] at hq
    cases hq
  · rw [Function.update_of_ne hqp] at hq
    rw [howner]
    exact h q hq

variable [DecidableEq T] {a : Act ι T} {es : List (Event ι T)}

theorem move (h : Owned s) (hm : Move s s' a es) : Owned s' := by
  cases hm with
  | @call _ p x _ hp hx hs' =>
    rw [hs']
    refine h.outside (p := p) rfl rfl ?_
    rcases hx with rfl | ⟨v, rfl⟩ | ⟨t, v, rfl⟩ <;> rfl
  | @gate _ p v r _ hs' | @take _ p v r _ hs' =>
    rw [hs']
    refine h.outside (p := p) rfl rfl ?_
    split <;> rfl
  | @lose _ p r _ hs' | @pass p v _ _ hs' | @taken p n _ _ hs' | @ungate p _ hs' =>
    rw [hs']
    exact h.outside (p := p) rfl rfl rfl
  | @store p v _ _ hs' =>
    have hnotify : Owned { s with pc := fun q => (s.pc q).notify } := by
      intro q hq
      exact h q (by simpa using hq)
    rw [hs']
    exact hnotify.outside (p := p) rfl rfl rfl
  | @enter _ p timed v _ _ hs' =>
    rcases hs' with rfl | rfl <;> exact h.outside (p := p) rfl rfl rfl
  | @wake p timed v b _ hfree hs' =>
    intro q hq
    rw [hs'] at hq ⊢
    by_cases hqp : q = p
    · rw [hqp]
    · have hlooking : (s.pc q).isLooking = true := by simpa [World.goto, Function.update_of_ne hqp] using hq
      rw [h.nobody hfree q] at hlooking
      cases hlooking
  | @look p timed expired v b _ hp hs' =>
    -- nobody else is
    have hone : ∀ q, q ≠ p → (s.pc q).isLooking = false := by
      intro q hqp
      by_contra hq
      have hself := h p (by rw [hp]; rfl)
      rw [h q (by simpa using hq)] at hself
      exact hqp (Option.some.inj hself)
    intro q hq
    by_cases hqp : q = p
    · subst hqp
      rcases hs' with ⟨-, rfl⟩ | rfl <;> simp [World.goto, Pc.isLooking] at hq
    · have hlooking : (s.pc q).isLooking = true := by
        rcases hs' with ⟨-, rfl⟩ | rfl <;> simpa [World.goto, Function.update_of_ne hqp] using hq
      rw [hone q hqp] at hlooking
      cases hlooking

end Owned

/-- What a setter still has to take is there, or will be given by those it woke. -/
structure Tidy (s : World ι T) : Prop where
  waiters : s.waiters_ = count Pc.isWaiting s.pc
  permits : 0 ≤ s.itemTaken_.permits_ ∧ s.itemTaken_.permits_ < 2 ^ 31
  cycle : ∀ p n, (s.pc p).cycle = some n →
    count Pc.isNotified s.pc = 0 ∨ n + 1 = s.itemTaken_.permits_ + count Pc.isNotified s.pc
  rest : (∀ p, (s.pc p).cycle = none) → count Pc.isNotified s.pc = 0

namespace Tidy

variable [DecidableEq ι] {s s' : World ι T} {p : ι} {x : Pc T}

theorem count_of_eq {f : Pc T → Bool} (hpc : s'.pc = Function.update s.pc p x)
    (hf : f x = f (s.pc p)) : count f s'.pc = count f s.pc := by
  have := count_update f s.pc p x
  rw [hf] at this
  rw [hpc]
  omega

/-- One thread moves. -/
theorem one (h : Tidy s) (hpc : s'.pc = Function.update s.pc p x)
    (hwaiters : s'.waiters_ + (s.pc p).isWaiting.toNat = s.waiters_ + x.isWaiting.toNat)
    (hpermits : 0 ≤ s'.itemTaken_.permits_ ∧ s'.itemTaken_.permits_ < 2 ^ 31)
    (hself : ∀ n, x.cycle = some n → count Pc.isNotified s'.pc = 0 ∨
      n + 1 = s'.itemTaken_.permits_ + count Pc.isNotified s'.pc)
    (hother : ∀ q n, q ≠ p → (s.pc q).cycle = some n → count Pc.isNotified s'.pc = 0 ∨
      n + 1 = s'.itemTaken_.permits_ + count Pc.isNotified s'.pc)
    (hrest : (∀ q, (s'.pc q).cycle = none) → count Pc.isNotified s'.pc = 0) : Tidy s' := by
  have hw := count_update Pc.isWaiting s.pc p x
  refine ⟨?_, hpermits, ?_, hrest⟩
  · have := h.waiters
    rw [hpc]
    omega
  · intro q n hq
    by_cases hqp : q = p
    · subst hqp
      rw [hpc, Function.update_self] at hq
      exact hself n hq
    · rw [hpc, Function.update_of_ne hqp] at hq
      exact hother q n hqp hq

/-- A thread moves that is neither a waiter nor in a cycle. -/
theorem outside (h : Tidy s) (hpc : s'.pc = Function.update s.pc p x)
    (hwaiters : s'.waiters_ = s.waiters_) (hitem : s'.itemTaken_ = s.itemTaken_)
    (hw : (s.pc p).isWaiting = false ∧ x.isWaiting = false)
    (hn : (s.pc p).isNotified = false ∧ x.isNotified = false)
    (hc : (s.pc p).cycle = none ∧ x.cycle = none) : Tidy s' := by
  have hnot := count_of_eq (f := Pc.isNotified) hpc (hn.2.trans hn.1.symm)
  refine h.one hpc (by rw [hwaiters, hw.1, hw.2]) (hitem ▸ h.permits) ?_ ?_ ?_
  · intro n hx
    rw [hc.2] at hx
    cases hx
  · intro q n _ hq
    rw [hnot, hitem]
    exact h.cycle q n hq
  · intro hno
    rw [hnot]
    refine h.rest fun q => ?_
    by_cases hq : q = p
    · rw [hq, hc.1]
    · have := hno q
      rwa [hpc, Function.update_of_ne hq] at this

omit [DecidableEq ι] in
/-- A setter past the gate that is in no cycle is alone there, and everybody has looked. -/
theorem all_looked (h : Tidy s) {lost : ℕ} (hg : Gated s lost) (hp : (s.pc p).isPast = true)
    (hc : (s.pc p).cycle = none) : count Pc.isNotified s.pc = 0 := by
  obtain ⟨hpermits, hfree, -⟩ := hg
  refine h.rest fun q => ?_
  by_contra hq
  obtain ⟨n, hn⟩ := Option.ne_none_iff_exists'.mp hq
  obtain rfl := eq_of_count_le_one (by omega) hp (Pc.isPast_of_cycle hn)
  rw [hc] at hn
  cases hn

/-- A setter in its cycle goes on. -/
theorem goOn (h : Tidy s) {n k : ℤ} {lost : ℕ} (hg : Gated s lost) (hp : (s.pc p).cycle = some n)
    (hpc : s'.pc = Function.update s.pc p x) (hx : x.cycle = some k) (hwaiters : s'.waiters_ = s.waiters_)
    (hfree : 0 ≤ s'.itemTaken_.permits_ ∧ s'.itemTaken_.permits_ < 2 ^ 31)
    (hpermits : k - s'.itemTaken_.permits_ = n - s.itemTaken_.permits_) : Tidy s' := by
  have hnone : ∀ {y : Pc T} {m : ℤ}, y.cycle = some m → y.isWaiting = false ∧ y.isNotified = false := by
    intro y m hy
    cases y <;> first | exact ⟨rfl, rfl⟩ | cases hy
  have hnot := count_of_eq (f := Pc.isNotified) hpc ((hnone hx).2.trans (hnone hp).2.symm)
  obtain ⟨hone, hpos, -⟩ := hg
  refine h.one hpc (by rw [hwaiters, (hnone hp).1, (hnone hx).1]) hfree ?_ ?_ ?_
  · intro m hm
    obtain rfl : k = m := Option.some.inj (hx.symm.trans hm)
    have := h.cycle p n hp
    omega
  · intro q m hqp hq
    exact absurd (eq_of_count_le_one (by omega) (Pc.isPast_of_cycle hq) (Pc.isPast_of_cycle hp)) hqp
  · intro hno
    have := hno p
    rw [hpc, Function.update_self, hx] at this
    cases this

/-- A section of `itemTaken_.acquire`. -/
theorem take (h : Tidy s) {n : ℤ} {r : Semaphore × Acquire}
    (hr : (s.pc p = .taking n ∧ 0 ≤ n ∧ r = s.itemTaken_.acquire) ∨
      (s.pc p = .takeWait n ∧ r = s.itemTaken_.resume .woken))
    {lost : ℕ} (hg : Gated s lost) : Tidy (takeEnds s p n r) := by
  have hfree := h.permits
  rcases hr with ⟨hp, -, rfl⟩ | ⟨hp, rfl⟩
  · have hc : (s.pc p).cycle = some n := by rw [hp]; rfl
    rcases s.itemTaken_.acquire_cases with ⟨hlt, hr⟩ | ⟨-, hr⟩ <;> rw [hr]
    · exact h.goOn hg hc rfl (k := n - 1) rfl rfl (by simp only [takeEnds]; omega)
        (by simp only [takeEnds]; omega)
    · exact h.goOn hg hc rfl (k := n) rfl rfl hfree rfl
  · have hc : (s.pc p).cycle = some n := by rw [hp]; rfl
    rcases s.itemTaken_.resume_cases .woken with ⟨hlt, hr⟩ | ⟨-, hr⟩ <;> rw [hr]
    · exact h.goOn hg hc rfl (k := n - 1) rfl rfl (by simp only [takeEnds]; omega)
        (by simp only [takeEnds]; omega)
    · exact h.goOn hg hc rfl (k := n) rfl rfl hfree rfl

omit [DecidableEq ι] in
theorem setWaiters_eq (h : Tidy s) (hroom : s.waiters_ + s.itemTaken_.permits_ ≤ 2 ^ 31) :
    setWaiters s + 1 = s.itemTaken_.permits_ + s.waiters_ := by
  have hfree := h.permits.1
  have hle : ((2 ^ 31 : ℕ) : ℤ) = 2147483648 := by norm_num
  unfold setWaiters
  rw [Int.bmod_eq_of_le_mul_two] <;> push_cast <;> omega

/-- A setter stores its value and wakes the waiters. -/
theorem store (h : Tidy s) {v : T} (hp : s.pc p = .store v) (hnobody : ∀ q, (s.pc q).isLooking = false)
    (hroom : s.waiters_ + s.itemTaken_.permits_ ≤ 2 ^ 31) {lost : ℕ} (hg : Gated s lost)
    (hpc : s'.pc = Function.update (fun q => (s.pc q).notify) p (.taking (setWaiters s)))
    (hwaiters : s'.waiters_ = s.waiters_) (hitem : s'.itemTaken_ = s.itemTaken_) : Tidy s' := by
  have hw : count Pc.isWaiting s'.pc = count Pc.isWaiting s.pc := by
    have := count_update Pc.isWaiting (fun q => (s.pc q).notify) p (.taking (setWaiters s))
    rw [← hpc, count_comp Pc.isWaiting Pc.notify] at this
    simp only [Pc.isWaiting_notify, hp] at this
    exact this
  have hn : count Pc.isNotified s'.pc = count Pc.isWaiting s.pc := by
    have hone := count_update Pc.isNotified (fun q => (s.pc q).notify) p (.taking (setWaiters s))
    rw [← hpc, count_comp Pc.isNotified Pc.notify, hp] at hone
    exact hone.trans (count_congr fun q => Pc.isNotified_notify (hnobody q))
  have hwait := h.waiters
  have hset := h.setWaiters_eq hroom
  obtain ⟨hone, hpos, -⟩ := hg
  refine ⟨by omega, hitem ▸ h.permits, ?_, ?_⟩
  · intro q n hq
    by_cases hqp : q = p
    · subst hqp
      rw [hpc, Function.update_self] at hq
      obtain rfl : setWaiters s = n := Option.some.inj hq
      rw [hn, hitem]
      omega
    · -- nobody else is past the gate
      rw [hpc, Function.update_of_ne hqp, Pc.cycle_notify] at hq
      exact absurd (eq_of_count_le_one (by omega) (Pc.isPast_of_cycle hq) (by rw [hp]; rfl)) hqp
  · intro hno
    have := hno p
    rw [hpc, Function.update_self] at this
    cases this

/-- A waiter gives a permit. -/
theorem wake (h : Tidy s) {timed : Bool} {v : T} {b : Bool} (hp : s.pc p = .waiting timed v b)
    (hroom : s.itemTaken_.permits_ ≠ 2 ^ 31 - 1) (hb : b = false → count Pc.isNotified s.pc = 0)
    (hpc : s'.pc = Function.update s.pc p (.looking timed v b)) (hwaiters : s'.waiters_ = s.waiters_)
    (hitem : s'.itemTaken_ = s.itemTaken_.release 1) : Tidy s' := by
  have hfree := h.permits
  have hperm : s'.itemTaken_.permits_ = s.itemTaken_.permits_ + 1 := by
    rw [hitem]
    exact Semaphore.release_one (by omega) (by omega)
  have hnot : count Pc.isNotified s'.pc + b.toNat = count Pc.isNotified s.pc := by
    have hone := count_update Pc.isNotified s.pc p (.looking timed v b)
    rwa [← hpc, hp] at hone
  refine h.one hpc (by rw [hwaiters, hp]; rfl) (by omega) (fun n hn => (by cases hn)) ?_ ?_
  · intro q n _ hq
    have hcycle := h.cycle q n hq
    cases b with
    | true =>
      simp only [Bool.toNat_true] at hnot
      omega
    | false =>
      have hzero := hb rfl
      omega
  · intro hno
    have hrest := h.rest fun q => by
      by_cases hq : q = p
      · rw [hq, hp]
        rfl
      · have hnone := hno q
        rwa [hpc, Function.update_of_ne hq] at hnone
    omega

/-- A waiter looks at the value. -/
theorem look (h : Tidy s) {timed : Bool} {v : T} {b : Bool} (hp : s.pc p = .looking timed v b)
    (hpc : s'.pc = Function.update s.pc p x)
    (hx : (x = .waiting timed v false ∧ s'.waiters_ = s.waiters_) ∨
      (x = .idle ∧ s'.waiters_ = s.waiters_ - 1))
    (hitem : s'.itemTaken_ = s.itemTaken_) : Tidy s' := by
  have hpos : 0 < s.waiters_ := by
    rw [h.waiters]
    exact count_pos (i := p) (by rw [hp]; rfl)
  have hnot : count Pc.isNotified s'.pc = count Pc.isNotified s.pc := by
    refine count_of_eq hpc ?_
    rcases hx with ⟨rfl, -⟩ | ⟨rfl, -⟩ <;> rw [hp] <;> rfl
  have hcycle : x.cycle = none := by
    rcases hx with ⟨rfl, -⟩ | ⟨rfl, -⟩ <;> rfl
  refine h.one hpc ?_ (hitem ▸ h.permits) ?_ ?_ ?_
  · rw [hp]
    rcases hx with ⟨rfl, hk⟩ | ⟨rfl, hk⟩ <;> rw [hk] <;> simp [Pc.isWaiting]
    omega
  · intro n hn
    rw [hcycle] at hn
    cases hn
  · intro q n _ hq
    rw [hnot, hitem]
    exact h.cycle q n hq
  · intro hno
    rw [hnot]
    refine h.rest fun q => ?_
    by_cases hq : q = p
    · rw [hq, hp]
      rfl
    · have hnone := hno q
      rwa [hpc, Function.update_of_ne hq] at hnone

variable [DecidableEq T] {a : Act ι T} {es : List (Event ι T)}

theorem move (h : Tidy s) (howned : Owned s) {lost : ℕ} (hg : Gated s lost) (hm : Move s s' a es)
    (ho : oversteps s a = false) : Tidy s' := by
  cases hm with
  | @call a p x es hp hx hs' =>
    rw [hs']
    refine h.outside (p := p) rfl rfl rfl ?_ ?_ ?_ <;> rw [hp] <;>
      rcases hx with rfl | ⟨v, rfl⟩ | ⟨t, v, rfl⟩ <;> exact ⟨rfl, rfl⟩
  | @gate a p v r hr hs' =>
    rw [hs']
    have hp : s.pc p = .gate v ∨ s.pc p = .gateWait v := hr.imp And.left And.left
    refine h.outside (p := p) rfl rfl rfl ⟨?_, ?_⟩ ⟨?_, ?_⟩ ⟨?_, ?_⟩
    all_goals first
      | split <;> rfl
      | rcases hp with hp | hp <;> rw [hp] <;> rfl
  | @lose a p r hp hs' =>
    rw [hs']
    refine h.outside (p := p) rfl rfl rfl ?_ ?_ ?_ <;> rcases hp with ⟨v, hp⟩ | ⟨v, hp⟩ <;> rw [hp] <;>
      exact ⟨rfl, rfl⟩
  | @pass p v hp _ hs' | @ungate p hp hs' =>
    rw [hs']
    refine h.outside (p := p) rfl rfl rfl ?_ ?_ ?_ <;> rw [hp] <;> exact ⟨rfl, rfl⟩
  | @store p v hp hfree hs' =>
    rw [hs']
    exact h.store hp (howned.nobody hfree) (by simpa [oversteps, hp] using ho) hg rfl rfl rfl
  | take hr hs' =>
    rw [hs']
    exact h.take hr hg
  | @taken p n hp hn hs' =>
    have hc := h.cycle p n (by rw [hp]; rfl)
    have hfree := h.permits
    have hzero : count Pc.isNotified s'.pc = 0 := by
      rw [count_of_eq (p := p) (x := .ungate) (by rw [hs']; rfl) (by rw [hp]; rfl)]
      omega
    exact h.one (p := p) (x := .ungate) (by rw [hs']; rfl) (by rw [hs', hp]; rfl) (by rw [hs']; exact hfree)
      (fun _ _ => Or.inl hzero) (fun _ _ _ _ => Or.inl hzero) fun _ => hzero
  | @enter a p timed v es hp hs' =>
    rcases hs' with rfl | rfl
    · have hnot : count Pc.isNotified (s.goto p (.waiting timed v false)).pc = count Pc.isNotified s.pc :=
        count_of_eq (p := p) rfl (by rw [hp]; rfl)
      refine h.one (p := p) rfl (by rw [hp]; rfl) h.permits ?_ ?_ ?_
      · intro n hn
        cases hn
      · intro q n _ hq
        rw [hnot]
        exact h.cycle q n hq
      · intro hno
        rw [hnot]
        refine h.rest fun q => ?_
        by_cases hq : q = p
        · rw [hq, hp]
          rfl
        · have := hno q
          simpa [World.goto, Function.update_of_ne hq] using this
    · refine h.outside (p := p) rfl rfl rfl ?_ ?_ ?_ <;> rw [hp] <;> exact ⟨rfl, rfl⟩
  | @wake p timed v b hp _ hs' =>
    have hno : s.itemTaken_.permits_ ≠ 2 ^ 31 - 1 ∧ (b = false → count Pc.isNotified s.pc = 0) := by
      simpa [oversteps, hp] using ho
    rw [hs']
    exact h.wake hp hno.1 hno.2 rfl rfl rfl
  | look hp hs' =>
    rcases hs' with ⟨-, rfl⟩ | rfl
    · exact h.look hp rfl (Or.inl ⟨rfl, rfl⟩) rfl
    · exact h.look hp rfl (Or.inr ⟨rfl, rfl⟩) rfl

end Tidy

/-! ## Runs -/

section Runs

variable [DecidableEq ι] [DecidableEq T] {value : T} {s s' : World ι T} {a : Act ι T}
  {es : List (Event ι T)} {π : List (Taken (World ι T) (Act ι T) (Event ι T))} {p q : ι} {v w : T}
  {timed b : Bool}

omit [Fintype ι] in
theorem run_owned (hr : Run (machine value) π s) : Owned s := by
  induction hr with
  | start =>
    intro q hq
    cases hq
  | snoc hr hstep ih => exact ih.move (step_move (run_shutdown hr) hstep)

theorem run_tidy (hr : Run (machine value) π s) (hC : Meets (fun s a => oversteps s a = false) π) :
    Tidy s := by
  induction hr with
  | start =>
    refine ⟨?_, ⟨le_rfl, show (0 : ℤ) < 2 ^ 31 by norm_num⟩, fun _ _ h => (by cases h),
      fun _ => count_eq_zero.mpr fun _ => rfl⟩
    rw [count_eq_zero.mpr fun _ => rfl]
    rfl
  | snoc hr hstep ih =>
    obtain ⟨hπ, ha⟩ := meets_snoc.mp hC
    exact (ih hπ).move (run_owned hr) (run_gated hr) (step_move (run_shutdown hr) hstep) ha

/-- A setter that has stored its value and not returned. -/
def Pc.isServing : Pc T → Bool
  | .taking _ | .takeWait _ | .ungate => true
  | _ => false

/-- In `waitValue`, woken, and not yet looking at the value. -/
def Pc.Awaits (timed : Bool) (w : T) (x : Pc T) : Prop := x = .waiting timed w true ∨ x = .looking timed w true

omit [Fintype ι] in
/-- A setter that stores has the lock. -/
theorem Move.of_stored (hm : Move s s' a es) (he : .stored p v ∈ es) : s.pc p = .store v ∧ s.owner = none ∧
    s'.value_ = v ∧ (s'.pc p).isServing = true ∧ ∀ q, q ≠ p → s'.pc q = (s.pc q).notify := by
  cases hm with
  | call _ _ _ hno | enter _ _ hno | look _ _ _ hno => exact absurd he (hno p v)
  | gate | lose | pass | take | taken | ungate | wake => simp at he
  | @store p' v' hp hfree hs' =>
    obtain ⟨rfl, rfl⟩ : p = p' ∧ v = v' := by simpa using he
    refine ⟨hp, hfree, by rw [hs'], ?_, fun q hq => ?_⟩ <;> rw [hs']
    · show (Function.update (fun q => (s.pc q).notify) p (.taking (setWaiters s)) p).isServing = true
      rw [Function.update_self]
      rfl
    · exact Function.update_of_ne hq _ (fun q => (s.pc q).notify)

omit [Fintype ι] in
/-- A setter that has stored its value goes on, or returns. -/
theorem Move.of_serving (hm : Move s s' a es) (hp : (s.pc p).isServing = true) :
    ((s'.pc p).isServing = true ∧ ∀ r, .setRet p r ∉ es) ∨ (s.pc p = .ungate ∧ a = .run p) := by
  have hother : ∀ p' x, s'.pc = Function.update s.pc p' x → (s.pc p').isServing = false →
      (s'.pc p).isServing = true ∧ p ≠ p' := by
    intro p' x hpc hp'
    have hne : p ≠ p' := by
      rintro rfl
      rw [hp] at hp'
      cases hp'
    exact ⟨by rwa [hpc, Function.update_of_ne hne], hne⟩
  cases hm with
  | @call _ p' x _ hp' _ hs' _ hno =>
    exact Or.inl ⟨(hother p' _ (by rw [hs']; rfl) (by rw [hp']; rfl)).1, hno p⟩
  | @gate _ p' v r hr hs' =>
    refine Or.inl ⟨(hother p' _ (by rw [hs']; rfl) ?_).1, by simp⟩
    rcases hr with ⟨hp', -⟩ | ⟨hp', -⟩ <;> rw [hp'] <;> rfl
  | @lose _ p' r hp' hs' =>
    obtain ⟨hserving, hne⟩ := hother p' _ (by rw [hs']; rfl) (by
      rcases hp' with ⟨v, hp'⟩ | ⟨v, hp'⟩ <;> rw [hp'] <;> rfl)
    exact Or.inl ⟨hserving, by simp [hne]⟩
  | @pass p' v hp' _ hs' => exact Or.inl ⟨(hother p' _ (by rw [hs']; rfl) (by rw [hp']; rfl)).1, by simp⟩
  | @store p' v hp' _ hs' =>
    have hne : p ≠ p' := by
      rintro rfl
      rw [hp'] at hp
      cases hp
    refine Or.inl ⟨?_, by simp⟩
    rw [hs']
    show (Function.update (fun q => (s.pc q).notify) p' _ p).isServing = true
    rw [Function.update_of_ne hne]
    cases hq : s.pc p <;> rw [hq] at hp <;> first | rfl | cases hp
  | @take _ p' n r _ hs' =>
    refine Or.inl ⟨?_, by simp⟩
    by_cases hne : p = p'
    · rw [hs', hne]
      show (Function.update s.pc p' _ p').isServing = true
      rw [Function.update_self]
      split <;> rfl
    · rw [hs']
      show (Function.update s.pc p' _ p).isServing = true
      rwa [Function.update_of_ne hne]
  | @taken p' n _ _ hs' =>
    refine Or.inl ⟨?_, by simp⟩
    rw [hs']
    show (Function.update s.pc p' _ p).isServing = true
    by_cases hne : p = p'
    · rw [hne, Function.update_self]
      rfl
    · rwa [Function.update_of_ne hne]
  | @ungate p' hp' hs' =>
    by_cases hne : p = p'
    · exact Or.inr ⟨hne ▸ hp', by rw [hne]⟩
    · refine Or.inl ⟨?_, by simp [hne]⟩
      rw [hs']
      show (Function.update s.pc p' _ p).isServing = true
      rwa [Function.update_of_ne hne]
  | @enter _ p' timed v _ hp' hs' _ hno =>
    refine Or.inl ⟨?_, hno p⟩
    rcases hs' with hs' | hs' <;> exact (hother p' _ (by rw [hs']; rfl) (by rw [hp']; rfl)).1
  | @wake p' timed v b hp' _ hs' =>
    exact Or.inl ⟨(hother p' _ (by rw [hs']; rfl) (by rw [hp']; rfl)).1, by simp⟩
  | @look p' timed expired v b _ hp' hs' _ _ hno =>
    refine Or.inl ⟨?_, hno p⟩
    rcases hs' with ⟨-, hs'⟩ | hs' <;> exact (hother p' _ (by rw [hs']; rfl) (by rw [hp']; rfl)).1

omit [Fintype ι] in
/-- A waiter that was woken looks at the value, or stays; then nobody has stored another value, or everybody is
woken again. -/
theorem Move.of_awaits (hm : Move s s' a es) (hq : (s.pc q).Awaits timed w) :
    (s.pc q = .looking timed w true ∧ (∃ expired, a = .look q expired) ∧ (s.value_ = w → es = [.waitRet q 0])) ∨
      ((s'.pc q).Awaits timed w ∧ (s'.value_ = s.value_ ∨ ∃ p v, .stored p v ∈ es)) := by
  have hwaits : (s.pc q).isWaiting = true := by rcases hq with hq | hq <;> rw [hq] <;> rfl
  have hother : ∀ p x, s'.pc = Function.update s.pc p x → s'.value_ = s.value_ →
      (s.pc p).isWaiting = false → (s'.pc q).Awaits timed w ∧ (s'.value_ = s.value_ ∨ ∃ p v, .stored p v ∈ es) := by
    intro p x hpc hvalue hp
    have hqp : q ≠ p := by
      rintro rfl
      rw [hwaits] at hp
      cases hp
    exact ⟨by rwa [hpc, Function.update_of_ne hqp], Or.inl hvalue⟩
  cases hm with
  | @call _ p x _ hp _ hs' =>
    exact Or.inr (hother p x (by rw [hs']; rfl) (by rw [hs']; rfl) (by rw [hp]; rfl))
  | @gate _ p v r hr hs' =>
    refine Or.inr (hother p _ (by rw [hs']; rfl) (by rw [hs']; rfl) ?_)
    rcases hr with ⟨hp, -⟩ | ⟨hp, -⟩ <;> rw [hp] <;> rfl
  | @lose _ p r hp hs' =>
    refine Or.inr (hother p _ (by rw [hs']; rfl) (by rw [hs']; rfl) ?_)
    rcases hp with ⟨v, hp⟩ | ⟨v, hp⟩ <;> rw [hp] <;> rfl
  | @pass p v hp _ hs' | @taken p n hp _ hs' =>
    exact Or.inr (hother p _ (by rw [hs']; rfl) (by rw [hs']; rfl) (by rw [hp]; rfl))
  | @ungate p hp hs' => exact Or.inr (hother p _ (by rw [hs']; rfl) (by rw [hs']; rfl) (by rw [hp]; rfl))
  | @store p v hp _ hs' =>
    have hqp : q ≠ p := by
      rintro rfl
      rw [hp] at hwaits
      cases hwaits
    refine Or.inr ⟨?_, Or.inr ⟨p, v, by simp⟩⟩
    rw [hs']
    show (Function.update (fun q => (s.pc q).notify) p _ q).Awaits timed w
    rw [Function.update_of_ne hqp]
    rcases hq with hq | hq <;> rw [hq]
    · exact Or.inl rfl
    · exact Or.inr rfl
  | @take _ p n r hr hs' =>
    refine Or.inr (hother p _ (by rw [hs']; rfl) (by rw [hs']; rfl) ?_)
    rcases hr with ⟨hp, -⟩ | ⟨hp, -⟩ <;> rw [hp] <;> rfl
  | @enter _ p timed' v _ hp hs' =>
    refine Or.inr ?_
    rcases hs' with hs' | hs' <;>
      exact hother p _ (by rw [hs']; rfl) (by rw [hs']; rfl) (by rw [hp]; rfl)
  | @wake p timed' v b hp _ hs' =>
    refine Or.inr ⟨?_, Or.inl (by rw [hs']; rfl)⟩
    rw [hs']
    show (Function.update s.pc p _ q).Awaits timed w
    by_cases hqp : q = p
    · subst hqp
      obtain ⟨rfl, rfl, rfl⟩ : timed' = timed ∧ v = w ∧ b = true := by simpa [Pc.Awaits, hp] using hq
      rw [Function.update_self]
      exact Or.inr rfl
    · rwa [Function.update_of_ne hqp]
  | @look p timed' expired v b _ hp hs' hret =>
    by_cases hqp : q = p
    · subst hqp
      obtain ⟨rfl, rfl, rfl⟩ : timed' = timed ∧ v = w ∧ b = true := by simpa [Pc.Awaits, hp] using hq
      exact Or.inl ⟨hp, ⟨expired, rfl⟩, hret⟩
    · refine Or.inr ⟨?_, Or.inl ?_⟩ <;> rcases hs' with ⟨-, rfl⟩ | rfl
      · show (Function.update s.pc p _ q).Awaits timed w
        rwa [Function.update_of_ne hqp]
      · show (Function.update s.pc p _ q).Awaits timed w
        rwa [Function.update_of_ne hqp]
      · rfl
      · rfl

omit [DecidableEq ι] [DecidableEq T] in
/-- Where nobody that was woken is on the way to look, everybody has looked. -/
theorem Tidy.no_awaits (h : Tidy s) {lost : ℕ} (hg : Gated s lost) (hp : (s.pc p).isPast = true)
    (hc : (s.pc p).cycle = none) (hlate : ∀ q, (s.pc q).isLate = false) (q : ι) : ¬ (s.pc q).Awaits timed w := by
  have hzero := count_eq_zero.mp (h.all_looked hg hp hc) q
  have hnone := hlate q
  rintro (hq | hq)
  · rw [hq] at hzero
    cases hzero
  · rw [hq] at hnone
    cases hnone

/-- Every waiter of a store looks at the value before its setter returns and before the next store. -/
def NoneMissed (π : List (Taken (World ι T) (Act ι T) (Event ι T))) : Prop :=
  ∀ (π₁ ρ π₂ : List (Taken (World ι T) (Act ι T) (Event ι T)))
    (x y : Taken (World ι T) (Act ι T) (Event ι T)), π = π₁ ++ x :: (ρ ++ y :: π₂) →
    ∀ p v, .stored p v ∈ x.out → ((∃ r, .setRet p r ∈ y.out) ∨ ∃ p' v', .stored p' v' ∈ y.out) →
    ∀ q timed w b, x.pre.pc q = .waiting timed w b → ∃ z ∈ ρ, (∃ expired, z.act = .look q expired) ∧
      z.pre.pc q = .looking timed w true ∧ (w = v → z.out = [.waitRet q 0])

/-- Where a setter returns, or stores, everybody that was woken before has looked. -/
theorem no_awaits_of_step (hr : Run (machine value) π s) (hC : Meets (fun s a => oversteps s a = false) π)
    (hm : Move s s' a es) (ho : oversteps s a = false)
    (hy : (s.pc p = .ungate ∧ a = .run p) ∨ ∃ p' v', .stored p' v' ∈ es) (q : ι) : ¬ (s.pc q).Awaits timed w := by
  have htidy := run_tidy hr hC
  rcases hy with ⟨hp, rfl⟩ | ⟨p', v', hst⟩
  · have hnone : count Pc.isLate s.pc = 0 := by simpa [oversteps, hp] using ho
    exact htidy.no_awaits (run_gated hr) (p := p) (by rw [hp]; rfl) (by rw [hp]; rfl) (count_eq_zero.mp hnone) q
  · obtain ⟨hp', hfree, -⟩ := hm.of_stored hst
    refine htidy.no_awaits (run_gated hr) (p := p') (by rw [hp']; rfl) (by rw [hp']; rfl) (fun q => ?_) q
    have hnobody := (run_owned hr).nobody hfree q
    cases hq : s.pc q <;> rw [hq] at hnobody <;> first | rfl | cases hnobody

/-- After a store a waiter has looked at the value, or its setter, the waiter and the value are all still there. -/
theorem looked_or_waits {π₁ ρ : List (Taken (World ι T) (Act ι T) (Event ι T))}
    {x : Taken (World ι T) (Act ι T) (Event ι T)} (hr : Run (machine value) (π₁ ++ x :: ρ) s)
    (hC : Meets (fun s a => oversteps s a = false) (π₁ ++ x :: ρ)) (hx : .stored p v ∈ x.out)
    (hq : x.pre.pc q = .waiting timed w b) :
    (∃ z ∈ ρ, (∃ expired, z.act = .look q expired) ∧ z.pre.pc q = .looking timed w true ∧
      (w = v → z.out = [.waitRet q 0])) ∨
      ((s.pc q).Awaits timed w ∧ s.value_ = v ∧ (s.pc p).isServing = true) := by
  induction ρ using List.reverseRecOn generalizing s with
  | nil =>
    obtain ⟨hpre, hstep⟩ := hr.snoc_inv
    obtain ⟨hp, -, hvalue, hserving, hothers⟩ := (step_move (run_shutdown hpre) hstep).of_stored hx
    have hqp : q ≠ p := by
      rintro rfl
      rw [hq] at hp
      cases hp
    exact Or.inr ⟨Or.inl (by rw [hothers q hqp, hq]; rfl), hvalue, hserving⟩
  | append_singleton ρ z ih =>
    rw [← List.cons_append, ← List.append_assoc] at hr hC
    obtain ⟨hpre, hstep⟩ := hr.snoc_inv
    obtain ⟨hCpre, ho⟩ := meets_snoc.mp hC
    rcases ih hpre hCpre with ⟨z', hz', hlooked⟩ | ⟨hawaits, hvalue, hserving⟩
    · exact Or.inl ⟨z', List.mem_append_left _ hz', hlooked⟩
    · have hm := step_move (run_shutdown hpre) hstep
      rcases hm.of_awaits hawaits with ⟨hlooking, hlook, hret⟩ | ⟨hstay, hkept⟩
      · exact Or.inl ⟨z, by simp, hlook, hlooking, fun hwv => hret (by rw [hvalue, hwv])⟩
      · -- nobody stores, and the setter does not return, while a waiter has not looked
        have hno := fun hy => no_awaits_of_step (p := p) hpre hCpre hm ho hy q hawaits
        refine Or.inr ⟨hstay, ?_, ?_⟩
        · exact (hkept.resolve_right fun hst => hno (Or.inr hst)).trans hvalue
        · exact ((hm.of_serving hserving).resolve_right fun hret => hno (Or.inl hret)).1

/-- **No missed value.**  In every run in which no waiter gives a permit that a setter did not count, and no setter
returns while the waiter that gave its last permit is on the way to look, every thread that waits when a value is
stored looks at it before the setter returns and before another value is stored; if it waits for that value, it
returns `0` then. -/
theorem none_missed (hr : Run (machine value) π s) (hC : Meets (fun s a => oversteps s a = false) π) :
    NoneMissed π := by
  rintro π₁ ρ π₂ x y rfl p v hx hy q timed w b hq
  rw [← List.cons_append, ← List.append_assoc] at hr hC
  obtain ⟨s', hr'⟩ := hr.split
  obtain ⟨hpre, hstep⟩ := hr'.snoc_inv
  have hCpre : Meets (fun s a => oversteps s a = false) (π₁ ++ x :: ρ) :=
    fun z hz => hC z (List.mem_append_left _ hz)
  have ho : oversteps y.pre y.act = false := hC y (by simp)
  refine (looked_or_waits hpre hCpre hx hq).resolve_right ?_
  rintro ⟨hawaits, -, hserving⟩
  have hm := step_move (run_shutdown hpre) hstep
  refine no_awaits_of_step (p := p) hpre hCpre hm ho ?_ q hawaits
  rcases hy with ⟨r, hret⟩ | hst
  · exact Or.inl ((hm.of_serving hserving).resolve_left fun hgo => hgo.2 r hret)
  · exact Or.inr hst

/-- Threads 1 and 2 wait for 7, and both return before the setter does. -/
theorem none_missed_three :
    ∃ (π : _) (s : World (Fin 3) ℕ), Run (machine 0) π s ∧ .setRet 0 0 ∈ events π ∧
      .waitRet 1 0 ∈ events π ∧ .waitRet 2 0 ∈ events π ∧ NoneMissed π := by
  obtain ⟨π, s, hr, hp⟩ := exists_run_of_replay (M := machine 0)
    (p := fun π _ => decide ((.setRet 0 0 : Event (Fin 3) ℕ) ∈ events π ∧
      (.waitRet 1 0 : Event (Fin 3) ℕ) ∈ events π ∧ (.waitRet 2 0 : Event (Fin 3) ℕ) ∈ events π ∧
      Meets (fun s (a : Act (Fin 3) ℕ) => oversteps s a = false) π))
    [.waitValue (1 : Fin 3) true 7, .enter 1 false, .waitValue 2 false 7, .enter 2 false, .setValue 0 7,
      .run 0, .run 0, .run 0, .wake 1, .run 0, .look 1 false, .run 0, .wake 2, .look 2 false, .wake 0, .run 0,
      .run 0] (by decide)
  obtain ⟨hset, h1, h2, hC⟩ := of_decide_eq_true hp
  exact ⟨π, s, hr, hset, h1, h2, none_missed hr hC⟩

/-- Threads 1 and 2 wait for 5 and 7, and thread 0 stores 7.  Thread 1 looks, waits again and times out: it has
given the permits of both, and the setter returns before thread 2 has looked. -/
theorem missed_three : ¬ ∀ (π : _) (s : World (Fin 3) ℕ), Run (machine 0) π s → NoneMissed π := by
  intro h
  obtain ⟨π, s, hr, hp⟩ := exists_run_of_replay (M := machine 0)
    (p := fun (π : List (Taken (World (Fin 3) ℕ) (Act (Fin 3) ℕ) (Event (Fin 3) ℕ))) _ =>
      decide ((∃ x ∈ (π.drop 7).head?, .stored 0 7 ∈ x.out ∧ x.pre.pc 2 = .waiting false 7 false) ∧
        (∃ y ∈ ((π.drop 8).drop 7).head?, .setRet 0 0 ∈ y.out) ∧
        ∀ z ∈ (π.drop 8).take 7, ∀ e, z.act ≠ .look 2 e))
    [.waitValue (1 : Fin 3) true 5, .enter 1 false, .waitValue 2 false 7, .enter 2 false, .setValue 0 7,
      .run 0, .run 0, .run 0, .wake 1, .look 1 false, .wake 1, .look 1 true, .run 0, .run 0, .run 0, .run 0]
    (by decide)
  obtain ⟨⟨x, hx, hst, hwait⟩, ⟨y, hy, hret⟩, hno⟩ := of_decide_eq_true hp
  obtain ⟨z, hz, ⟨e, he⟩, -⟩ := h π s hr _ _ _ x y (eq_around hx hy) 0 7 hst (Or.inl ⟨0, hret⟩) 2 false 7
    false hwait
  exact hno z hz e he

end Runs

end Lasagne.Daf.SynchValue
