import Lasagne.Daf.Party

/-!
# Lasagne.Daf.PartyAccount — the counters of a party, abstractly

The abstract state of a party is an `Account`: the shared fields, how many threads hold a permit
without having entered, and how many are inside.  `Move.account` says that every move of the machine
is a move of the account, so everything about the counters is proved here, on numbers.

* `Sound`: what holds in every run, throwing commands and broken cycles included.  Permits are
  conserved up to the ones a throwing functor loses, and `resets_` never falls below the number of
  threads inside.
* `Clean`: `resets_` is exact and an empty party is as new.
* `Full`: the party is broken only when no thread can enter it.
* `Stuck`: `resets_` is too large; this never heals.
-/

namespace Lasagne.Daf

open Lasagne.Trans

/-- The shared fields, the threads that hold a permit and the threads inside. -/
structure Account where
  core : Core
  admitted : ℕ
  inside : ℕ

/-- Whether a section ended in the handler of a throwing command. -/
def aborted (ran : Option Bool) : ℕ := if ran = some false then 1 else 0

namespace Account

open Party (Kind)

/-- The moves of an account; the number counts throwing commands. -/
inductive Move (loud : Bool) (drop : ℕ) (mayThrow : Prop) : Account → Kind → ℕ → Account → Prop
  | same {c : Core} {p n : ℕ} {k : Kind} {g : Semaphore} : (k = .quiet ∨ ∃ timed, k = .call timed) →
      g.permits_ = c.entryGate_.permits_ →
      Move loud drop mayThrow ⟨c, p, n⟩ k 0 ⟨{ c with entryGate_ := g }, p, n⟩
  | pass {c : Core} {p n : ℕ} {g : Semaphore} : 0 < c.entryGate_.permits_ →
      g.permits_ = c.entryGate_.permits_ - 1 →
      Move loud drop mayThrow ⟨c, p, n⟩ .pass 0 ⟨{ c with entryGate_ := g }, p + 1, n⟩
  | enter {c : Core} {p n : ℕ} :
      Move loud drop mayThrow ⟨c, p + 1, n⟩ .enter 0 ⟨c.enter, p, n + 1⟩
  | finish {c c' : Core} {p n : ℕ} {x : Bool} {ran ex : Option Bool} :
      Finished loud drop mayThrow x c ran ex c' →
      Move loud drop mayThrow ⟨c, p, n + 1⟩ (.finish x) (aborted ran)
        ⟨c', p, if ex.isSome then n else n + 1⟩
  | broke {c : Core} {p n k : ℕ} :
      Move loud drop mayThrow ⟨c, p, n⟩ (.broke k) 0 ⟨{ c with broken_ := true }, p, n⟩

variable {loud : Bool} {drop parties lost : ℕ} {mayThrow : Prop} {a a' : Account} {k : Kind} {m : ℕ}

theorem Move.enter_inv (hm : Move loud drop mayThrow a .enter m a') :
    ∃ c p n, a = ⟨c, p + 1, n⟩ ∧ a' = ⟨c.enter, p, n + 1⟩ := by
  cases hm with
  | same hk => simp at hk
  | enter => exact ⟨_, _, _, rfl, rfl⟩

theorem Move.aborted_eq_zero (hthrow : ¬ mayThrow) (hm : Move loud drop mayThrow a k m a') :
    m = 0 := by
  cases hm with
  | finish hf =>
    cases hf with
    | abort ht => exact absurd ht hthrow
    | trip => cases loud <;> rfl
    | wait | drain | expire => rfl
  | same | pass | enter | broke => rfl

/-- What holds in every run; `lost` permits went down with throwing functors. -/
structure Sound (parties lost : ℕ) (a : Account) : Prop where
  parties_eq : a.core.parties_ = parties
  permits : a.core.entryGate_.permits_ + a.admitted + a.core.count_ + lost = toInt parties
  gate : 0 ≤ a.core.entryGate_.permits_ ∨ (a.admitted = 0 ∧ a.core.count_ = 0)
  inside_le : a.inside ≤ a.core.resets_
  resets_le : a.core.resets_ ≤ a.core.count_
  triggered : a.core.triggered_ = true → a.core.count_ = parties

theorem Sound.new (parties : ℕ) : Sound parties 0 ⟨Core.new parties, 0, 0⟩ where
  parties_eq := rfl
  permits := by simp [Core.new]
  gate := Or.inr ⟨rfl, rfl⟩
  inside_le := le_rfl
  resets_le := le_rfl
  triggered := nofun

/-- `count_` is an `int`. -/
theorem Sound.count_lt {c : Core} {p n : ℕ} (h : Sound parties lost ⟨c, p, n⟩) : c.count_ < 2 ^ 31 := by
  have h1 := h.permits
  have h2 := h.gate
  have h3 := h.inside_le
  have h4 := h.resets_le
  have hlt := toInt_lt parties
  simp only at h1 h2 h3 h4
  omega

theorem Sound.toInt_count {c : Core} {p n : ℕ} (h : Sound parties lost ⟨c, p, n + 1⟩) :
    (toInt c.count_).toNat = c.count_ := by
  rw [toInt_eq_iff.mpr h.count_lt]
  simp

/-- Nobody can enter a full party. -/
theorem Sound.not_full {c : Core} {p n : ℕ} (h : Sound parties lost ⟨c, p + 1, n⟩)
    (hfull : parties ≤ c.count_ + lost) : False := by
  have h1 := h.permits
  have h2 := h.gate
  have := toInt_le parties
  simp only at h1 h2
  omega

/-- The last one out gives its permits back. -/
theorem Sound.last {c c' : Core} {p n : ℕ} (h : Sound parties lost ⟨c, p, n + 1⟩) (hlast : c.resets_ - 1 = 0)
    (hparties : c'.parties_ = c.parties_)
    (hperm : c'.entryGate_.permits_ = c.entryGate_.permits_ + c.count_) (hcount : c'.count_ = 0)
    (hresets : c'.resets_ = 0) (htriggered : c'.triggered_ = false) : Sound parties lost ⟨c', p, n⟩ := by
  obtain ⟨h1, h2, h3, h4, h5, h6⟩ := h
  simp only at h1 h2 h3 h4 h5 h6
  have hnone : c'.triggered_ = true → c'.count_ = parties := fun ht => absurd (htriggered.symm.trans ht) (by decide)
  have hpar := hparties.trans h1
  clear hparties h1 h6
  refine ⟨hpar, ?_, ?_, ?_, ?_, hnone⟩ <;> clear hpar hnone <;> simp only <;> omega

/-- The way out keeps the account sound. -/
theorem Sound.leave {c : Core} {p n : ℕ} (h : Sound parties lost ⟨c, p, n + 1⟩) :
    Sound parties lost ⟨c.leave, p, n⟩ := by
  by_cases hl : c.resets_ - 1 = 0
  · have hcount := h.toInt_count
    have hlt := toInt_lt parties
    have hpermits := h.permits
    have hgate := h.gate
    have hinside := h.inside_le
    have hresets := h.resets_le
    simp only at hpermits hgate hinside hresets
    -- somebody was inside, so the gate is not below zero
    have hlow : -2 ^ 31 ≤ c.entryGate_.permits_ := by omega
    have hroom : c.entryGate_.permits_ + (toInt c.count_).toNat < 2 ^ 31 := by
      rw [hcount]
      omega
    have hperm := Semaphore.release_permits hlow hroom
    rw [hcount] at hperm
    rw [Core.leave_last hl]
    exact h.last hl rfl hperm rfl hl rfl
  · obtain ⟨h1, h2, h3, h4, h5, h6⟩ := h
    simp only at h1 h2 h3 h4 h5 h6
    rw [Core.leave_other hl]
    refine ⟨h1, h2, h3, ?_, ?_, h6⟩ <;> simp only <;> omega

/-- Flags do not matter to soundness, as long as `triggered_` is set in a full party only. -/
theorem Sound.flags {c : Core} {p n : ℕ} (h : Sound parties lost ⟨c, p, n⟩) {b x : Bool}
    (hx : x = true → c.count_ = parties) :
    Sound parties lost ⟨{ c with broken_ := b, triggered_ := x }, p, n⟩ :=
  ⟨h.parties_eq, h.permits, h.gate, h.inside_le, h.resets_le, hx⟩

theorem Sound.move (hd : drop ≤ 1) (h : Sound parties lost a)
    (hm : Move loud drop mayThrow a k m a') : Sound parties (lost + drop * m) a' := by
  cases hm with
  | same _ hg =>
    obtain ⟨h1, h2, h3, h4, h5, h6⟩ := h
    exact ⟨h1, by simpa [hg] using h2, by simpa [hg] using h3, h4, h5, h6⟩
  | pass hpos hg =>
    obtain ⟨h1, h2, h3, h4, h5, h6⟩ := h
    simp only at h2 h3
    refine ⟨h1, ?_, ?_, h4, h5, h6⟩ <;> simp only [hg] <;> omega
  | @enter c p n =>
    have hfull : ¬ parties ≤ c.count_ + lost := h.not_full
    obtain ⟨h1, h2, h3, h4, h5, h6⟩ := h
    simp only at h2 h3 h4 h5 h6
    refine ⟨h1, ?_, ?_, ?_, ?_, ?_⟩ <;> simp only [Core.enter]
    · omega
    · omega
    · omega
    · omega
    · intro ht
      exact absurd (h6 ht) (by omega)
  | @finish c c' p n x ran ex hf =>
    cases hf with
    | wait => exact h
    | drain short => exact (h.flags (b := c.broken_ || short) h.triggered).leave
    | expire => exact (h.flags (b := true) h.triggered).leave
    | trip short hb ht hc =>
      have hs := (h.flags (b := short) (x := true) fun _ => hc.trans h.parties_eq).leave
      cases loud <;> exact hs
    | abort _ hb ht hc =>
      obtain ⟨h1, h2, h3, h4, h5, h6⟩ := h
      simp only at h1 h2 h3 h4 h5 h6
      have hm : aborted (some false) = 1 := rfl
      refine ⟨h1, ?_, ?_, ?_, ?_, ?_⟩ <;> simp only [hm, Option.isSome_some, if_true]
      · omega
      · omega
      · omega
      · omega
      · intro ht'
        simp [ht] at ht'
  | broke => exact h.flags h.triggered

/-! ### An exact account -/

/-- `resets_` is the number of threads inside, and an empty party is as new. -/
structure Clean (a : Account) : Prop where
  exact : a.core.resets_ = a.inside
  unused : a.core.broken_ = false → a.core.triggered_ = false → a.core.resets_ = a.core.count_
  fresh : a.inside = 0 →
    a.core.count_ = 0 ∧ a.core.broken_ = false ∧ a.core.triggered_ = false

theorem Clean.new (parties : ℕ) : Clean ⟨Core.new parties, 0, 0⟩ :=
  ⟨rfl, fun _ _ => rfl, fun _ => ⟨rfl, rfl, rfl⟩⟩

/-- The way out keeps the account exact, once the cycle is broken or triggered. -/
theorem Clean.leave {c : Core} {p n : ℕ} (h : c.resets_ = n + 1)
    (hf : (c.broken_ || c.triggered_) = true) : Clean ⟨c.leave, p, n⟩ := by
  by_cases hl : c.resets_ - 1 = 0
  · rw [Core.leave_last hl]
    refine ⟨?_, fun _ _ => hl, fun _ => ⟨rfl, rfl, rfl⟩⟩
    simp only
    omega
  · rw [Core.leave_other hl]
    refine ⟨?_, fun hb ht => ?_, fun hn => ?_⟩ <;> simp only at *
    · omega
    · simp [hb, ht] at hf
    · omega

/-- An account stays exact as long as nobody enters a broken cycle, no cycle is broken from outside
while nobody is inside, and a command does not throw in a party of one. -/
theorem Clean.move (hS : Sound parties lost a) (h : Clean a)
    (henter : k = .enter → a.core.broken_ = false) (hbroke : ∀ x, k = .broke x → a.inside ≠ 0)
    (habort : m = 0 ∨ 2 ≤ parties) (hm : Move loud drop mayThrow a k m a') : Clean a' := by
  obtain ⟨hex, hun, hfr⟩ := h
  cases hm with
  | same => exact ⟨hex, hun, hfr⟩
  | pass => exact ⟨hex, hun, hfr⟩
  | @enter c p n =>
    have hb : c.broken_ = false := henter rfl
    have ht : c.triggered_ = false := by
      by_contra ht
      exact hS.not_full ((hS.triggered (by simpa using ht)).ge.trans (Nat.le_add_right _ _))
    have hc := hun hb ht
    simp only at hex hc
    refine ⟨?_, fun _ _ => rfl, nofun⟩
    simp only [Core.enter]
    omega
  | @finish c c' p n x ran ex hf =>
    simp only at hex hun
    cases hf with
    | wait => exact ⟨hex, hun, hfr⟩
    | drain short hbt =>
      refine Clean.leave hex ?_
      rcases Bool.or_eq_true _ _ ▸ hbt with hb | ht
      · simp [hb]
      · simp [ht]
    | expire => exact Clean.leave hex rfl
    | trip short => exact Clean.leave hex (by simp)
    | abort _ hb ht hc =>
      have h2 : 2 ≤ parties := habort.resolve_left (by simp [aborted])
      have hpar := hS.parties_eq
      have hcount := hun hb ht
      simp only at hpar hcount
      refine ⟨?_, nofun, fun hn => ?_⟩ <;> simp only [Option.isSome_some, if_true] at *
      · omega
      · omega
  | broke => exact ⟨hex, nofun, fun hn => absurd hn (hbroke _ rfl)⟩

/-! ### Broken only when full -/

/-- A broken party has no room. -/
def Full (parties lost : ℕ) (a : Account) : Prop :=
  a.core.broken_ = true → parties ≤ a.core.count_ + lost

/-- Without timeouts and breaks from outside, only a full party breaks. -/
theorem Full.move (hS : Sound parties lost a) (h : Full parties lost a)
    (hx : k ≠ .finish true) (hbroke : ∀ x, k ≠ .broke x)
    (hm : Move loud drop mayThrow a k m a') : Full parties (lost + drop * m) a' := by
  have leave : ∀ c : Core, (c.broken_ = true → parties ≤ c.count_ + lost) →
      c.leave.broken_ = true → parties ≤ c.leave.count_ + lost := by
    intro c hc hb
    by_cases hl : c.resets_ - 1 = 0
    · rw [Core.leave_last hl] at hb
      cases hb
    · rw [Core.leave_other hl] at hb ⊢
      exact hc hb
  unfold Full at *
  cases hm with
  | same => exact h
  | pass => exact h
  | enter =>
    intro hb
    have := h hb
    simp only [Core.enter] at this ⊢
    omega
  | @finish c c' p n x ran ex hf =>
    have hpar := hS.parties_eq
    simp only at h hpar
    cases hf with
    | wait => exact h
    | drain short hbt =>
      refine leave _ fun _ => ?_
      rcases Bool.or_eq_true _ _ ▸ hbt with hb | ht
      · exact h hb
      · exact (hS.triggered ht).ge.trans (Nat.le_add_right _ _)
    | expire _ _ _ hx' => exact absurd (by rw [hx']) hx
    | trip short hb ht hc =>
      have := leave { c with triggered_ := true, broken_ := short } fun _ => by simp only; omega
      cases loud <;> exact this
    | abort _ hb ht hc =>
      intro _
      have hm : aborted (some false) = 1 := rfl
      simp only [hm]
      omega
  | broke => exact absurd rfl (hbroke _)

/-! ### A stuck account -/

/-- In a broken party somebody has left already. -/
def Spent (a : Account) : Prop := a.core.broken_ = true → a.inside < a.core.count_

theorem Spent.leave {c : Core} {p n : ℕ} (h : n < c.count_) : Spent ⟨c.leave, p, n⟩ := by
  intro hb
  by_cases hl : c.resets_ - 1 = 0
  · rw [Core.leave_last hl] at hb
    cases hb
  · rw [Core.leave_other hl]
    exact h

/-- Without breaks from outside, a party breaks only when its breaker leaves. -/
theorem Spent.move (hS : Sound parties lost a) (h : Spent a) (hbroke : ∀ x, k ≠ .broke x)
    (hm : Move loud 0 mayThrow a k m a') : Spent a' := by
  have hin := hS.inside_le
  have hle := hS.resets_le
  cases hm with
  | same => exact h
  | pass => exact h
  | enter =>
    intro hb
    have := h hb
    simp only [Core.enter] at this ⊢
    omega
  | @finish c c' p n x ran ex hf =>
    simp only at hin hle
    have hlt : n < c.count_ := by omega
    cases hf with
    | wait => exact h
    | drain => exact Spent.leave hlt
    | expire => exact Spent.leave hlt
    | trip => exact Spent.leave hlt
    | abort => exact fun _ => hlt
  | broke => exact absurd rfl (hbroke _)

/-- `resets_` exceeds the number of threads inside: nobody will ever run the reset block. -/
def Stuck (a : Account) : Prop := a.inside < a.core.resets_

theorem Stuck.leave {c : Core} {p n : ℕ} (h : n + 1 < c.resets_) : Stuck ⟨c.leave, p, n⟩ := by
  have hl : c.resets_ - 1 ≠ 0 := by omega
  rw [Core.leave_other hl]
  unfold Stuck
  simp only
  omega

/-- A stuck account stays stuck. -/
theorem Stuck.move (hS : Sound parties lost a) (h : Stuck a)
    (hm : Move loud drop mayThrow a k m a') : Stuck a' := by
  unfold Stuck at h
  have hle := hS.resets_le
  cases hm with
  | same => exact h
  | pass => exact h
  | enter =>
    unfold Stuck
    simp only [Core.enter] at *
    omega
  | finish hf =>
    cases hf with
    | wait => exact h
    | drain => exact Stuck.leave h
    | expire => exact Stuck.leave h
    | trip => exact Stuck.leave h
    | abort =>
      unfold Stuck
      simp only [Option.isSome_some, if_true] at *
      omega
  | broke => exact h

end Account

namespace Party

variable {ι α β Obj Ω : Type*} [Fintype ι]

/-- The account of a state. -/
def account (P : Party α β Obj Ω) (s : World ι α Obj) : Account :=
  ⟨P.core s.obj, count Pc.isAdmitted s.pc, count Pc.isInside s.pc⟩

@[simp] theorem account_core (P : Party α β Obj Ω) (s : World ι α Obj) :
    (P.account s).core = P.core s.obj := rfl

/-- How many commands threw. -/
def aborts (tr : List (Event ι α β)) : ℕ :=
  tr.countP fun e => match e with
    | .ran _ false => true
    | _ => false

omit [Fintype ι] in
@[simp] theorem aborts_append (tr es : List (Event ι α β)) :
    aborts (tr ++ es) = aborts tr + aborts es := by
  simp [aborts]

omit [Fintype ι] in
theorem aborts_of_cycle_none {es : List (Event ι α β)} (h : ∀ e ∈ es, e.cycle = none) :
    aborts es = 0 := by
  refine List.countP_eq_zero.mpr fun e he => ?_
  have := h e he
  cases e <;> simp_all [Event.cycle]

variable [DecidableEq ι]

omit [Fintype ι] in
theorem aborts_afterSection (s : World ι α Obj) (cyc : ℕ) (t : ι) (timed : Bool) (arg : α) (i : ℕ)
    (r : Section Obj β) : aborts (afterSection s cyc t timed arg i r).2 = aborted r.ran := by
  obtain ⟨o, ran, ex⟩ := r
  rcases ran with - | - | - <;> rcases ex with - | x <;> rfl

/-- Every move of the machine is a move of the account. -/
theorem Move.account {P : Party α β Obj Ω} {loud : Bool} {drop : ℕ} {mayThrow : Prop}
    (hP : P.Lawful loud drop mayThrow) {s s' : World ι α Obj} {k : Kind} {es : List (Event ι α β)}
    (hsd : (P.core s.obj).shutdown_ = false) (h : Move P s k es s') :
    Account.Move loud drop mayThrow (P.account s) k (aborts es) (P.account s') := by
  -- the moving thread leaves one control point and reaches another
  have hA : ∀ (t : ι) (o : Obj) (x : Pc α), count Pc.isAdmitted (s.goto t o x).pc +
      (s.pc t).isAdmitted.toNat = count Pc.isAdmitted s.pc + x.isAdmitted.toNat :=
    fun t o x => count_update _ _ t x
  have hI : ∀ (t : ι) (o : Obj) (x : Pc α), count Pc.isInside (s.goto t o x).pc +
      (s.pc t).isInside.toNat = count Pc.isInside s.pc + x.isInside.toNat :=
    fun t o x => count_update _ _ t x
  unfold Party.account
  cases h with
  | @call t timed arg hpc =>
    have h1 := hA t s.obj (.gate timed arg)
    have h2 := hI t s.obj (.gate timed arg)
    rw [hpc] at h1 h2
    simp only [Pc.isAdmitted, Pc.isInside, Bool.toNat_false, Nat.add_zero] at h1 h2
    rw [h1, h2]
    exact .same (g := (P.core s.obj).entryGate_) (Or.inr ⟨timed, rfl⟩) rfl
  | @quiet t x g _ hA1 hI1 hA2 hI2 _ _ hg hes =>
    have h1 := hA t (P.setGate s.obj g) x
    have h2 := hI t (P.setGate s.obj g) x
    rw [hA1, hA2] at h1
    rw [hI1, hI2] at h2
    simp only [Bool.toNat_false, Nat.add_zero] at h1 h2
    rw [h1, h2, aborts_of_cycle_none hes, World.goto_obj, hP.core_setGate]
    exact .same (Or.inl rfl) hg
  | @pass t timed arg g hpc hpos hg =>
    have h1 := hA t (P.setGate s.obj g) (.admitted timed arg)
    have h2 := hI t (P.setGate s.obj g) (.admitted timed arg)
    have hA1 : (s.pc t).isAdmitted = false := by rcases hpc with h | h <;> rw [h] <;> rfl
    have hI1 : (s.pc t).isInside = false := by rcases hpc with h | h <;> rw [h] <;> rfl
    rw [hA1] at h1
    rw [hI1] at h2
    simp only [Pc.isAdmitted, Pc.isInside, Bool.toNat_false, Bool.toNat_true, Nat.add_zero] at h1 h2
    rw [h1, h2, World.goto_obj, hP.core_setGate]
    exact .pass hpos hg
  | @enter t timed arg o hpc ho hc =>
    have h1 := hA t o (.waiting timed arg (P.core s.obj).count_)
    have h2 := hI t o (.waiting timed arg (P.core s.obj).count_)
    rw [hpc] at h1 h2
    simp only [Pc.isAdmitted, Pc.isInside, Bool.toNat_false, Bool.toNat_true, Nat.add_zero] at h1 h2
    rw [← h1, h2, World.goto_obj, hc]
    exact .enter
  | @finish t timed expired arg i ω hpc =>
    have hf := hP.core_finish s.obj (timed && expired) ω arg i hsd
    rw [aborts_afterSection]
    generalize P.finish s.obj (timed && expired) ω arg i = r at hf ⊢
    have hin : 0 < count Pc.isInside s.pc := count_pos (i := t) (by rw [hpc]; rfl)
    obtain ⟨n, hn⟩ := Nat.exists_eq_succ_of_ne_zero hin.ne'
    have h1 := hA t r.obj (if r.exit.isSome then .idle else .waiting timed arg i)
    have h2 := hI t r.obj (if r.exit.isSome then .idle else .waiting timed arg i)
    rw [hpc] at h1 h2
    have hA2 : (if r.exit.isSome then Pc.idle else Pc.waiting timed arg i).isAdmitted = false := by
      split_ifs <;> rfl
    rw [hA2] at h1
    simp only [Pc.isAdmitted, Bool.toNat_false, Nat.add_zero] at h1
    have hI2 : count Pc.isInside (afterSection s (P.core s.obj).synch_ t timed arg i r).1.pc =
        if (r.exit.map Exit.isValue).isSome then n else n + 1 := by
      simp only [afterSection, Option.isSome_map]
      split_ifs at h2 ⊢ <;> simp only [Pc.isInside, Bool.toNat_false, Bool.toNat_true] at h2 <;> omega
    rw [hI2, hn]
    simp only [afterSection, World.goto_obj, h1]
    exact .finish hf
  | @broke t k hpc =>
    have h1 := hA t (P.breakUp s.obj) .idle
    have h2 := hI t (P.breakUp s.obj) .idle
    rw [hpc] at h1 h2
    simp only [Pc.isAdmitted, Pc.isInside, Bool.toNat_false, Nat.add_zero] at h1 h2
    rw [h1, h2, World.goto_obj, hP.core_breakUp]
    exact .broke

end Party

/-! ## Runs -/

/-- No thread holds a permit or is inside. -/
def World.Empty {ι α Obj : Type*} (s : World ι α Obj) : Prop :=
  ∀ t, (s.pc t).isAdmitted = false ∧ (s.pc t).isInside = false

instance {ι α Obj : Type*} [Fintype ι] (s : World ι α Obj) : Decidable s.Empty :=
  inferInstanceAs (Decidable (∀ _, _))

/-- Not an action of `waitReset`. -/
def Act.noReset {ι α Ω : Type*} : Act ι α Ω → Bool
  | .waitReset _ | .wakeReset _ _ => false
  | _ => true

/-- Not a timed call, and not an action of `waitReset`. -/
def Act.untimed {ι α Ω : Type*} : Act ι α Ω → Bool
  | .call _ timed _ => !timed
  | .waitReset _ | .wakeReset _ _ => false
  | _ => true

/-- The fields of an unused party of this size, and its gate wide open. -/
structure Core.AsNew (parties : ℕ) (c : Core) : Prop where
  count : c.count_ = 0
  resets : c.resets_ = 0
  broken : c.broken_ = false
  triggered : c.triggered_ = false
  permits : c.entryGate_.permits_ = parties

namespace Party

section Runs

variable {ι α β Obj Ω : Type*} [Fintype ι] [DecidableEq ι] {P : Party α β Obj Ω} {loud : Bool}
  {drop : ℕ} {mayThrow : Prop} {o : Obj} {parties : ℕ} {s s' : World ι α Obj}
  {π : List (Taken (World ι α Obj) (Act ι α Ω) (Event ι α β))}

omit [DecidableEq ι] in
theorem account_init (ho : P.core o = Core.new parties) :
    P.account (⟨o, fun _ => .idle⟩ : World ι α Obj) = ⟨Core.new parties, 0, 0⟩ := by
  simp [account, ho, count, Pc.isAdmitted, Pc.isInside]

/-- The starting point of every invariant of the account. -/
theorem account_init_of {I : Account → Prop} (ho : P.core o = Core.new parties)
    (hI : I ⟨Core.new parties, 0, 0⟩) :
    I (P.account ((P.machine o).init : World ι α Obj)) := by
  rw [show (P.machine o).init = (⟨o, fun _ => .idle⟩ : World ι α Obj) from rfl, account_init ho]
  exact hI

omit [DecidableEq ι] in
theorem empty_iff : s.Empty ↔ (P.account s).admitted = 0 ∧ (P.account s).inside = 0 := by
  simp only [World.Empty, account, count_eq_zero, forall_and]

variable (hP : P.Lawful loud drop mayThrow) (hd : drop ≤ 1) (ho : P.core o = Core.new parties)

include hP hd ho

/-- Every run keeps the account sound. -/
theorem run_sound (hr : Run (P.machine o) π s) :
    (P.account s).Sound parties (drop * aborts (events π)) := by
  refine inv_of_moves (D := fun _ _ => True) hP (by rw [ho]; rfl)
    (I := fun tr s => (P.account s).Sound parties (drop * aborts tr)) ?_ ?_ hr ?_
  · exact account_init_of ho (Account.Sound.new parties)
  · intro tr s k es s' _ hsd hS hm
    rw [aborts_append, Nat.mul_add]
    exact hS.move hd (hm.account hP hsd)
  · exact fun x _ => allowed_true _ _

/-- In an empty party whose account is exact, everything is as new, but for lost permits. -/
theorem asNew_iff (hr : Run (P.machine o) π s) (hc : (P.account s).Clean) (he : s.Empty) :
    (P.core s.obj).AsNew parties ↔ drop * aborts (events π) = 0 ∧ parties < 2 ^ 31 := by
  obtain ⟨hA, hI⟩ := empty_iff (P := P).mp he
  obtain ⟨h1, h2, h3⟩ := hc.fresh hI
  have hp := (run_sound hP hd ho hr).permits
  have hx := hc.exact
  have hle := toInt_le parties
  simp only [account_core] at h1 h2 h3 hp hx
  rw [hA, h1] at hp
  rw [← toInt_eq_iff]
  constructor
  · intro h
    have := h.permits
    omega
  · rintro ⟨h0, hpar⟩
    exact ⟨h1, hx.trans hI, h2, h3, by omega⟩

omit hd in
/-- A command that cannot throw never did. -/
theorem run_aborts (hthrow : ¬ mayThrow) (hr : Run (P.machine o) π s) : aborts (events π) = 0 := by
  refine inv_of_moves (I := fun tr _ => aborts tr = 0) (D := fun _ _ => True) hP (by rw [ho]; rfl) rfl
    ?_ hr fun _ _ => allowed_true _ _
  intro tr s k es s' _ hsd h0 hm
  rw [aborts_append, h0, (hm.account hP hsd).aborted_eq_zero hthrow]

end Runs

/-! ## Untimed calls only -/

section Untimed

variable {ι α β Obj Ω : Type*} [DecidableEq ι] {P : Party α β Obj Ω} {s s' : World ι α Obj}
  {k : Kind} {es : List (Event ι α β)}

theorem Move.untimed (hm : Move P s k es s') (hT : ∀ t, (s.pc t).isTimed = false)
    (hk : k ≠ .call true) : ∀ t, (s'.pc t).isTimed = false := by
  have goto : ∀ (t : ι) (o : Obj) (x : Pc α), x.isTimed = false →
      ∀ u, ((s.goto t o x).pc u).isTimed = false := by
    intro t o x hx u
    by_cases hu : u = t
    · rw [hu, World.goto_pc_self, hx]
    · rw [World.goto_pc_of_ne _ _ _ _ hu, hT u]
  cases hm with
  | @call t timed arg hpc =>
    cases timed with
    | true => exact absurd rfl hk
    | false => exact goto _ _ _ rfl
  | @quiet t x _ _ _ _ _ _ hx =>
    refine goto _ _ _ ?_
    by_contra h
    have := hx (by simpa using h)
    rw [hT t] at this
    cases this
  | @pass t timed arg _ hpc =>
    refine goto _ _ _ ?_
    have := hT t
    rcases hpc with h | h <;> rwa [h] at this
  | @enter t timed arg o hpc =>
    refine goto _ _ _ ?_
    have := hT t
    rwa [hpc] at this
  | @finish t timed expired arg i ω hpc =>
    refine goto _ _ _ ?_
    have := hT t
    rw [hpc] at this
    split_ifs
    · rfl
    · exact this
  | broke => exact goto _ _ _ rfl

theorem Move.not_expired (hm : Move P s k es s') (hT : ∀ t, (s.pc t).isTimed = false) :
    k ≠ .finish true := by
  rintro rfl
  generalize hk : Kind.finish true = k at hm
  cases hm with
  | @finish t timed expired arg i ω hpc =>
    have := hT t
    rw [hpc, Pc.isTimed] at this
    simp [this] at hk
  | call | quiet | pass | enter | broke => cases hk

variable [Fintype ι] {loud : Bool} {drop : ℕ} {mayThrow : Prop} {o : Obj} {parties : ℕ}
  {π : List (Taken (World ι α Obj) (Act ι α Ω) (Event ι α β))}

/-- What holds when all calls are untimed and nobody calls `waitReset`. -/
structure Calm (P : Party α β Obj Ω) (drop parties : ℕ) (tr : List (Event ι α β))
    (s : World ι α Obj) : Prop where
  untimed : ∀ t, (s.pc t).isTimed = false
  sound : (P.account s).Sound parties (drop * aborts tr)
  full : (P.account s).Full parties (drop * aborts tr)
  clean : aborts tr = 0 ∨ 2 ≤ parties → (P.account s).Clean

/-- Only a full party breaks, so nobody enters a broken one. -/
theorem Calm.move (hP : P.Lawful loud drop mayThrow) (hd : drop ≤ 1) {tr : List (Event ι α β)}
    (h : Calm P drop parties tr s) (hsd : (P.core s.obj).shutdown_ = false)
    (hcall : k ≠ .call true) (hbroke : ∀ x, k ≠ .broke x) (hm : Move P s k es s') :
    Calm P drop parties (tr ++ es) s' := by
  have hacc := hm.account hP hsd
  refine ⟨hm.untimed h.untimed hcall, ?_, ?_, fun hab => ?_⟩
  · rw [aborts_append, Nat.mul_add]
    exact h.sound.move hd hacc
  · rw [aborts_append, Nat.mul_add]
    exact h.full.move h.sound (hm.not_expired h.untimed) hbroke hacc
  · rw [aborts_append] at hab
    refine (h.clean (by omega)).move h.sound ?_ (fun x hx => absurd hx (hbroke x)) (by omega) hacc
    rintro rfl
    by_contra hb
    have hfull := h.full (by simpa using hb)
    obtain ⟨c, p, n, hs, -⟩ := hacc.enter_inv
    rw [hs] at hfull
    exact (hs ▸ h.sound).not_full hfull

/-- Timed calls and `waitReset` apart, the account stays exact until a command throws in a party of
one. -/
theorem run_calm (hP : P.Lawful loud drop mayThrow) (hd : drop ≤ 1)
    (ho : P.core o = Core.new parties) (hr : Run (P.machine o) π s)
    (hC : Meets (fun _ a => a.untimed) π) : Calm P drop parties (events π) s := by
  refine inv_of_moves (D := fun _ k => k = .call false ∨ k = .enter) hP (by rw [ho]; rfl) ?_ ?_ hr
    (hC.mono ?_)
  · exact ⟨fun _ => rfl, account_init_of ho (Account.Sound.new parties),
      account_init_of (I := Account.Full parties 0) ho nofun,
      fun _ => account_init_of ho (Account.Clean.new parties)⟩
  · intro tr s k es s' hk hsd h hm
    refine h.move hP hd hsd ?_ ?_ hm
    · rintro rfl; simp [Kind.Permitted] at hk
    · rintro x rfl; simp [Kind.Permitted] at hk
  · intro s a ha
    cases a <;> simp_all [Act.untimed, Allowed]

end Untimed

/-! ## Entries into a broken cycle -/

section Unbroken

variable {ι α β Obj Ω : Type*} [DecidableEq ι] {P : Party α β Obj Ω} {s s' : World ι α Obj}

/-- The step is not an entry into a broken cycle. -/
def unbroken (P : Party α β Obj Ω) (s : World ι α Obj) : Act ι α Ω → Bool
  | .enter _ _ _ => !(P.core s.obj).broken_
  | _ => true

variable [Fintype ι] {loud : Bool} {mayThrow : Prop} {o : Obj} {parties : ℕ}
  {π : List (Taken (World ι α Obj) (Act ι α Ω) (Event ι α β))}
  (hP : P.Lawful loud 0 mayThrow) (ho : P.core o = Core.new parties)

include hP ho

/-- Without `waitReset` and throwing commands, the account is exact while no thread enters a broken
cycle. -/
theorem run_clean (hthrow : ¬ mayThrow) (hr : Run (P.machine o) π s)
    (hC : Meets (fun s a => a.noReset ∧ P.unbroken s a) π) : (P.account s).Clean := by
  refine (inv_of_moves (I := fun _ s => (P.account s).Sound parties 0 ∧ (P.account s).Clean)
    (D := fun s k => (∃ x, k = .call x) ∨ (k = .enter ∧ (P.core s.obj).broken_ = false)) hP
    (by rw [ho]; rfl) ?_ ?_ hr (hC.mono ?_)).2
  · exact ⟨account_init_of ho (Account.Sound.new parties),
      account_init_of ho (Account.Clean.new parties)⟩
  · rintro tr s k es s' hk hsd ⟨hS, hCl⟩ hm
    have hacc := hm.account hP hsd
    refine ⟨by simpa using hS.move (Nat.zero_le 1) hacc, hCl.move hS ?_ ?_ ?_ hacc⟩
    · rintro rfl
      simpa [Kind.Permitted] using hk
    · rintro x rfl
      simp [Kind.Permitted] at hk
    · exact Or.inl (hacc.aborted_eq_zero hthrow)
  · intro s a ha
    cases a <;> simp_all [Act.noReset, Allowed, unbroken]

/-- Without `waitReset`, an entry into a broken cycle leaves the account stuck for good. -/
theorem run_stuck (hr : Run (P.machine o) π s) (hC : Meets (fun _ a => a.noReset) π)
    (hbad : ¬ Meets (fun s a => P.unbroken s a) π) : (P.account s).Stuck := by
  have hD : ∀ (s : World ι α Obj) (a : Act ι α Ω), a.noReset →
      Allowed (fun _ k => ∀ x, k ≠ .broke x) s a := by
    intro s a ha
    cases a <;> simp_all [Act.noReset, Allowed]
  have hspent : ∀ (π : List (Taken (World ι α Obj) (Act ι α Ω) (Event ι α β))) (s : World ι α Obj),
      Run (P.machine o) π s → Meets (fun _ a => a.noReset) π →
      (P.core s.obj).shutdown_ = false ∧ (P.account s).Spent := by
    intro π s hr hC
    refine (inv_of_moves (I := fun _ s => (P.account s).Sound parties 0 ∧
      (P.core s.obj).shutdown_ = false ∧ (P.account s).Spent)
      (D := fun _ k => ∀ x, k ≠ .broke x) hP (by rw [ho]; rfl) ?_ ?_ hr (hC.mono hD)).2
    · exact ⟨account_init_of ho (Account.Sound.new parties),
        account_init_of (I := fun a => a.core.shutdown_ = false) ho rfl,
        account_init_of (I := Account.Spent) ho nofun⟩
    · rintro tr s k es s' hk hsd ⟨hS, -, hsp⟩ hm
      have hacc := hm.account hP hsd
      refine ⟨by simpa using hS.move (Nat.zero_le 1) hacc, (hm.frame hP hsd).1,
        hsp.move hS (fun x hx => ?_) hacc⟩
      subst hx
      exact hk x rfl
  induction hr with
  | start => simp at hbad
  | @snoc π s s' a es hr hstep ih =>
    obtain ⟨hCπ, ha⟩ := meets_snoc.mp hC
    obtain ⟨hsd, hsp⟩ := hspent π s hr hCπ
    have hS : (P.account s).Sound parties 0 := by
      simpa using run_sound hP (Nat.zero_le 1) ho hr
    by_cases hπ : Meets (fun s a => P.unbroken s a) π
    · -- the entry is this step
      have hlast : ¬ P.unbroken s a := fun h => hbad (meets_snoc.mpr ⟨hπ, h⟩)
      cases a with
      | enter t expired ω =>
        have hb : (P.core s.obj).broken_ = true := by simpa [unbroken] using hlast
        obtain ⟨s₁, e, x, es', h₁, h₂, -⟩ := step_enter_moves hP hsd hstep
        have hacc₁ := h₁.account hP hsd
        have hS₁ : (P.account s₁).Sound parties 0 := by simpa using hS.move (Nat.zero_le 1) hacc₁
        have hstuck : (P.account s₁).Stuck := by
          have hlt := hsp hb
          obtain ⟨c, p, n, hs, hs₁⟩ := hacc₁.enter_inv
          rw [hs] at hlt
          rw [hs₁]
          exact Nat.succ_lt_succ hlt
        exact hstuck.move hS₁ (h₂.account hP (h₁.frame hP hsd).1)
      | _ => exact absurd rfl hlast
    · -- it was an earlier one
      have hstuck := ih hCπ hπ
      have hI : ∀ (_ : List (Event ι α β)) (s : World ι α Obj) (k : Kind) (es : List (Event ι α β))
          (s' : World ι α Obj), k.Permitted (fun _ _ => True) s → (P.core s.obj).shutdown_ = false →
          (P.account s).Sound parties 0 ∧ (P.account s).Stuck → Move P s k es s' →
          (P.account s').Sound parties 0 ∧ (P.account s').Stuck := by
        rintro - s k es s' - hsd ⟨hS, hst⟩ hm
        have hacc := hm.account hP hsd
        exact ⟨by simpa using hS.move (Nat.zero_le 1) hacc, hst.move hS hacc⟩
      exact (step_keeps (I := fun _ s => (P.account s).Sound parties 0 ∧ (P.account s).Stuck) hP hI []
        hsd (allowed_true _ _) ⟨hS, hstuck⟩ hstep).2.2

end Unbroken

end Party

end Lasagne.Daf
