import Lasagne.Daf.PartyAccount

/-!
# Lasagne.Daf.PartyReset — `waitReset`, in a party of either kind

A call of `waitReset` waits while the party is busy and `synch_` is what it read.  When its wait times
out it sets `broken_` without looking at `synch_` again, so the cycle it breaks need not be the one it
waited for.

* `run_vacant`: a party with `count_ = 0` is not busy.
* `run_breaksEntered`: as long as timed-out calls find `synch_` as they read it (`sameCycle`), they find a cycle
  that was entered, and a party with `count_ = 0` is not broken.
* `run_breaksOwn`: where the account is kept exact, they find a thread inside.
-/

namespace Lasagne.Daf

open Lasagne.Trans

/-- What a section does to the cycle: it goes on with somebody in it, or the next one begins. -/
theorem Finished.advance {loud : Bool} {drop : ℕ} {mayThrow : Prop} {x : Bool} {c c' : Core} {ran ex : Option Bool}
    (h : Finished loud drop mayThrow x c ran ex c') (hd : drop ≤ 1) (hpos : 0 < c.count_)
    (hth : drop * aborted ran = 0 ∨ 2 ≤ c.parties_) :
    (c'.synch_ = c.synch_ ∧ 0 < c'.count_) ∨ c'.synch_ = c.synch_ + 1 := by
  have leave : ∀ d : Core, 0 < d.count_ →
      (d.leave.synch_ = d.synch_ ∧ 0 < d.leave.count_) ∨ d.leave.synch_ = d.synch_ + 1 := by
    intro d hpos
    by_cases hl : d.resets_ - 1 = 0
    · rw [Core.leave_last hl]
      exact Or.inr rfl
    · rw [Core.leave_other hl]
      exact Or.inl ⟨rfl, hpos⟩
  cases h with
  | wait => exact Or.inl ⟨rfl, hpos⟩
  | drain short => exact leave { c with broken_ := c.broken_ || short } hpos
  | expire => exact leave { c with broken_ := true } hpos
  | trip short => exact leave { c with triggered_ := true, broken_ := short } hpos
  | abort _ _ _ hc =>
    have h2 : drop = 0 ∨ 2 ≤ c.parties_ := hth.imp_left fun h => by simpa [aborted] using h
    refine Or.inl ⟨rfl, ?_⟩
    simp only
    omega

/-- What a section leaves broken is still in its cycle. -/
theorem Finished.idle {loud : Bool} {drop : ℕ} {mayThrow : Prop} {x : Bool} {c c' : Core} {ran ex : Option Bool}
    (h : Finished loud drop mayThrow x c ran ex c') (hd : drop ≤ 1) (hpos : 0 < c.count_)
    (hth : drop * aborted ran = 0 ∨ 2 ≤ c.parties_) (h0 : c'.count_ = 0) : c'.broken_ = false := by
  have leave : ∀ d : Core, 0 < d.count_ → d.leave.count_ = 0 → d.leave.broken_ = false := by
    intro d hpos h0
    by_cases hl : d.resets_ - 1 = 0
    · rw [Core.leave_last hl]
    · rw [Core.leave_other hl] at h0
      exact absurd h0 hpos.ne'
  cases h with
  | wait => exact absurd h0 hpos.ne'
  | drain short => exact leave { c with broken_ := c.broken_ || short } hpos h0
  | expire => exact leave { c with broken_ := true } hpos h0
  | trip short => exact leave { c with triggered_ := true, broken_ := short } hpos h0
  | abort _ _ _ hc =>
    have h2 : drop = 0 ∨ 2 ≤ c.parties_ := hth.imp_left fun h => by simpa [aborted] using h
    simp only at h0
    omega

/-- The next cycle begins with nobody in it. -/
theorem Core.leave_count {c : Core} (h : c.leave.synch_ ≠ c.synch_) :
    c.resets_ - 1 = 0 ∧ c.leave.count_ = 0 := by
  by_cases hl : c.resets_ - 1 = 0
  · rw [Core.leave_last hl]
    exact ⟨hl, rfl⟩
  · rw [Core.leave_other hl] at h
    exact absurd rfl h

theorem Finished.count_eq_zero {loud : Bool} {drop : ℕ} {mayThrow : Prop} {x : Bool} {c c' : Core}
    {ran ex : Option Bool} (h : Finished loud drop mayThrow x c ran ex c')
    (hne : c'.synch_ ≠ c.synch_) : c'.count_ = 0 := by
  cases h with
  | wait => exact absurd rfl hne
  | drain => exact (Core.leave_count hne).2
  | expire => exact (Core.leave_count hne).2
  | trip => exact (Core.leave_count hne).2
  | abort => exact absurd rfl hne

namespace Party

/-- `busy` on the sections of a class: after the reset block the party is not busy. -/
structure Vacates {α β Obj Ω : Type*} (P : Party α β Obj Ω) : Prop where
  busy_setGate : ∀ o g, P.busy (P.setGate o g) = P.busy o
  busy_breakUp : ∀ o, P.busy (P.breakUp o) = P.busy o
  busy_finish : ∀ o expired ω arg i, (P.core o).shutdown_ = false →
    (P.core (P.finish o expired ω arg i).obj).synch_ ≠ (P.core o).synch_ →
    P.busy (P.finish o expired ω arg i).obj = false

variable {ι α β Obj Ω : Type*} [DecidableEq ι] {P : Party α β Obj Ω} {loud : Bool} {drop : ℕ}
  {mayThrow : Prop} {o : Obj} {parties lost : ℕ} {s s' : World ι α Obj} {k : Kind}
  {tr es : List (Event ι α β)}

/-- A party that nobody entered is not busy. -/
def Vacant (P : Party α β Obj Ω) (s : World ι α Obj) : Prop :=
  (P.core s.obj).count_ = 0 → P.busy s.obj = false

/-- Every call of `waitReset` that waits has read `synch_`; if that is still what it read, the cycle
has been entered. -/
def Watched (P : Party α β Obj Ω) (s : World ι α Obj) : Prop :=
  ∀ t k, s.pc t = .resetting k →
    k ≤ (P.core s.obj).synch_ ∧ (k = (P.core s.obj).synch_ → 0 < (P.core s.obj).count_)

/-- A timed-out `waitReset` finds `synch_` as it read it. -/
def sameCycle (P : Party α β Obj Ω) (s : World ι α Obj) : Act ι α Ω → Bool
  | .wakeReset t .timedOut =>
    match s.pc t with
    | .resetting k => (P.core s.obj).synch_ = k
    | _ => true
  | _ => true

/-- A timed-out `waitReset` finds `synch_` as it read it, in a cycle that was entered. -/
def breaksEntered (P : Party α β Obj Ω) (s : World ι α Obj) (a : Act ι α Ω) : Prop :=
  ∀ t k, a = .wakeReset t .timedOut → s.pc t = .resetting k →
    (P.core s.obj).synch_ = k ∧ 0 < (P.core s.obj).count_

/-- A timed-out `waitReset` finds `synch_` as it read it and a thread inside. -/
def breaksOwn (P : Party α β Obj Ω) (s : World ι α Obj) (a : Act ι α Ω) : Prop :=
  ∀ t k, a = .wakeReset t .timedOut → s.pc t = .resetting k →
    (P.core s.obj).synch_ = k ∧ ∃ u, (s.pc u).isInside = true

omit [DecidableEq ι] in
theorem sameCycle_iff {a : Act ι α Ω} : P.sameCycle s a = true ↔
    ∀ t k, a = .wakeReset t .timedOut → s.pc t = .resetting k → (P.core s.obj).synch_ = k := by
  cases a with
  | wakeReset t r =>
    cases r with
    | woken => exact ⟨fun _ _ _ ha => (by cases ha), fun _ => rfl⟩
    | timedOut =>
      simp only [sameCycle]
      split
      · next k hpc =>
        refine ⟨fun h u k' ha hpc' => ?_, fun h => by simpa using h t k rfl hpc⟩
        cases ha
        obtain rfl : k = k' := by simpa [hpc] using hpc'
        simpa using h
      · next hpc =>
        refine ⟨fun _ u k ha hpc' => ?_, fun _ => rfl⟩
        cases ha
        exact absurd hpc' (hpc k)
  | call | acquire | resume | enter | wake | waitReset => exact ⟨fun _ _ _ ha => (by cases ha), fun _ => rfl⟩

omit [DecidableEq ι] in
theorem sameCycle_of_breaksEntered {a : Act ι α Ω} (h : P.breaksEntered s a) : P.sameCycle s a = true :=
  sameCycle_iff.mpr fun t k ha hpc => (h t k ha hpc).1

omit [DecidableEq ι] in
theorem sameCycle_of_breaksOwn {a : Act ι α Ω} (h : P.breaksOwn s a) : P.sameCycle s a = true :=
  sameCycle_iff.mpr fun t k ha hpc => (h t k ha hpc).1

/-! ## Moves -/

theorem Watched.goto (h : Watched P s) (t : ι) (o : Obj) {x : Pc α}
    (hx : ∀ k, x = .resetting k → k ≤ (P.core o).synch_ ∧ (k = (P.core o).synch_ → 0 < (P.core o).count_))
    (ho : ((P.core o).synch_ = (P.core s.obj).synch_ ∧
        (0 < (P.core s.obj).count_ → 0 < (P.core o).count_)) ∨
      (P.core o).synch_ = (P.core s.obj).synch_ + 1) : Watched P (s.goto t o x) := by
  intro u k hu
  rw [World.goto_obj]
  by_cases hut : u = t
  · subst hut
    rw [World.goto_pc_self] at hu
    exact hx k hu
  · rw [World.goto_pc_of_ne _ _ _ _ hut] at hu
    obtain ⟨h1, h2⟩ := h u k hu
    rcases ho with ⟨hsy, hpos⟩ | hsy
    · rw [hsy]
      exact ⟨h1, fun hk => hpos (h2 hk)⟩
    · rw [hsy]
      refine ⟨by omega, fun hk => ?_⟩
      omega

variable [Fintype ι]

omit [DecidableEq ι] in
theorem count_pos_of_inside (hS : (P.account s).Sound parties lost) {t : ι}
    (ht : (s.pc t).isInside = true) : 0 < (P.core s.obj).count_ := by
  have h1 := hS.inside_le
  have h2 := hS.resets_le
  have h3 : 0 < count Pc.isInside s.pc := count_pos (i := t) ht
  simp only [account] at h1 h2
  omega

theorem Vacant.move (hP : P.Lawful loud drop mayThrow) (hV : P.Vacates) (hd : drop ≤ 1)
    (h : Vacant P s) (hS : (P.account s).Sound parties lost) (hsd : (P.core s.obj).shutdown_ = false)
    (hth : drop * aborts es = 0 ∨ 2 ≤ parties) (hm : Move P s k es s') : Vacant P s' := by
  unfold Vacant at h ⊢
  cases hm with
  | call => exact h
  | quiet => rwa [World.goto_obj, hP.core_setGate, hV.busy_setGate]
  | pass => rwa [World.goto_obj, hP.core_setGate, hV.busy_setGate]
  | enter _ _ hc =>
    rw [World.goto_obj, hc]
    exact fun h0 => absurd h0 (Nat.succ_ne_zero _)
  | broke => rwa [World.goto_obj, hP.core_breakUp, hV.busy_breakUp]
  | @finish t timed expired arg i ω hpc =>
    rw [aborts_afterSection] at hth
    intro h0
    have hadv := (hP.core_finish s.obj (timed && expired) ω arg i hsd).advance hd
      (count_pos_of_inside hS (t := t) (by rw [hpc]; rfl)) (hS.parties_eq ▸ hth)
    refine hV.busy_finish s.obj _ ω arg i hsd ?_
    rcases hadv with ⟨-, hpos⟩ | hsy
    · exact absurd h0 hpos.ne'
    · omega

theorem Watched.move (hP : P.Lawful loud drop mayThrow) (hd : drop ≤ 1) (h : Watched P s)
    (hV : Vacant P s) (hS : (P.account s).Sound parties lost) (hsd : (P.core s.obj).shutdown_ = false)
    (hth : drop * aborts es = 0 ∨ 2 ≤ parties) (hm : Move P s k es s') : Watched P s' := by
  cases hm with
  | call => exact h.goto _ _ nofun (Or.inl ⟨rfl, id⟩)
  | @quiet t x g _ _ _ _ _ _ hx =>
    refine h.goto _ _ ?_ (Or.inl ?_) <;> rw [hP.core_setGate]
    · intro k hk
      obtain ⟨hbusy, hsy⟩ := hx k hk
      refine ⟨hsy.ge, fun _ => Nat.pos_of_ne_zero fun h0 => ?_⟩
      rw [hV h0] at hbusy
      cases hbusy
    · exact ⟨rfl, id⟩
  | pass =>
    refine h.goto _ _ nofun (Or.inl ?_)
    rw [hP.core_setGate]
    exact ⟨rfl, id⟩
  | enter _ _ hc =>
    refine h.goto _ _ nofun (Or.inl ?_)
    rw [hc]
    exact ⟨rfl, fun _ => Nat.succ_pos _⟩
  | broke =>
    refine h.goto _ _ nofun (Or.inl ?_)
    rw [hP.core_breakUp]
    exact ⟨rfl, id⟩
  | @finish t timed expired arg i ω hpc =>
    rw [aborts_afterSection] at hth
    have hadv := (hP.core_finish s.obj (timed && expired) ω arg i hsd).advance hd
      (count_pos_of_inside hS (t := t) (by rw [hpc]; rfl)) (hS.parties_eq ▸ hth)
    refine h.goto _ _ ?_ (hadv.imp_left fun ⟨hsy, hpos⟩ => ⟨hsy, fun _ => hpos⟩)
    intro k hk
    split_ifs at hk

/-- A party that nobody entered is not broken. -/
def Idle (P : Party α β Obj Ω) (s : World ι α Obj) : Prop :=
  (P.core s.obj).count_ = 0 → (P.core s.obj).broken_ = false

theorem Idle.move (hP : P.Lawful loud drop mayThrow) (hd : drop ≤ 1) (h : Idle P s)
    (hW : Watched P s) (hS : (P.account s).Sound parties lost) (hsd : (P.core s.obj).shutdown_ = false)
    (hth : drop * aborts es = 0 ∨ 2 ≤ parties) (hbroke : ∀ x, k = .broke x → (P.core s.obj).synch_ = x)
    (hm : Move P s k es s') : Idle P s' := by
  unfold Idle at h ⊢
  cases hm with
  | call => exact h
  | quiet => rwa [World.goto_obj, hP.core_setGate]
  | pass => rwa [World.goto_obj, hP.core_setGate]
  | enter _ _ hc =>
    rw [World.goto_obj, hc]
    exact fun h0 => absurd h0 (Nat.succ_ne_zero _)
  | @broke t k hpc =>
    rw [World.goto_obj, hP.core_breakUp]
    exact fun h0 => absurd h0 ((hW t k hpc).2 (hbroke k rfl).symm).ne'
  | @finish t timed expired arg i ω hpc =>
    rw [aborts_afterSection] at hth
    exact (hP.core_finish s.obj (timed && expired) ω arg i hsd).idle hd
      (count_pos_of_inside hS (t := t) (by rw [hpc]; rfl)) (hS.parties_eq ▸ hth)

/-! ## Runs -/

variable {π : List (Taken (World ι α Obj) (Act ι α Ω) (Event ι α β))}
  (hP : P.Lawful loud drop mayThrow) (hV : P.Vacates) (hd : drop ≤ 1)
  (ho : P.core o = Core.new parties) (hb : P.busy o = false)

include hP hV hd ho hb

/-- Unless a command threw in a party of one and was taken off `count_`, a party with `count_ = 0` is not busy. -/
theorem run_vacant (hr : Run (P.machine o) π s) (hth : drop * aborts (events π) = 0 ∨ 2 ≤ parties) :
    Vacant P s := by
  refine (inv_of_moves (D := fun _ _ => True) hP (by rw [ho]; rfl)
    (I := fun tr s => (P.account s).Sound parties (drop * aborts tr) ∧
      (drop * aborts tr = 0 ∨ 2 ≤ parties → Vacant P s)) ?_ ?_ hr fun _ _ => allowed_true _ _).2 hth
  · exact ⟨account_init_of ho (Account.Sound.new parties), fun _ _ => hb⟩
  · rintro tr s k es s' - hsd ⟨hS, h⟩ hm
    rw [aborts_append, Nat.mul_add]
    exact ⟨hS.move hd (hm.account hP hsd),
      fun hth => (h (by omega)).move hP hV hd hS hsd (by omega) hm⟩

/-- What `waitReset` relies on. -/
structure Guarded (P : Party α β Obj Ω) (s : World ι α Obj) : Prop where
  vacant : Vacant P s
  watched : Watched P s
  idle : Idle P s

/-- Where timed-out calls find `synch_` as they read it, `waitReset` has what it relies on.  Where nobody enters a
broken cycle either (`U`), the account is exact, unless a command threw in a party of one. -/
theorem run_guarded {U : Prop} (hr : Run (P.machine o) π s)
    (hC : Meets (fun s a => P.sameCycle s a ∧ (U → P.unbroken s a)) π)
    (hth : drop * aborts (events π) = 0 ∨ 2 ≤ parties) :
    Guarded P s ∧ (U → aborts (events π) = 0 ∨ 2 ≤ parties → (P.account s).Clean) := by
  refine (inv_of_moves (D := fun s k => (∀ x, k = .broke x → (P.core s.obj).synch_ = x) ∧
      (U → k = .enter → (P.core s.obj).broken_ = false)) hP (by rw [ho]; rfl)
    (I := fun tr s => (P.account s).Sound parties (drop * aborts tr) ∧ (drop * aborts tr = 0 ∨ 2 ≤ parties →
      Guarded P s ∧ (U → aborts tr = 0 ∨ 2 ≤ parties → (P.account s).Clean))) ?_ ?_ hr (hC.mono ?_)).2 hth
  · refine ⟨account_init_of ho (Account.Sound.new parties), fun _ => ⟨⟨fun _ => hb, fun _ _ hk => (by cases hk), ?_⟩,
      fun _ _ => account_init_of ho (Account.Clean.new parties)⟩⟩
    exact fun _ => congrArg Core.broken_ ho
  · rintro tr s k es s' hk hsd ⟨hS, h⟩ hm
    rw [aborts_append, Nat.mul_add]
    refine ⟨hS.move hd (hm.account hP hsd), fun hth => ?_⟩
    obtain ⟨hG, hclean⟩ := h (by omega)
    have hsame : ∀ x, k = .broke x → (P.core s.obj).synch_ = x := by
      rintro x rfl
      exact hk.1 x rfl
    refine ⟨⟨hG.vacant.move hP hV hd hS hsd (by omega) hm, hG.watched.move hP hd hG.vacant hS hsd (by omega) hm,
      hG.idle.move hP hd hG.watched hS hsd (by omega) hsame hm⟩, fun hU hab => ?_⟩
    have hcl := hclean hU (by omega)
    refine hcl.move hS ?_ ?_ (by omega) (hm.account hP hsd)
    · rintro rfl
      exact hk.2 hU rfl
    · rintro x rfl hnobody
      cases hm with
      | broke hpc => exact ((hG.watched _ _ hpc).2 (hsame x rfl).symm).ne' (hcl.fresh hnobody).1
  · rintro s a ⟨hsc, hub⟩
    have hsame := sameCycle_iff.mp hsc
    cases a with
    | enter => exact ⟨fun _ hk => (by cases hk), fun hU _ => by simpa [unbroken] using hub hU⟩
    | wakeReset t r =>
      cases r with
      | timedOut =>
        intro k hpc
        refine ⟨?_, fun _ hk => (by cases hk)⟩
        rintro x ⟨⟩
        exact hsame t k rfl hpc
      | woken => trivial
    | call => exact ⟨fun _ hk => (by cases hk), fun _ hk => (by cases hk)⟩
    | acquire | resume | wake | waitReset => trivial

/-- The same in the state before a step. -/
theorem guarded_before {U : Prop} (hr : Run (P.machine o) π s)
    (hC : Meets (fun s a => P.sameCycle s a ∧ (U → P.unbroken s a)) π)
    (hth : drop * aborts (events π) = 0 ∨ 2 ≤ parties)
    {x : Taken (World ι α Obj) (Act ι α Ω) (Event ι α β)} (hx : x ∈ π) :
    Guarded P x.pre ∧ (U → aborts (events π) = 0 ∨ 2 ≤ parties → (P.account x.pre).Clean) := by
  obtain ⟨ρ, ⟨σ, rfl⟩, hρ⟩ := hr.pre_run hx
  rw [events, List.flatMap_append, aborts_append] at hth ⊢
  obtain ⟨hG, hclean⟩ := run_guarded hP hV hd ho hb hρ (fun y hy => hC y (List.mem_append_left _ hy))
    (hth.imp_left fun h => by
      rw [Nat.mul_add] at h
      exact Nat.eq_zero_of_add_eq_zero_right h)
  exact ⟨hG, fun hU hab => hclean hU (hab.imp_left fun h => Nat.eq_zero_of_add_eq_zero_right h)⟩

/-- Where timed-out calls find `synch_` as they read it, they break a cycle that was entered, and a party with
`count_ = 0` is not broken. -/
theorem run_breaksEntered (hr : Run (P.machine o) π s) (hC : Meets (fun s a => P.sameCycle s a) π)
    (hth : drop * aborts (events π) = 0 ∨ 2 ≤ parties) :
    Meets P.breaksEntered π ∧ ((P.core s.obj).count_ = 0 → (P.core s.obj).broken_ = false) := by
  have hC' := hC.mono (D := fun s a => P.sameCycle s a ∧ (False → P.unbroken s a)) fun _ _ h => ⟨h, False.elim⟩
  refine ⟨fun x hx t k ha hpc => ?_, (run_guarded hP hV hd ho hb hr hC' hth).1.idle⟩
  have hsy := sameCycle_iff.mp (hC x hx) t k ha hpc
  exact ⟨hsy, ((guarded_before hP hV hd ho hb hr hC' hth hx).1.watched t k hpc).2 hsy.symm⟩

/-- Where nobody enters a broken cycle either, and no command throws in a party of one, there is a thread in it. -/
theorem run_breaksOwn (hr : Run (P.machine o) π s) (hub : Meets (fun s a => P.unbroken s a) π)
    (hC : Meets (fun s a => P.sameCycle s a) π) (hth : aborts (events π) = 0 ∨ 2 ≤ parties) :
    Meets P.breaksOwn π := by
  intro x hx t k ha hpc
  have hth' : drop * aborts (events π) = 0 ∨ 2 ≤ parties := hth.imp_left fun h => by rw [h, Nat.mul_zero]
  obtain ⟨hG, hclean⟩ := guarded_before (U := True) hP hV hd ho hb hr (fun y hy => ⟨hC y hy, fun _ => hub y hy⟩) hth' hx
  have hsy := sameCycle_iff.mp (hC x hx) t k ha hpc
  have hpos := (hG.watched t k hpc).2 hsy.symm
  have hin : (P.account x.pre).inside ≠ 0 := fun h0 => hpos.ne' ((hclean trivial hth).fresh h0).1
  exact ⟨hsy, count_pos_iff.mp (Nat.pos_of_ne_zero hin)⟩

end Party

end Lasagne.Daf
