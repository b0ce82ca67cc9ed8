import Lasagne.Daf.PartyAccount

/-!
# Lasagne.Daf.PartyCycle — what a cycle of a party looks like

A cycle is the period between two resets of `count_`; its number is `synch_`.  The events of a cycle
in which some call returned have one shape (`Tripped`): all parties enter, then the command runs to
its end, then the parties leave, each once.  In every other cycle no call returned (`NoValue`).

`Shape` is the invariant behind it.  While a cycle gathers, exactly those that entered are inside
(`Gathering`); once it is triggered nobody can enter, since the gate is empty, and those still inside
have not left yet (`Seated`); once it is broken nobody returns.
-/

namespace Lasagne.Daf

open Lasagne.Trans

section Cycle

variable {ι α β : Type*}

/-- Who entered, and with what. -/
def Event.entry : Event ι α β → Option (ι × α)
  | .entered _ t _ arg => some (t, arg)
  | _ => none

/-- Who left, with which index, and how. -/
def Event.exit : Event ι α β → Option (ι × ℕ × Exit β)
  | .left _ t i r => some (t, i, r)
  | _ => none

/-- The events of cycle `c`. -/
def ofCycle (c : ℕ) (tr : List (Event ι α β)) : List (Event ι α β) :=
  tr.filter fun e => e.cycle = some c

/-- The entrants, in order. -/
def entrants (es : List (Event ι α β)) : List (ι × α) := es.filterMap Event.entry

/-- The leavers, in order. -/
def leavers (es : List (Event ι α β)) : List (ι × ℕ × Exit β) := es.filterMap Event.exit

/-- The entries of `ps` into cycle `c`, in order. -/
def entries (c : ℕ) (ps : List (ι × α)) : List (Event ι α β) :=
  ps.mapIdx fun i p => .entered c p.1 i p.2

/-- The departures `ls` from cycle `c`. -/
def departures (c : ℕ) (ls : List (ι × ℕ × Exit β)) : List (Event ι α β) :=
  ls.map fun l => .left c l.1 l.2.1 l.2.2

/-- The command runs to its end, if there is one. -/
def commandRun (loud : Bool) (c : ℕ) : List (Event ι α β) := if loud then [.ran c true] else []

@[simp] theorem ofCycle_nil (c : ℕ) : ofCycle c ([] : List (Event ι α β)) = [] := rfl

@[simp] theorem ofCycle_append (c : ℕ) (tr es : List (Event ι α β)) :
    ofCycle c (tr ++ es) = ofCycle c tr ++ ofCycle c es := by
  simp [ofCycle]

theorem ofCycle_of_ne {c : ℕ} {es : List (Event ι α β)} (h : ∀ e ∈ es, e.cycle ≠ some c) :
    ofCycle c es = [] := by
  simpa [ofCycle, List.filter_eq_nil_iff] using h

theorem ofCycle_of_eq {c : ℕ} {es : List (Event ι α β)} (h : ∀ e ∈ es, e.cycle = some c) :
    ofCycle c es = es := by
  simpa [ofCycle, List.filter_eq_self] using h

theorem mem_leavers_ofCycle {c : ℕ} {tr : List (Event ι α β)} {t : ι} {i : ℕ} {r : Exit β} :
    (t, i, r) ∈ leavers (ofCycle c tr) ↔ .left c t i r ∈ tr := by
  unfold leavers ofCycle
  rw [List.mem_filterMap]
  constructor
  · rintro ⟨e, he, hexit⟩
    rw [List.mem_filter] at he
    cases e <;> simp_all [Event.exit, Event.cycle]
  · intro h
    exact ⟨_, List.mem_filter.mpr ⟨h, by simp [Event.cycle]⟩, rfl⟩

theorem ofCycle_append_none {c : ℕ} {tr es : List (Event ι α β)} (h : ∀ e ∈ es, e.cycle = none) :
    ofCycle c (tr ++ es) = ofCycle c tr := by
  have hnil : ofCycle c es = [] := ofCycle_of_ne fun e he => by simp [h e he]
  rw [ofCycle_append, hnil, List.append_nil]

theorem ofCycle_append_other {c k : ℕ} {tr es : List (Event ι α β)}
    (h : ∀ e ∈ es, e.cycle = some k) (hc : k ≠ c) : ofCycle c (tr ++ es) = ofCycle c tr := by
  have hnil : ofCycle c es = [] := ofCycle_of_ne fun e he => by simpa [h e he] using hc
  rw [ofCycle_append, hnil, List.append_nil]

/-- Nothing has happened in a cycle to come. -/
theorem ofCycle_succ_eq_nil {k : ℕ} {tr : List (Event ι α β)}
    (h : ∀ e ∈ tr, ∀ c, e.cycle = some c → c ≤ k) : ofCycle (k + 1) tr = [] := by
  refine ofCycle_of_ne fun e he hc => ?_
  have := h e he _ hc
  omega

@[simp] theorem entrants_append (es es' : List (Event ι α β)) :
    entrants (es ++ es') = entrants es ++ entrants es' := by
  simp [entrants]

@[simp] theorem leavers_append (es es' : List (Event ι α β)) :
    leavers (es ++ es') = leavers es ++ leavers es' := by
  simp [leavers]

theorem entries_snoc (c : ℕ) (ps : List (ι × α)) (t : ι) (arg : α) :
    (entries c (ps ++ [(t, arg)]) : List (Event ι α β)) =
      entries c ps ++ [.entered c t ps.length arg] := by
  simp [entries, List.mapIdx_append]

@[simp] theorem leavers_entries (c : ℕ) (ps : List (ι × α)) :
    leavers (entries c ps : List (Event ι α β)) = [] := by
  induction ps using List.reverseRecOn with
  | nil => rfl
  | append_singleton ps p ih =>
    rw [entries_snoc, leavers_append, ih]
    rfl

/-- The shape of a cycle that was triggered. -/
structure Tripped (loud : Bool) (parties c : ℕ) (es : List (Event ι α β)) : Prop where
  events : es = entries c (entrants es) ++ commandRun loud c ++ departures c (leavers es)
  length : (entrants es).length = parties
  threads : ((entrants es).map Prod.fst).Nodup
  indices : ((leavers es).map fun l => l.2.1).Nodup
  seats : ∀ l ∈ leavers es, ((entrants es)[l.2.1]?).map Prod.fst = some l.1

/-- No call returned. -/
def NoValue (es : List (Event ι α β)) : Prop := ∀ l ∈ leavers es, l.2.2.isValue = false

theorem NoValue.append {es es' : List (Event ι α β)} (h : NoValue es) (h' : NoValue es') :
    NoValue (es ++ es') := by
  intro l hl
  rw [leavers_append, List.mem_append] at hl
  exact hl.elim (h l) (h' l)

/-- Those inside entered with the index they have, and have not left. -/
def Seated {Obj : Type*} (es : List (Event ι α β)) (s : World ι α Obj) : Prop :=
  ∀ t timed arg i, s.pc t = .waiting timed arg i →
    (entrants es)[i]? = some (t, arg) ∧ ∀ l ∈ leavers es, l.2.1 ≠ i

/-- A cycle that is neither broken nor triggered: those that entered are all still inside. -/
structure Gathering {Obj : Type*} (c n : ℕ) (es : List (Event ι α β)) (s : World ι α Obj) :
    Prop where
  events : es = entries c (entrants es)
  length : (entrants es).length = n
  threads : ((entrants es).map Prod.fst).Nodup
  inside : ∀ p ∈ entrants es, (s.pc p.1).isInside = true
  seated : Seated es s

theorem Gathering.leavers_eq {Obj : Type*} {c n : ℕ} {es : List (Event ι α β)} {s : World ι α Obj}
    (h : Gathering c n es s) : leavers es = [] := by
  rw [h.events, leavers_entries]

theorem Gathering.noValue {Obj : Type*} {c n : ℕ} {es : List (Event ι α β)} {s : World ι α Obj}
    (h : Gathering c n es s) : NoValue es := by
  intro l hl
  rw [h.leavers_eq] at hl
  simp at hl

theorem NoValue.left {es : List (Event ι α β)} (h : NoValue es) {c : ℕ} {t : ι} {i : ℕ} {r : Exit β}
    (hr : r.isValue = false) : NoValue (es ++ [.left c t i r]) := by
  refine h.append ?_
  intro l hl
  obtain rfl : l = (t, i, r) := by simpa [leavers, Event.exit] using hl
  exact hr

variable {Obj : Type*} {loud : Bool} {parties c : ℕ} {es : List (Event ι α β)} {s : World ι α Obj}

/-- A command that ran changes nothing about who is where. -/
theorem entrants_commandRun : entrants (es ++ commandRun loud c) = entrants es := by
  cases loud <;> simp [commandRun, entrants, Event.entry]

theorem leavers_commandRun : leavers (es ++ commandRun loud c) = leavers es := by
  cases loud <;> simp [commandRun, leavers, Event.exit]

/-- The last entrant runs the command. -/
theorem Gathering.trip (h : Gathering c parties es s) (loud : Bool) :
    Tripped loud parties c (es ++ commandRun loud c) ∧ Seated (es ++ commandRun loud c) s := by
  refine ⟨⟨?_, ?_, ?_, ?_, ?_⟩, ?_⟩
  · rw [entrants_commandRun, leavers_commandRun, h.leavers_eq, ← h.events]
    simp [departures]
  · rw [entrants_commandRun, h.length]
  · rw [entrants_commandRun]
    exact h.threads
  · rw [leavers_commandRun, h.leavers_eq]
    exact List.nodup_nil
  · rw [leavers_commandRun, h.leavers_eq]
    simp
  · unfold Seated
    rw [entrants_commandRun, leavers_commandRun]
    exact h.seated

variable [DecidableEq ι]

/-- A thread leaves a cycle that was triggered. -/
theorem Tripped.leave (h : Tripped loud parties c es) (hs : Seated es s) {t : ι} {timed : Bool}
    {arg : α} {i : ℕ} (hpc : s.pc t = .waiting timed arg i) (r : Exit β) (o : Obj) :
    Tripped loud parties c (es ++ [.left c t i r]) ∧
      Seated (es ++ [.left c t i r]) (s.goto t o .idle) := by
  obtain ⟨hseat, hnew⟩ := hs t timed arg i hpc
  have hE : entrants (es ++ [.left c t i r]) = entrants es := by simp [entrants, Event.entry]
  have hL : leavers (es ++ [.left c t i r]) = leavers es ++ [(t, i, r)] := by
    simp [leavers, Event.exit]
  refine ⟨⟨?_, ?_, ?_, ?_, ?_⟩, ?_⟩
  · rw [hE, hL, departures, List.map_append, ← List.append_assoc]
    exact congrArg (· ++ _) h.events
  · rw [hE, h.length]
  · rw [hE]
    exact h.threads
  · rw [hL, List.map_append, List.nodup_append]
    refine ⟨h.indices, List.nodup_singleton _, ?_⟩
    intro j hj k hk
    obtain ⟨l, hl, rfl⟩ := List.mem_map.mp hj
    obtain rfl : k = i := by simpa using hk
    exact hnew l hl
  · rw [hE, hL]
    intro l hl
    rcases List.mem_append.mp hl with hl | hl
    · exact h.seats l hl
    · obtain rfl : l = (t, i, r) := by simpa using hl
      rw [hseat]
      rfl
  · intro u timed' arg' j hu
    have hut : u ≠ t := by
      rintro rfl
      simp at hu
    rw [World.goto_pc_of_ne _ _ _ _ hut] at hu
    obtain ⟨hseat', hnew'⟩ := hs u timed' arg' j hu
    rw [hE, hL]
    refine ⟨hseat', ?_⟩
    intro l hl
    rcases List.mem_append.mp hl with hl | hl
    · exact hnew' l hl
    · obtain rfl : l = (t, i, r) := by simpa using hl
      -- two threads with one index would be one thread
      rintro rfl
      rw [hseat] at hseat'
      simp only [Option.some.injEq, Prod.mk.injEq] at hseat'
      exact hut hseat'.1.symm

/-- A thread enters while the cycle gathers. -/
theorem Gathering.enter {n : ℕ} (h : Gathering c n es s) {t : ι} (ht : (s.pc t).isInside = false)
    (timed : Bool) (arg : α) (o : Obj) :
    Gathering c (n + 1) (es ++ [.entered c t n arg]) (s.goto t o (.waiting timed arg n)) := by
  have hE : entrants (es ++ [.entered c t n arg]) = entrants es ++ [(t, arg)] := by
    simp [entrants, Event.entry]
  have hL : leavers (es ++ [.entered c t n arg]) = [] := by
    rw [leavers_append, h.leavers_eq]
    rfl
  have hnew : ∀ p ∈ entrants es, p.1 ≠ t := by
    rintro p hp rfl
    rw [h.inside p hp] at ht
    cases ht
  refine ⟨?_, ?_, ?_, ?_, ?_⟩
  · rw [hE, entries_snoc, ← h.events, h.length]
  · rw [hE, List.length_append, h.length]
    rfl
  · rw [hE, List.map_append, List.nodup_append]
    refine ⟨h.threads, List.nodup_singleton _, ?_⟩
    intro u hu v hv
    obtain ⟨p, hp, rfl⟩ := List.mem_map.mp hu
    obtain rfl : v = t := by simpa using hv
    exact hnew p hp
  · rw [hE]
    intro p hp
    rcases List.mem_append.mp hp with hp | hp
    · rw [World.goto_pc_of_ne _ _ _ _ (hnew p hp)]
      exact h.inside p hp
    · obtain rfl : p = (t, arg) := by simpa using hp
      rw [World.goto_pc_self]
      rfl
  · intro u timed' arg' j hu
    rw [hE, hL]
    refine ⟨?_, by simp⟩
    by_cases hut : u = t
    · subst hut
      rw [World.goto_pc_self] at hu
      obtain ⟨-, rfl, rfl⟩ := Pc.waiting.inj hu
      rw [← h.length]
      simp
    · rw [World.goto_pc_of_ne _ _ _ _ hut] at hu
      have hj := (h.seated u timed' arg' j hu).1
      obtain ⟨hlt, -⟩ := List.getElem?_eq_some_iff.mp hj
      rw [List.getElem?_append_left hlt, hj]

theorem Seated.goto (h : Seated es s) (t : ι) (o : Obj) {x : Pc α} (hx : x.isInside = false) :
    Seated es (s.goto t o x) := by
  intro u timed arg i hu
  by_cases hut : u = t
  · subst hut
    rw [World.goto_pc_self] at hu
    rw [hu] at hx
    cases hx
  · rw [World.goto_pc_of_ne _ _ _ _ hut] at hu
    exact h u timed arg i hu

theorem Gathering.goto {n : ℕ} (h : Gathering c n es s) {t : ι} (ht : (s.pc t).isInside = false)
    (o : Obj) {x : Pc α} (hx : x.isInside = false) : Gathering c n es (s.goto t o x) := by
  refine ⟨h.events, h.length, h.threads, ?_, h.seated.goto t o hx⟩
  intro p hp
  have hpt : p.1 ≠ t := by
    rintro rfl
    rw [h.inside p hp] at ht
    cases ht
  rw [World.goto_pc_of_ne _ _ _ _ hpt]
  exact h.inside p hp

end Cycle

namespace Party

variable {ι α β Obj Ω : Type*} [DecidableEq ι] {P : Party α β Obj Ω} {loud : Bool} {parties : ℕ}
  {s s' : World ι α Obj} {tr : List (Event ι α β)}

section AfterSection

variable (s : World ι α Obj) (cyc : ℕ) (t : ι) (timed : Bool) (arg : α) (i : ℕ) (r : Section Obj β)

theorem cycle_afterSection : ∀ e ∈ (afterSection s cyc t timed arg i r).2, e.cycle = some cyc := by
  obtain ⟨o, ran, ex⟩ := r
  cases ran <;> cases ex <;> simp [afterSection, Event.cycle]

theorem entrants_afterSection : entrants (afterSection s cyc t timed arg i r).2 = [] := by
  obtain ⟨o, ran, ex⟩ := r
  cases ran <;> cases ex <;> rfl

theorem leavers_afterSection :
    leavers (afterSection s cyc t timed arg i r).2 = (r.exit.map fun x => (t, i, x)).toList := by
  obtain ⟨o, ran, ex⟩ := r
  cases ran <;> cases ex <;> rfl

end AfterSection

/-- The invariant on events and state. -/
structure Shape (P : Party α β Obj Ω) (loud : Bool) (parties : ℕ) (tr : List (Event ι α β))
    (s : World ι α Obj) : Prop where
  bound : ∀ e ∈ tr, ∀ c, e.cycle = some c → c ≤ (P.core s.obj).synch_
  past : ∀ c < (P.core s.obj).synch_,
    Tripped loud parties c (ofCycle c tr) ∨ NoValue (ofCycle c tr)
  gathering : (P.core s.obj).broken_ = false → (P.core s.obj).triggered_ = false →
    Gathering (P.core s.obj).synch_ (P.core s.obj).count_ (ofCycle (P.core s.obj).synch_ tr) s
  draining : (P.core s.obj).triggered_ = true →
    Tripped loud parties (P.core s.obj).synch_ (ofCycle (P.core s.obj).synch_ tr) ∧
      Seated (ofCycle (P.core s.obj).synch_ tr) s
  spoiled : (P.core s.obj).broken_ = true → (P.core s.obj).triggered_ = false →
    NoValue (ofCycle (P.core s.obj).synch_ tr)

theorem Shape.init {o : Obj} (ho : P.core o = Core.new parties) :
    Shape P loud parties [] (P.machine o : Machine (World ι α Obj) (Act ι α Ω) _).init := by
  have hc : P.core (P.machine o : Machine (World ι α Obj) (Act ι α Ω) _).init.obj =
      Core.new parties := ho
  refine ⟨by simp, ?_, ?_, ?_, ?_⟩ <;> rw [hc]
  · exact fun c hc => absurd hc (Nat.not_lt_zero c)
  · exact fun _ _ => ⟨rfl, rfl, List.nodup_nil, by simp [entrants], nofun⟩
  · exact nofun
  · exact nofun

/-- A thread moves outside, and no flag of the cycle changes. -/
theorem Shape.outside (h : Shape P loud parties tr s) {t : ι} (ht : (s.pc t).isInside = false)
    {o : Obj} {x : Pc α} (hx : x.isInside = false) {es : List (Event ι α β)}
    (hes : ∀ e ∈ es, e.cycle = none) {b : Bool} {g : Semaphore}
    (hb : b = false → (P.core s.obj).broken_ = false)
    (ho : P.core o = { P.core s.obj with entryGate_ := g, broken_ := b }) :
    Shape P loud parties (tr ++ es) (s.goto t o x) := by
  have hE : ∀ c, ofCycle c (tr ++ es) = ofCycle c tr := fun c => ofCycle_append_none hes
  refine ⟨?_, ?_, ?_, ?_, ?_⟩ <;> rw [World.goto_obj, ho] <;> simp only [hE]
  · intro e he c hc
    rcases List.mem_append.mp he with he | he
    · exact h.bound e he c hc
    · rw [hes e he] at hc
      cases hc
  · exact h.past
  · intro hb' ht'
    exact (h.gathering (hb hb') ht').goto ht o hx
  · intro ht'
    exact ⟨(h.draining ht').1, (h.draining ht').2.goto t o hx⟩
  · intro _ ht'
    by_cases hb' : (P.core s.obj).broken_ = true
    · exact h.spoiled hb' ht'
    · exact (h.gathering (by simpa using hb') ht').noValue

omit [DecidableEq ι] in
/-- Events of the current cycle extend the trace. -/
theorem Shape.extend (h : Shape P loud parties tr s) (es : List (Event ι α β))
    (hes : ∀ e ∈ es, e.cycle = some (P.core s.obj).synch_) :
    (∀ e ∈ tr ++ es, ∀ c, e.cycle = some c → c ≤ (P.core s.obj).synch_) ∧
    (∀ c < (P.core s.obj).synch_,
      Tripped loud parties c (ofCycle c (tr ++ es)) ∨ NoValue (ofCycle c (tr ++ es))) ∧
    ofCycle (P.core s.obj).synch_ (tr ++ es) = ofCycle (P.core s.obj).synch_ tr ++ es := by
  refine ⟨?_, ?_, ?_⟩
  · intro e he c hc
    rcases List.mem_append.mp he with he | he
    · exact h.bound e he c hc
    · rw [hes e he, Option.some.injEq] at hc
      exact hc.ge
  · intro c hc
    rw [ofCycle_append_other hes hc.ne']
    exact h.past c hc
  · rw [ofCycle_append, ofCycle_of_eq hes]

/-- The way out of a cycle that is broken or triggered.  If this was the last thread out, nobody is
inside, and the next cycle begins. -/
theorem Shape.leave (h : Shape P loud parties tr s) {t : ι} {o : Obj} {c : Core}
    {es : List (Event ι α β)} (ho : P.core o = c.leave) (hsy : c.synch_ = (P.core s.obj).synch_)
    (hbt : (c.broken_ || c.triggered_) = true)
    (hes : ∀ e ∈ es, e.cycle = some (P.core s.obj).synch_)
    (hlast : c.resets_ - 1 = 0 → ∀ u, ((s.goto t o .idle).pc u).isInside = false)
    (htrip : c.triggered_ = true →
      Tripped loud parties c.synch_ (ofCycle (P.core s.obj).synch_ tr ++ es) ∧
        Seated (ofCycle (P.core s.obj).synch_ tr ++ es) (s.goto t o .idle))
    (hno : c.triggered_ = false → NoValue (ofCycle (P.core s.obj).synch_ tr ++ es)) :
    Shape P loud parties (tr ++ es) (s.goto t o .idle) := by
  obtain ⟨hbound, hpast, hE⟩ := h.extend es hes
  rw [← hsy] at hbound hpast hE htrip hno
  by_cases hl : c.resets_ - 1 = 0
  · rw [Core.leave_last hl] at ho
    -- nothing has happened yet in the cycle that begins
    have hnew : ofCycle (c.synch_ + 1) (tr ++ es) = [] := ofCycle_succ_eq_nil hbound
    refine ⟨?_, ?_, ?_, ?_, ?_⟩ <;> rw [World.goto_obj, ho] <;> simp only
    · intro e he k hk
      have := hbound e he k hk
      omega
    · intro k hk
      rcases Nat.lt_succ_iff_lt_or_eq.mp hk with hk | rfl
      · exact hpast k hk
      · rw [hE]
        cases htr : c.triggered_ with
        | true => exact Or.inl (htrip htr).1
        | false => exact Or.inr (hno htr)
    · intro _ _
      rw [hnew]
      refine ⟨rfl, rfl, List.nodup_nil, by simp [entrants], ?_⟩
      intro u timed arg i hu
      have := hlast hl u
      rw [hu] at this
      cases this
    · exact nofun
    · exact nofun
  · rw [Core.leave_other hl] at ho
    refine ⟨?_, ?_, ?_, ?_, ?_⟩ <;> rw [World.goto_obj, ho] <;> simp only
    · exact hbound
    · exact hpast
    · intro hb ht
      simp [hb, ht] at hbt
    · intro ht
      rw [hE]
      exact htrip ht
    · intro _ ht
      rw [hE]
      exact hno ht

/-! ## The invariant is kept -/

section Moves

variable [Fintype ι] {drop lost : ℕ} {mayThrow : Prop} {es : List (Event ι α β)}

/-- The only thread inside is the last one. -/
theorem count_goto_idle {t : ι} {timed : Bool} {arg : α} {i : ℕ}
    (hpc : s.pc t = .waiting timed arg i) (o : Obj)
    (hle : count Pc.isInside s.pc ≤ 1) (u : ι) : ((s.goto t o .idle).pc u).isInside = false := by
  have hc : count Pc.isInside (s.goto t o .idle).pc + (s.pc t).isInside.toNat =
      count Pc.isInside s.pc + (Pc.idle : Pc α).isInside.toNat := count_update _ _ t _
  rw [hpc] at hc
  simp only [Pc.isInside, Bool.toNat_true, Bool.toNat_false] at hc
  have h0 : count Pc.isInside (s.goto t o .idle).pc = 0 := by omega
  exact count_eq_zero.mp h0 u

omit [DecidableEq ι] in
/-- A triggered cycle is full, so the gate has let nobody through. -/
theorem not_triggered (hS : (P.account s).Sound parties lost) {t : ι} {timed : Bool} {arg : α}
    (hpc : s.pc t = .admitted timed arg) : (P.core s.obj).triggered_ = false := by
  by_contra ht
  have hfull := hS.triggered (by simpa using ht)
  have hp : 0 < count Pc.isAdmitted s.pc := count_pos (i := t) (by rw [hpc]; rfl)
  obtain ⟨n, hn⟩ := Nat.exists_eq_succ_of_ne_zero hp.ne'
  rw [show P.account s = ⟨P.core s.obj, n + 1, count Pc.isInside s.pc⟩ by rw [account, hn]] at hS
  exact hS.not_full (hfull.ge.trans (Nat.le_add_right _ _))

theorem Shape.enter (h : Shape P loud parties tr s) (hS : (P.account s).Sound parties lost) {t : ι}
    {timed : Bool} {arg : α} {o : Obj}
    (hpc : s.pc t = .admitted timed arg) (ho : P.core o = (P.core s.obj).enter) :
    Shape P loud parties (tr ++ [.entered (P.core s.obj).synch_ t (P.core s.obj).count_ arg])
      (s.goto t o (.waiting timed arg (P.core s.obj).count_)) := by
  obtain ⟨hbound, hpast, hE⟩ :=
    h.extend [.entered (P.core s.obj).synch_ t (P.core s.obj).count_ arg] (by simp [Event.cycle])
  have htrig := not_triggered hS hpc
  refine ⟨?_, ?_, ?_, ?_, ?_⟩ <;> rw [World.goto_obj, ho] <;> simp only [Core.enter]
  · exact hbound
  · exact hpast
  · intro hb ht
    rw [hE]
    exact (h.gathering hb ht).enter (by rw [hpc]; rfl) timed arg o
  · intro ht
    rw [htrig] at ht
    cases ht
  · intro hb ht
    rw [hE]
    refine (h.spoiled hb ht).append ?_
    simp [NoValue, leavers, Event.exit]

theorem Shape.finish (hP : P.Lawful loud drop mayThrow) (h : Shape P loud parties tr s)
    (hS : (P.account s).Sound parties lost) (hsd : (P.core s.obj).shutdown_ = false) {t : ι}
    {timed expired : Bool} {arg : α} {i : ℕ} {ω : Ω} (hpc : s.pc t = .waiting timed arg i) :
    Shape P loud parties
      (tr ++ (afterSection s (P.core s.obj).synch_ t timed arg i
        (P.finish s.obj (timed && expired) ω arg i)).2)
      (afterSection s (P.core s.obj).synch_ t timed arg i
        (P.finish s.obj (timed && expired) ω arg i)).1 := by
  have hf := hP.core_finish s.obj (timed && expired) ω arg i hsd
  generalize P.finish s.obj (timed && expired) ω arg i = r at hf ⊢
  obtain ⟨o, ran, ex⟩ := r
  have hin := hS.inside_le
  have hpar : (P.core s.obj).parties_ = parties := hS.parties_eq
  change count Pc.isInside s.pc ≤ (P.core s.obj).resets_ at hin
  have hlast : (P.core s.obj).resets_ - 1 = 0 →
      ∀ u, ((s.goto t o .idle).pc u).isInside = false :=
    fun hl => count_goto_idle hpc o (by omega)
  simp only at hf
  generalize hv : ex.map Exit.isValue = v at hf
  generalize hc' : P.core o = c' at hf
  cases hf with
  | wait hb ht hc =>
    obtain rfl : ex = none := by simpa using hv
    -- the thread stays where it is
    have hself : (s.goto t o (.waiting timed arg i)).pc = s.pc := by
      simp [World.goto, ← hpc]
    simp only [afterSection, Option.map_none, Option.toList_none, List.append_nil,
      Option.isSome_none, Bool.false_eq_true, if_false]
    have hw : s.goto t o (.waiting timed arg i) = ⟨o, s.pc⟩ := by rw [← hself]; rfl
    rw [hw]
    obtain ⟨h1, h2, h3, h4, h5⟩ := h
    refine ⟨?_, ?_, ?_, ?_, ?_⟩ <;> simp only [hc']
    · exact h1
    · exact h2
    · exact fun hb ht => ⟨(h3 hb ht).events, (h3 hb ht).length, (h3 hb ht).threads,
        (h3 hb ht).inside, (h3 hb ht).seated⟩
    · exact h4
    · exact h5
  | drain short hbt =>
    obtain ⟨r, rfl, hr⟩ := Option.map_eq_some_iff.mp hv
    simp only [afterSection, Option.map_none, Option.map_some, Option.toList_none,
      Option.toList_some, List.nil_append, Option.isSome_some, if_true]
    refine h.leave hc' rfl ?_ (by simp [Event.cycle]) hlast ?_ ?_
    · rcases Bool.or_eq_true _ _ ▸ hbt with hb | ht
      · simp [hb]
      · simp [ht]
    · exact fun ht => (h.draining ht).1.leave (h.draining ht).2 hpc r o
    · intro ht
      change (P.core s.obj).triggered_ = false at ht
      have hb : (P.core s.obj).broken_ = true := by simpa [ht] using hbt
      refine (h.spoiled hb ht).left ?_
      rw [hr, hb]
      rfl
  | expire hb ht =>
    obtain ⟨r, rfl, hr⟩ := Option.map_eq_some_iff.mp hv
    simp only [afterSection, Option.map_none, Option.map_some, Option.toList_none,
      Option.toList_some, List.nil_append, Option.isSome_some, if_true]
    refine h.leave hc' rfl rfl (by simp [Event.cycle]) hlast ?_ ?_
    · intro ht'
      rw [show (P.core s.obj).triggered_ = true from ht'] at ht
      cases ht
    · exact fun _ => (h.gathering hb ht).noValue.left hr
  | trip short hb ht hc =>
    obtain ⟨r, rfl, hr⟩ := Option.map_eq_some_iff.mp hv
    have hran : (Option.map (Event.ran (P.core s.obj).synch_) (if loud then some true else none)).toList
        = (commandRun loud (P.core s.obj).synch_ : List (Event ι α β)) := by
      cases loud <;> rfl
    simp only [afterSection, Option.map_some, Option.toList_some, Option.isSome_some, if_true, hran]
    refine h.leave hc' rfl (by simp) ?_ hlast ?_ fun ht' => by cases ht'
    · cases loud <;> simp [commandRun, Event.cycle]
    · intro _
      have hg := h.gathering hb ht
      rw [hc, hpar] at hg
      obtain ⟨hT, hseat⟩ := hg.trip loud
      rw [← List.append_assoc]
      exact hT.leave hseat hpc r o
  | abort _ hb ht =>
    obtain ⟨r, rfl, hr⟩ := Option.map_eq_some_iff.mp hv
    simp only [afterSection, Option.map_some, Option.toList_some, Option.isSome_some, if_true,
      List.singleton_append]
    obtain ⟨hbound, hpast, hE⟩ := h.extend [.ran (P.core s.obj).synch_ false,
      .left (P.core s.obj).synch_ t i r] (by simp [Event.cycle])
    refine ⟨?_, ?_, ?_, ?_, ?_⟩ <;> rw [World.goto_obj, hc'] <;> simp only
    · exact hbound
    · exact hpast
    · intro hb'
      cases hb'
    · intro ht'
      rw [ht] at ht'
      cases ht'
    · intro _ _
      rw [hE]
      refine (h.gathering hb ht).noValue.append ?_
      intro l hl
      obtain rfl : (t, i, r) = l := by simpa [leavers, Event.exit] using hl
      exact hr

/-- Every move keeps the shape. -/
theorem Shape.move (hP : P.Lawful loud drop mayThrow) (h : Shape P loud parties tr s)
    (hS : (P.account s).Sound parties lost) (hsd : (P.core s.obj).shutdown_ = false) {k : Kind}
    (hm : Move P s k es s') : Shape P loud parties (tr ++ es) s' := by
  cases hm with
  | call hpc =>
    exact h.outside (by rw [hpc]; rfl) rfl (by simp) (b := (P.core s.obj).broken_) id rfl
  | quiet _ hI _ hx _ _ _ hes =>
    exact h.outside hI hx hes (b := (P.core s.obj).broken_) id (hP.core_setGate _ _)
  | pass hpc =>
    refine h.outside ?_ rfl (by simp) (b := (P.core s.obj).broken_) id (hP.core_setGate _ _)
    rcases hpc with hpc | hpc <;> rw [hpc] <;> rfl
  | @enter t timed arg o hpc _ hc =>
    exact h.enter hS hpc hc
  | finish hpc => exact h.finish hP hS hsd hpc
  | broke hpc =>
    exact h.outside (by rw [hpc]; rfl) rfl (by simp [Event.cycle]) (b := true) nofun
      (hP.core_breakUp _)

/-- The shape of the cycles in every run. -/
theorem run_shape (hP : P.Lawful loud drop mayThrow) (hd : drop ≤ 1) {o : Obj}
    (ho : P.core o = Core.new parties)
    {π : List (Taken (World ι α Obj) (Act ι α Ω) (Event ι α β))} (hr : Run (P.machine o) π s) :
    Shape P loud parties (events π) s := by
  refine (inv_of_moves (D := fun _ _ => True) hP (by rw [ho]; rfl)
    (I := fun tr s => (P.account s).Sound parties (drop * aborts tr) ∧ Shape P loud parties tr s)
    ?_ ?_ hr fun _ _ => allowed_true _ _).2
  · exact ⟨account_init_of ho (Account.Sound.new parties), .init ho⟩
  · rintro tr s k es s' - hsd ⟨hS, h⟩ hm
    rw [aborts_append, Nat.mul_add]
    exact ⟨hS.move hd (hm.account hP hsd), h.move hP hS hsd hm⟩

omit [DecidableEq ι] [Fintype ι] in
/-- Nobody returns before the cycle is triggered. -/
theorem Shape.noValue (h : Shape P loud parties tr s) (ht : (P.core s.obj).triggered_ = false) :
    NoValue (ofCycle (P.core s.obj).synch_ tr) := by
  cases hb : (P.core s.obj).broken_ with
  | true => exact h.spoiled hb ht
  | false => exact (h.gathering hb ht).noValue

omit [DecidableEq ι] [Fintype ι] in
/-- In a run, a cycle in which some call returned was triggered. -/
theorem Shape.tripped (h : Shape P loud parties tr s) {c : ℕ} {t : ι} {i : ℕ} {v : β}
    (hleft : .left c t i (.value v) ∈ tr) : Tripped loud parties c (ofCycle c tr) := by
  have hnot : ¬ NoValue (ofCycle c tr) := fun hno => by
    simpa [Exit.isValue] using hno _ (mem_leavers_ofCycle.mpr hleft)
  rcases (h.bound _ hleft c rfl).lt_or_eq with hc | rfl
  · exact (h.past c hc).resolve_right hnot
  · cases ht : (P.core s.obj).triggered_ with
    | true => exact (h.draining ht).1
    | false => exact absurd (h.noValue ht) hnot

end Moves

end Party

end Lasagne.Daf
