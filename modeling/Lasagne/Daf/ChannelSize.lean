import Lasagne.Trans.Count
import Lasagne.Daf.ChannelStory

/-!
# Lasagne.Daf.ChannelSize — `DAF::SynchronousChannel::size`

`size` is the length of the queue of the producers.  A put that gives up leaves its node there, cancelled, until
the next `deque` of a take drops it.

* `Shift` and `step_shift`: what a step does to the queue and to the nodes in it.
* `Queued`: a put waits at a full node of the queue, or a take has come for its node.
* `size_iff`: the size is right in every state of a run exactly if no put gives up while its node is queued.
-/

namespace Lasagne.Daf.SynchronousChannel

open Lasagne.Trans

variable {ι T : Type*}

/-- `size()`. -/
def size (s : World ι T) : ℕ := s.chan.waitingProducers.length

/-- `empty()`. -/
def empty (s : World ι T) : Bool := size s == 0

/-- The node that a put has queued, until it leaves it. -/
def Pc.offers : Pc T → Option ℕ
  | .putNode _ _ _ n true | .putWait _ _ _ n => some n
  | _ => none

/-- A take comes for the node. -/
def Event.joins (n : ℕ) : Event T → Bool
  | .joined _ m => m = n
  | _ => false

/-- A put with a node that no take has come for. -/
def Pc.waits (tr : List (Event T)) (x : Pc T) : Bool := x.offers.any fun n => !tr.any (Event.joins n)

/-- The put calls that wait for a consumer. -/
def waiting [Fintype ι] (tr : List (Event T)) (s : World ι T) : ℕ := count (Pc.waits tr) s.pc

/-- A put gives up while its node is queued: its wait runs out of time, or it sees the interruption. -/
def quits (s : World ι T) : Act ι T → Bool
  | .run p =>
    match s.pc p with
    | .putNode _ _ _ n true => s.chan.interrupted_ ∧ n ∈ s.chan.waitingProducers
    | _ => false
  | .wake p r =>
    match s.pc p with
    | .putWait _ _ _ n => (r = .timedOut ∨ s.chan.interrupted_) ∧ n ∈ s.chan.waitingProducers
    | _ => false
  | _ => false

theorem Pc.seat_of_offers {x : Pc T} {n : ℕ} (h : x.offers = some n) : ∃ c t, x.seat = some (n, .putHost c t) := by
  cases x with
  | putNode timed c t m w =>
    cases w with
    | true =>
      cases h
      exact ⟨c, t, rfl⟩
    | false => cases h
  | putWait timed c t m =>
    cases h
    exact ⟨c, t, rfl⟩
  | idle | putTop | putLock | takeTop | takeLock | takeNode | takeWait => cases h

theorem Pc.offers_of_seat {x : Pc T} {n c : ℕ} {t : T} (h : x.seat = some (n, .putHost c t)) :
    x.offers = some n := by
  cases x with
  | putNode timed c t m w =>
    cases w with
    | true =>
      cases h
      rfl
    | false => cases h
  | putWait timed c t m =>
    cases h
    rfl
  | takeNode timed d m w => cases w <;> cases h
  | idle | putTop | putLock | takeTop | takeLock | takeWait => cases h

/-! ## What a step does to the queue -/

section Step

variable [DecidableEq ι] {s s' : World ι T} {a : Act ι T} {tr es : List (Event T)} {life : ℕ → Life T}

/-- What a step does to the queue of the producers and to the nodes in it; `quit` if a put gives up. -/
inductive Shift (s s' : World ι T) (es : List (Event T)) (quit : Bool) : Prop
  /-- the queue stays, and no put comes to a node or leaves one -/
  | outside : quit = false → (∀ q, (s'.pc q).offers = (s.pc q).offers) →
      (∀ n < s.chan.size, s'.chan.nodes n = s.chan.nodes n) →
      s'.chan.waitingProducers = s.chan.waitingProducers → Shift s s' es quit
  /-- a put queues a new node -/
  | offer {p : ι} {x : Pc T} : quit = false → s'.pc = Function.update s.pc p x →
      (s.pc p).offers = none → x.offers = some s.chan.size →
      (∀ n < s.chan.size, s'.chan.nodes n = s.chan.nodes n) → (s'.chan.nodes s.chan.size).state_ = .FULL →
      s'.chan.waitingProducers = s.chan.waitingProducers ++ [s.chan.size] → Shift s s' es quit
  /-- a take goes through the queue -/
  | look : quit = false → (∀ q, (s'.pc q).offers = (s.pc q).offers) →
      (∀ n < s.chan.size, s'.chan.nodes n = s.chan.nodes n) →
      s'.chan.waitingProducers = (deque s.chan.nodes s.chan.waitingProducers).2 →
      (∀ n, (deque s.chan.nodes s.chan.waitingProducers).1 = some n → ∃ d, .joined d n ∈ es) →
      Shift s s' es quit
  /-- something happens at a node -/
  | node {p : ι} {x : Pc T} {n : ℕ} {r : Seat T} {node : SYNCHNode T} : (s.pc p).seat = some (n, r) →
      s'.pc = Function.update s.pc p x → s'.chan.nodes = Function.update s.chan.nodes n node →
      s'.chan.waitingProducers = s.chan.waitingProducers →
      (∀ m, x.offers = some m → m = n ∧ (s.pc p).offers = some n ∧
        ((s.chan.nodes n).state_ = .FULL → node.state_ = .FULL)) →
      (quit = true → (s.pc p).offers = some n ∧ n ∈ s.chan.waitingProducers) →
      ((s.pc p).offers = some n → n ∈ s.chan.waitingProducers → (s.chan.nodes n).state_ = .FULL →
        (node.state_ = .FULL ↔ quit = false)) → Shift s s' es quit

/-- Only one thread moves, and it has no node in the queue before and after. -/
theorem offers_update {p : ι} {x : Pc T} (hpc : s'.pc = Function.update s.pc p x)
    (hp : (s.pc p).offers = none) (hx : x.offers = none) (q : ι) : (s'.pc q).offers = (s.pc q).offers := by
  by_cases hq : q = p
  · rw [hq, hpc, Function.update_self, hx, hp]
  · rw [hpc, Function.update_of_ne hq]

theorem putLocked_shift {p : ι} {timed : Bool} {c : ℕ} {t : T} (hp : s.pc p = .putLock timed c t)
    (hs : putLocked s p timed c t = (s', es)) : Shift s s' es false := by
  have hoff : (s.pc p).offers = none := by rw [hp]; rfl
  unfold putLocked at hs
  split at hs <;> obtain ⟨rfl, rfl⟩ := Prod.mk.inj hs
  · exact .outside rfl (offers_update rfl hoff rfl) (fun _ _ => rfl) rfl
  · refine .offer rfl rfl hoff rfl (fun n hn => ?_) ?_ rfl
    · exact Function.update_of_ne hn.ne _ _
    · simp [World.goto]

variable [Inhabited T]

theorem takeLocked_shift {p : ι} {timed : Bool} {d : ℕ} (hp : s.pc p = .takeLock timed d)
    (hs : takeLocked s p timed d = (s', es)) : Shift s s' es false := by
  have hoff : (s.pc p).offers = none := by rw [hp]; rfl
  unfold takeLocked at hs
  split at hs <;> obtain ⟨rfl, rfl⟩ := Prod.mk.inj hs
  · next n queue hd =>
    refine .look rfl (offers_update rfl hoff rfl) (fun _ _ => rfl) (by rw [hd]; rfl) fun m hm => ?_
    rw [hd] at hm
    cases hm
    exact ⟨d, by simp⟩
  · next queue hd =>
    refine .look rfl (offers_update rfl hoff rfl) (fun n hn => ?_) (by rw [hd]; rfl) fun m hm => ?_
    · exact Function.update_of_ne hn.ne _ _
    · rw [hd] at hm
      cases hm

omit [Inhabited T] in
theorem takeEnds_shift {p : ι} {timed : Bool} {d n : ℕ} {seat : Seat T} {r : SYNCHNode T × Ends T}
    (hseat : (s.pc p).seat = some (n, seat)) (hoff : (s.pc p).offers = none)
    (hs : takeEnds s p timed d n r = (s', es)) : Shift s s' es false := by
  unfold takeEnds at hs
  dsimp only at hs
  split at hs <;> obtain ⟨rfl, rfl⟩ := Prod.mk.inj hs <;>
    exact .node hseat rfl rfl rfl (by rintro m ⟨⟩) (by rintro ⟨⟩) fun h => by rw [hoff] at h; cases h

omit [Inhabited T] in
theorem putEnds_shift {p : ι} {timed guest quit : Bool} {c n : ℕ} {t : T} (seat : Seat T)
    {r : SYNCHNode T × Ends ℤ} (hseat : (s.pc p).seat = some (n, seat))
    (hwaits : r.2 = .waits → (s.pc p).offers = some n ∧ ((s.chan.nodes n).state_ = .FULL → r.1.state_ = .FULL))
    (hquit : quit = true → (s.pc p).offers = some n ∧ n ∈ s.chan.waitingProducers)
    (hfull : (s.pc p).offers = some n → n ∈ s.chan.waitingProducers → (s.chan.nodes n).state_ = .FULL →
      (r.1.state_ = .FULL ↔ quit = false))
    (hs : putEnds s p timed c t n guest r = (s', es)) : Shift s s' es quit := by
  unfold putEnds at hs
  dsimp only at hs
  split at hs <;> obtain ⟨rfl, rfl⟩ := Prod.mk.inj hs
  · next hr =>
    refine .node hseat rfl rfl rfl ?_ hquit hfull
    rintro m ⟨⟩
    exact ⟨rfl, hwaits hr⟩
  all_goals exact .node hseat rfl rfl rfl (by rintro m ⟨⟩) hquit hfull

omit [DecidableEq ι] in
theorem SYNCHNode.putLoop_full {node : SYNCHNode T} (h : node.state_ = .FULL) (i : Bool) :
    (node.putLoop i).1.state_ = .FULL ↔ i = false := by
  cases i <;> simp [putLoop, h, throws, state]

omit [DecidableEq ι] in
theorem SYNCHNode.putWoke_full {node : SYNCHNode T} (h : node.state_ = .FULL) (i : Bool) (r : WaitResult) :
    (node.putWoke i r).1.state_ = .FULL ↔ ¬ (r = .timedOut ∨ i = true) := by
  cases i <;> cases r <;> simp [putWoke, putLoop, h, throws, state]

omit [DecidableEq ι] in
theorem SYNCHNode.putLoop_waits {node : SYNCHNode T} {i : Bool} (h : (node.putLoop i).2 = .waits) :
    (node.putLoop i).1 = node := by
  cases hs : node.state_ <;> cases i <;> simp_all [putLoop, throws]

omit [DecidableEq ι] in
theorem SYNCHNode.putWoke_waits {node : SYNCHNode T} {i : Bool} {r : WaitResult}
    (h : (node.putWoke i r).2 = .waits) : (node.putWoke i r).1 = node := by
  cases hs : node.state_ <;> cases i <;> cases r <;> simp_all [putWoke, putLoop, throws]

omit [DecidableEq ι] in
theorem SYNCHNode.putGuest_waits {node : SYNCHNode T} {i : Bool} {t : T} : (node.putGuest i t).2 ≠ .waits := by
  unfold putGuest
  split_ifs
  · simp [throws]
  · split <;> simp

theorem step_shift (hs : step s a = some (s', es)) : Shift s s' es (quits s a) := by
  cases a with
  | put p timed t | take p timed =>
    simp only [step] at hs
    split at hs
    · next hp =>
      obtain ⟨rfl, rfl⟩ := by simpa using hs
      exact .outside rfl (offers_update rfl (by rw [hp]; rfl) rfl) (fun _ _ => rfl) rfl
    · cases hs
  | interrupt =>
    obtain ⟨rfl, rfl⟩ := by simpa [step] using hs
    exact .outside rfl (fun _ => rfl) (fun _ _ => rfl) rfl
  | run p =>
    simp only [step] at hs
    split at hs
    · next timed c t hp =>
      have hoff : (s.pc p).offers = none := by rw [hp]; rfl
      split_ifs at hs <;> obtain ⟨rfl, rfl⟩ := by simpa using hs
      · exact .outside (by simp [quits, hp]) (offers_update rfl hoff rfl) (fun _ _ => rfl) rfl
      · exact .outside (by simp [quits, hp]) (offers_update rfl hoff rfl) (fun _ _ => rfl) rfl
    · next timed c t hp =>
      rw [show quits s (.run p) = false by simp [quits, hp]]
      exact putLocked_shift hp (Option.some.inj hs)
    · next timed c t n w hp =>
      cases w with
      | true =>
        have hoff : (s.pc p).offers = some n := by rw [hp]; rfl
        simp only [if_true] at hs
        refine putEnds_shift (.putHost c t) (by rw [hp]; rfl) (fun hr => ⟨hoff, ?_⟩) ?_ ?_ (Option.some.inj hs)
        · rw [SYNCHNode.putLoop_waits hr]
          exact id
        · simp only [quits, hp, decide_eq_true_eq]
          exact fun h => ⟨rfl, h.2⟩
        · intro _ hn hfull
          rw [SYNCHNode.putLoop_full hfull]
          simp [quits, hp, hn]
      | false =>
        have hoff : (s.pc p).offers = none := by rw [hp]; rfl
        rw [show quits s (.run p) = false by simp [quits, hp]]
        simp only [Bool.false_eq_true, if_false] at hs
        refine putEnds_shift (.putGuest c t) (by rw [hp]; rfl) (fun hr => ?_) (by rintro ⟨⟩) ?_
          (Option.some.inj hs)
        · exact absurd hr SYNCHNode.putGuest_waits
        · rw [hoff]
          rintro ⟨⟩
    · next timed d hp =>
      have hoff : (s.pc p).offers = none := by rw [hp]; rfl
      split_ifs at hs <;> obtain ⟨rfl, rfl⟩ := by simpa using hs
      · exact .outside (by simp [quits, hp]) (offers_update rfl hoff rfl) (fun _ _ => rfl) rfl
      · exact .outside (by simp [quits, hp]) (offers_update rfl hoff rfl) (fun _ _ => rfl) rfl
    · next timed d hp =>
      rw [show quits s (.run p) = false by simp [quits, hp]]
      exact takeLocked_shift hp (Option.some.inj hs)
    · next timed d n w hp =>
      rw [show quits s (.run p) = false by simp [quits, hp]]
      cases w <;> exact takeEnds_shift (by rw [hp]; rfl) (by rw [hp]; rfl) (Option.some.inj hs)
    · cases hs
  | wake p r =>
    simp only [step] at hs
    split at hs
    · next timed c t n hp =>
      split_ifs at hs
      have hoff : (s.pc p).offers = some n := by rw [hp]; rfl
      refine putEnds_shift (.putHost c t) (by rw [hp]; rfl) (fun hr => ⟨hoff, ?_⟩) ?_ ?_ (Option.some.inj hs)
      · rw [SYNCHNode.putWoke_waits hr]
        exact id
      · simp only [quits, hp, decide_eq_true_eq]
        exact fun h => ⟨rfl, h.2⟩
      · intro _ hn hfull
        rw [SYNCHNode.putWoke_full hfull]
        simp [quits, hp, hn]
    · next timed d n hp =>
      split_ifs at hs
      rw [show quits s (.wake p r) = false by simp [quits, hp]]
      exact takeEnds_shift (by rw [hp]; rfl) (by rw [hp]; rfl) (Option.some.inj hs)
    · cases hs

/-! ## The puts that wait -/

/-- A put waits at a full node of the queue, or a take has come for its node. -/
def Queued (tr : List (Event T)) (s : World ι T) : Prop :=
  ∀ p n, (s.pc p).offers = some n →
    (n ∈ s.chan.waitingProducers ∧ (s.chan.nodes n).state_ = .FULL) ∨
      (n ∉ s.chan.waitingProducers ∧ ∃ d, .joined d n ∈ tr)

omit [DecidableEq ι] [Inhabited T] in
/-- A full node of the queue belongs to a put that waits there with nobody else. -/
theorem Story.offers_of_full (h : Story tr s life) {n : ℕ} (hn : n ∈ s.chan.waitingProducers)
    (hfull : (s.chan.nodes n).state_ = .FULL) :
    (∃ p, (s.pc p).offers = some n) ∧ (∀ p r, (s.pc p).seat = some (n, r) → (s.pc p).offers = some n) ∧
      (∀ p q, (s.pc p).offers = some n → (s.pc q).offers = some n → p = q) ∧ ∀ d, .joined d n ∉ tr := by
  obtain ⟨c, t, hL⟩ : ∃ c t, life n = .offers c t := by
    have hallow := h.seating.producers n hn 0
    have hfits := h.seating.fits n
    cases hL : life n with
    | offers c t => exact ⟨c, t, rfl⟩
    | void =>
      rw [hL] at hfits
      rw [show (s.chan.nodes n).state_ = .CANCELLED from hfits] at hfull
      cases hfull
    | unborn | taken | seeks | given | met | robbed | lost =>
      rw [hL] at hallow
      cases hallow
  have hseat : ∀ p r, (s.pc p).seat = some (n, r) → r = .putHost c t := by
    intro p r hp
    have hallow := h.seating.seated p n r hp
    rw [hL] at hallow
    cases r with
    | putHost c' t' =>
      obtain ⟨rfl, rfl⟩ := hallow
      rfl
    | takeGuest d => exact absurd (List.mem_append_left _ hn) (h.seating.queued p n _ hp rfl)
    | putGuest | takeHost => cases hallow
  refine ⟨?_, fun p r hp => ?_, fun p q hp hq => ?_, fun d hd => ?_⟩
  · obtain ⟨p, hp⟩ := h.seating.hosted n (.putHost c t) (by rw [hL]; rfl)
    exact ⟨p, Pc.offers_of_seat hp⟩
  · rw [hseat p r hp] at hp
    exact Pc.offers_of_seat hp
  · obtain ⟨c₁, t₁, hp⟩ := Pc.seat_of_offers hp
    obtain ⟨c₂, t₂, hq⟩ := Pc.seat_of_offers hq
    have hcp := Pc.call_of_seat hp
    have hcq := Pc.call_of_seat hq
    rw [hseat p _ hp] at hcp
    rw [hseat q _ hq] at hcq
    exact h.calls.inj p q c hcp hcq
  · rcases h.joined d n hd with ⟨p, hp | hp⟩ | hdone
    · cases hseat p _ hp
    · cases hseat p _ hp
    · rw [hL] at hdone
      cases hdone

omit [DecidableEq ι] [Inhabited T] in
/-- Nodes have numbers below `chan.size`. -/
theorem Story.offers_lt (h : Story tr s life) {p : ι} {n : ℕ} (hp : (s.pc p).offers = some n) :
    n < s.chan.size := by
  obtain ⟨c, t, hseat⟩ := Pc.seat_of_offers hp
  by_contra hle
  have hallow := h.seating.seated p n _ hseat
  rw [(h.seating.born n).mpr (by omega)] at hallow
  cases hallow

omit [DecidableEq ι] [Inhabited T] in
theorem mem_of_deque {nodes : ℕ → SYNCHNode T} {queue : List ℕ} {n : ℕ} (hn : n ∈ queue)
    (hlive : (nodes n).state_ ≠ .CANCELLED) :
    (deque nodes queue).1 = some n ∨ n ∈ (deque nodes queue).2 := by
  induction queue with
  | nil => cases hn
  | cons m queue ih =>
    unfold deque
    split_ifs with hm
    · rcases List.mem_cons.mp hn with rfl | hn
      · exact absurd hm hlive
      · exact ih hn
    · rcases List.mem_cons.mp hn with rfl | hn
      · exact Or.inl rfl
      · exact Or.inr hn

/-- No node of the queue is cancelled. -/
def Live (s : World ι T) : Prop := ∀ n ∈ s.chan.waitingProducers, (s.chan.nodes n).state_ = .FULL

omit [DecidableEq ι] [Inhabited T] in
theorem Queued.mono (h : Queued tr s) (es : List (Event T)) : Queued (tr ++ es) s := by
  intro p n hp
  exact (h p n hp).imp_right fun ⟨hn, d, hd⟩ => ⟨hn, d, List.mem_append_left _ hd⟩

omit [Inhabited T] in
theorem Queued.shift {quit : Bool} (h : Queued tr s) (hst : Story tr s life) (hs : Shift s s' es quit) :
    Queued (tr ++ es) s' := by
  have hsize : ∀ n ∈ s.chan.waitingProducers, n < s.chan.size := by
    intro n hn
    by_contra hle
    have hallow := hst.seating.producers n hn 0
    rw [(hst.seating.born n).mpr (by omega)] at hallow
    cases hallow
  cases hs with
  | outside _ hoff hnodes hqueue =>
    intro q n hq
    rw [hoff] at hq
    rw [hqueue, hnodes n (hst.offers_lt hq)]
    exact h.mono es q n hq
  | @offer p x _ hpc hp hx hnodes hfull hqueue =>
    intro q n hq
    rw [hqueue]
    by_cases hqp : q = p
    · subst hqp
      rw [hpc, Function.update_self, hx] at hq
      obtain rfl := Option.some.inj hq
      exact Or.inl ⟨by simp, hfull⟩
    · rw [hpc, Function.update_of_ne hqp] at hq
      have hlt := hst.offers_lt hq
      rw [hnodes n hlt]
      refine (h.mono es q n hq).imp (fun hn => ⟨List.mem_append_left _ hn.1, hn.2⟩) fun hn => ⟨?_, hn.2⟩
      rw [List.mem_append, List.mem_singleton]
      rintro (hmem | rfl)
      · exact hn.1 hmem
      · exact hlt.false
  | look _ hoff hnodes hqueue hjoin =>
    obtain ⟨hsub, hmem⟩ := deque_spec s.chan.nodes s.chan.waitingProducers
    intro q n hq
    rw [hoff] at hq
    rw [hqueue, hnodes n (hst.offers_lt hq)]
    rcases h q n hq with ⟨hn, hfull⟩ | ⟨hn, d, hd⟩
    · rcases mem_of_deque hn (by rw [hfull]; simp) with hfirst | hrest
      · obtain ⟨d, hd⟩ := hjoin n hfirst
        have hnd := (List.nodup_append.mp hst.seating.nodup).1
        exact Or.inr ⟨(hmem n hfirst).2 hnd, d, List.mem_append_right _ hd⟩
      · exact Or.inl ⟨hrest, hfull⟩
    · exact Or.inr ⟨fun hmem => hn (hsub.subset hmem), d, List.mem_append_left _ hd⟩
  | @node p x m r node hseat hpc hnodes hqueue hx _ _ =>
    intro q n hq
    rw [hqueue, hnodes]
    by_cases hqp : q = p
    · subst hqp
      rw [hpc, Function.update_self] at hq
      obtain ⟨rfl, hp, hfull⟩ := hx n hq
      rw [Function.update_self]
      exact (h.mono es q n hp).imp_left fun hn => ⟨hn.1, hfull hn.2⟩
    · rw [hpc, Function.update_of_ne hqp] at hq
      by_cases hnm : n = m
      · subst hnm
        refine (h.mono es q n hq).imp_left fun ⟨hn, hfull⟩ => ?_
        -- whoever is at the node is the put itself
        obtain ⟨-, hseats, hone, -⟩ := hst.offers_of_full hn hfull
        exact absurd (hone q p hq (hseats p r hseat)) hqp
      · rw [Function.update_of_ne hnm]
        exact h.mono es q n hq

omit [Inhabited T] in
/-- Nothing but a put that gives up cancels a node of the queue. -/
theorem Live.shift (hl : Live s) (hst : Story tr s life) (hs : Shift s s' es false) : Live s' := by
  have hlt : ∀ n ∈ s.chan.waitingProducers, n < s.chan.size := by
    intro n hn
    obtain ⟨p, hp⟩ := (hst.offers_of_full hn (hl n hn)).1
    exact hst.offers_lt hp
  cases hs with
  | outside _ _ hnodes hqueue =>
    intro n hn
    rw [hqueue] at hn
    rw [hnodes n (hlt n hn)]
    exact hl n hn
  | offer _ _ _ _ hnodes hfull hqueue =>
    intro n hn
    rw [hqueue, List.mem_append, List.mem_singleton] at hn
    rcases hn with hn | rfl
    · rw [hnodes n (hlt n hn)]
      exact hl n hn
    · exact hfull
  | look _ _ hnodes hqueue _ =>
    intro n hn
    rw [hqueue] at hn
    have hn := (deque_spec s.chan.nodes s.chan.waitingProducers).1.subset hn
    rw [hnodes n (hlt n hn)]
    exact hl n hn
  | @node p x m r node hseat _ hnodes hqueue _ _ hnode =>
    intro n hn
    rw [hqueue] at hn
    rw [hnodes]
    by_cases hnm : n = m
    · subst hnm
      have hp := (hst.offers_of_full hn (hl n hn)).2.1 p r hseat
      rw [Function.update_self]
      exact (hnode hp hn (hl n hn)).mpr rfl
    · rw [Function.update_of_ne hnm]
      exact hl n hn

omit [Inhabited T] in
/-- A put that gives up leaves a cancelled node in the queue. -/
theorem Queued.not_live (h : Queued tr s) (hs : Shift s s' es true) : ¬ Live s' := by
  intro hl
  cases hs with
  | outside hq | offer hq | look hq => cases hq
  | @node p x n r node hseat _ hnodes hqueue _ hquit hnode =>
    obtain ⟨hp, hn⟩ := hquit rfl
    have hfull : (s.chan.nodes n).state_ = .FULL := ((h p n hp).resolve_right fun hno => hno.1 hn).2
    have hafter := hl n (hqueue ▸ hn)
    rw [hnodes, Function.update_self] at hafter
    exact absurd ((hnode hp hn hfull).mp hafter) (by simp)

section Size

variable [Fintype ι]

omit [DecidableEq ι] [Inhabited T] in
/-- The puts that wait are those of the full nodes in the queue. -/
theorem Queued.waiting_eq (h : Queued tr s) (hst : Story tr s life) :
    waiting tr s = (s.chan.waitingProducers.filter fun n => (s.chan.nodes n).state_ = .FULL).length := by
  classical
  have hnd := (List.nodup_append.mp hst.seating.nodup).1
  rw [← List.toFinset_card_of_nodup (hnd.filter _)]
  unfold waiting count
  have hjoined : ∀ n, tr.any (Event.joins n) = true ↔ ∃ d, .joined d n ∈ tr := by
    intro n
    rw [List.any_eq_true]
    constructor
    · rintro ⟨e, he, hn⟩
      cases e with
      | joined d m =>
        obtain rfl : m = n := by simpa [Event.joins] using hn
        exact ⟨d, he⟩
      | put | take | offered | putRet | putFail | putThrew | took | takeThrew => cases hn
    · rintro ⟨d, hd⟩
      exact ⟨_, hd, by simp [Event.joins]⟩
  have hwaits : ∀ p, (s.pc p).waits tr = true ↔ ∃ n, (s.pc p).offers = some n ∧ n ∈ s.chan.waitingProducers ∧
      (s.chan.nodes n).state_ = .FULL := by
    intro p
    unfold Pc.waits
    rw [Option.any_eq_true]
    refine exists_congr fun n => and_congr_right fun hp => ?_
    rw [Bool.not_eq_true', ← Bool.not_eq_true, hjoined]
    constructor
    · exact fun hno => (h p n hp).resolve_right fun hn => hno hn.2
    · rintro ⟨hn, hfull⟩ ⟨d, hd⟩
      exact (hst.offers_of_full hn hfull).2.2.2 d hd
  refine Finset.card_bij (fun p _ => ((s.pc p).offers).getD 0) (fun p hp => ?_) (fun p hp q hq heq => ?_)
    fun n hn => ?_
  · obtain ⟨n, hoff, hn, hfull⟩ := (hwaits p).mp (Finset.mem_filter.mp hp).2
    simp [hoff, hn, hfull]
  · obtain ⟨n, hoff, hn, hfull⟩ := (hwaits p).mp (Finset.mem_filter.mp hp).2
    obtain ⟨m, hoff', -, -⟩ := (hwaits q).mp (Finset.mem_filter.mp hq).2
    rw [hoff, hoff', Option.getD_some, Option.getD_some] at heq
    exact (hst.offers_of_full hn hfull).2.2.1 p q hoff (heq ▸ hoff')
  · obtain ⟨hn, hfull⟩ : n ∈ s.chan.waitingProducers ∧ (s.chan.nodes n).state_ = .FULL := by simpa using hn
    obtain ⟨p, hp⟩ := (hst.offers_of_full hn hfull).1
    exact ⟨p, Finset.mem_filter.mpr ⟨Finset.mem_univ p, (hwaits p).mpr ⟨n, hp, hn, hfull⟩⟩, by rw [hp]; rfl⟩

omit [DecidableEq ι] [Inhabited T] in
theorem Queued.size_eq_iff (h : Queued tr s) (hst : Story tr s life) : size s = waiting tr s ↔ Live s := by
  rw [h.waiting_eq hst, size, eq_comm, List.length_filter_eq_length_iff]
  simp [Live]

variable {π : List (Taken (World ι T) (Act ι T) (Event T))}

omit [Fintype ι] in
theorem run_queued (hr : Run machine π s) : Queued (events π) s := by
  induction hr with
  | start =>
    intro p n hp
    cases hp
  | @snoc π s s' a es hr hstep ih =>
    obtain ⟨life, hst, -⟩ := run_story hr
    rw [events_snoc]
    exact ih.shift hst (step_shift hstep)

/-- **The size.**  In every state of a run the size is the number of put calls that wait for a consumer, and the
channel is empty where there are none, exactly if in no step a put gives up while its node is queued. -/
theorem size_iff (hr : Run machine π s) :
    (∀ ρ t, ρ <+: π → Run machine ρ t → size t = waiting (events ρ) t ∧ (waiting (events ρ) t = 0 → empty t)) ↔
      Meets (fun s a => quits s a = false) π := by
  have hempty : ∀ {t : World ι T} {ρ : List (Taken (World ι T) (Act ι T) (Event T))},
      size t = waiting (events ρ) t → waiting (events ρ) t = 0 → empty t := by
    intro t ρ hsize h0
    unfold empty
    rw [hsize, h0]
    rfl
  constructor
  · intro h x hx
    by_contra hquit
    obtain ⟨π₁, π₂, rfl⟩ := List.append_of_mem hx
    obtain ⟨t, ht⟩ := hr.split π₂
    obtain ⟨hpre, hstep⟩ := ht.snoc_inv
    obtain ⟨life, hst, -⟩ := run_story ht
    have hlive := ((run_queued ht).size_eq_iff hst).mp (h _ t ⟨π₂, by simp⟩ ht).1
    have hs := step_shift hstep
    rw [eq_true_of_ne_false hquit] at hs
    exact (run_queued hpre).not_live hs hlive
  · intro hC ρ t hρ ht
    have hlive : Live t := by
      have hmeets : Meets (fun s a => quits s a = false) ρ := fun x hx => hC x (hρ.subset hx)
      clear hρ
      induction ht with
      | start =>
        intro n hn
        cases hn
      | @snoc ρ s s' a es hr hstep ih =>
        obtain ⟨hmeets, hquit⟩ := meets_snoc.mp hmeets
        obtain ⟨life, hst, -⟩ := run_story hr
        have hs := step_shift hstep
        rw [hquit] at hs
        exact (ih hmeets).shift hst hs
    obtain ⟨life, hst, -⟩ := run_story ht
    have hsize := ((run_queued ht).size_eq_iff hst).mpr hlive
    exact ⟨hsize, hempty hsize⟩

/-- Two puts wait, and a take comes for the first. -/
theorem size_iff_three :
    ∃ (π : _) (s : World (Fin 3) ℕ), Run machine π s ∧ size s = 1 ∧ waiting (events π) s = 1 := by
  obtain ⟨π, s, hr, hp⟩ := exists_run_of_replay (M := machine)
    (p := fun π (s : World (Fin 3) ℕ) => decide (size s = 1 ∧
      Meets (fun s (a : Act (Fin 3) ℕ) => quits s a = false) π))
    [.put (0 : Fin 3) true 7, .run 0, .run 0, .run 0, .put 1 true 8, .run 1, .run 1, .run 1, .take 2 true,
      .run 2, .run 2] (by decide)
  obtain ⟨hsize, hC⟩ := of_decide_eq_true hp
  exact ⟨π, s, hr, hsize, ((size_iff hr).mpr hC π s List.prefix_rfl hr).1.symm.trans hsize⟩

/-- A put runs out of time and returns, and the channel is not empty. -/
theorem size_wrong_one :
    ¬ ∀ (π : _) (s : World (Fin 1) ℕ), Run machine π s → Meets (fun _ a => a ≠ .interrupt) π →
      size s = waiting (events π) s ∧ ((∀ p, s.pc p = .idle) → empty s = true) := by
  intro h
  obtain ⟨π, s, hr, hp⟩ := exists_run_of_replay (M := machine)
    (p := fun π (s : World (Fin 1) ℕ) => decide ((∀ p, s.pc p = .idle) ∧ empty s = false ∧
      Meets (fun _ (a : Act (Fin 1) ℕ) => a ≠ .interrupt) π))
    [.put (0 : Fin 1) true 7, .run 0, .run 0, .run 0, .wake 0 .timedOut] (by decide)
  obtain ⟨hidle, hempty, hno⟩ := of_decide_eq_true hp
  have hyes := (h π s hr hno).2 hidle
  rw [hempty] at hyes
  cases hyes

end Size

end Step

end Lasagne.Daf.SynchronousChannel
