import Lasagne.Daf.HandOff

/-!
# Lasagne.Daf.ChannelCall — one call at a synchronous channel

What the program around a channel needs to know of the calls it makes, with or without interruption.

* `step_frame` and `step_offer`: what a section of one thread changes, and how a put goes on or ends.
* `Handed`: the item of a put is handed over at one node at most, and not at all if the put returns `-1`.
* `run_kept`: nor if it throws, unless a put `robs`.
-/

namespace Lasagne.Daf.SynchronousChannel

open Lasagne.Trans

variable {ι T : Type*}

/-! ## Sections of a call -/

section Sections

variable [DecidableEq ι] {s s' : World ι T} {p : ι} {es : List (Event T)}

/-- A section of a thread that is in a call. -/
def Act.sectionOf (p : ι) (a : Act ι T) : Prop := a = .run p ∨ ∃ r, a = .wake p r

/-- The events that end the put `c`. -/
def Event.endsPut (c : ℕ) (e : Event T) : Prop :=
  (∃ n, e = .putRet c n) ∨ (∃ n, e = .putFail c n) ∨ ∃ at_ x, e = .putThrew c at_ x

/-- `p` moves, nobody else does, and nothing is called. -/
def Frames (s : World ι T) (p : ι) (r : World ι T × List (Event T)) : Prop :=
  (∀ q, q ≠ p → r.1.pc q = s.pc q) ∧ ∀ c t, .put c t ∉ r.2

/-- How a put goes on or ends. -/
def Offers (p : ι) (c : ℕ) (t : T) (r : World ι T × List (Event T)) : Prop :=
  ∃ pre, (pre = [] ∨ ∃ n, pre = [.offered c n]) ∧
    ((r.2 = pre ∧ (r.1.pc p).call = some c ∧ (r.1.pc p).item = some t) ∨
      r.1.pc p = .idle ∧ ∃ e, e.endsPut c ∧ r.2 = pre ++ [e])

theorem frames_goto {p : ι} {ch : Channel T} {x : Pc T} (h : ∀ c t, .put c t ∉ es) :
    Frames s p (s.goto p ch x, es) :=
  ⟨fun _ hq => Function.update_of_ne hq _ _, h⟩

theorem putLocked_frames (timed : Bool) (c : ℕ) (t : T) : Frames s p (putLocked s p timed c t) := by
  unfold putLocked
  split <;> exact frames_goto (by simp)

theorem putLocked_offers (timed : Bool) (c : ℕ) (t : T) : Offers p c t (putLocked s p timed c t) := by
  unfold putLocked
  split
  · exact ⟨[], Or.inl rfl, Or.inl ⟨rfl, by simp [World.goto, Pc.call], by simp [World.goto, Pc.item]⟩⟩
  · exact ⟨_, Or.inr ⟨_, rfl⟩,
      Or.inl ⟨rfl, by simp [World.goto, Pc.call], by simp [World.goto, Pc.item]⟩⟩

theorem putEnds_frames (timed : Bool) (c : ℕ) (t : T) (n : ℕ) (guest : Bool)
    (r : SYNCHNode T × Ends ℤ) : Frames s p (putEnds s p timed c t n guest r) := by
  unfold putEnds
  dsimp only
  split
  · exact frames_goto (by simp)
  · exact frames_goto (by simp)
  · refine frames_goto fun c t => ?_
    split_ifs <;> simp
  · exact frames_goto (by simp)

theorem putEnds_offers (timed : Bool) (c : ℕ) (t : T) (n : ℕ) (guest : Bool)
    (r : SYNCHNode T × Ends ℤ) : Offers p c t (putEnds s p timed c t n guest r) := by
  unfold putEnds
  dsimp only
  split
  · exact ⟨[], Or.inl rfl, Or.inl ⟨rfl, by simp [World.goto, Pc.call], by simp [World.goto, Pc.item]⟩⟩
  · exact ⟨[], Or.inl rfl, Or.inl ⟨rfl, by simp [World.goto, Pc.call], by simp [World.goto, Pc.item]⟩⟩
  · split_ifs
    · exact ⟨_, Or.inr ⟨n, rfl⟩, Or.inr ⟨by simp [World.goto], _, Or.inl ⟨n, rfl⟩, rfl⟩⟩
    · exact ⟨[], Or.inl rfl, Or.inr ⟨by simp [World.goto], _, Or.inl ⟨n, rfl⟩, rfl⟩⟩
    · exact ⟨[], Or.inl rfl, Or.inr ⟨by simp [World.goto], _, Or.inr (Or.inl ⟨n, rfl⟩), rfl⟩⟩
  · exact ⟨[], Or.inl rfl, Or.inr ⟨by simp [World.goto], _, Or.inr (Or.inr ⟨_, _, rfl⟩), rfl⟩⟩

theorem takeEnds_frames (timed : Bool) (d n : ℕ) (r : SYNCHNode T × Ends T) :
    Frames s p (takeEnds s p timed d n r) := by
  unfold takeEnds
  dsimp only
  split <;> exact frames_goto (by simp)

variable [Inhabited T]

theorem takeLocked_frames (timed : Bool) (d : ℕ) : Frames s p (takeLocked s p timed d) := by
  unfold takeLocked
  split <;> exact frames_goto (by simp)

/-- A section of `p` leaves the other threads where they are. -/
theorem step_frame {a : Act ι T} (ha : a.sectionOf p) (hs : step s a = some (s', es)) :
    Frames s p (s', es) := by
  rcases ha with rfl | ⟨r, rfl⟩
  · simp only [step] at hs
    split at hs
    · split_ifs at hs <;> obtain ⟨rfl, rfl⟩ := by simpa using hs
      all_goals exact frames_goto (by simp)
    · exact Option.some.inj hs ▸ putLocked_frames _ _ _
    · exact Option.some.inj hs ▸ putEnds_frames _ _ _ _ _ _
    · split_ifs at hs <;> obtain ⟨rfl, rfl⟩ := by simpa using hs
      all_goals exact frames_goto (by simp)
    · exact Option.some.inj hs ▸ takeLocked_frames _ _
    · exact Option.some.inj hs ▸ takeEnds_frames _ _ _ _
    · cases hs
  · simp only [step] at hs
    split at hs
    · split_ifs at hs
      exact Option.some.inj hs ▸ putEnds_frames _ _ _ _ _ _
    · split_ifs at hs
      exact Option.some.inj hs ▸ takeEnds_frames _ _ _ _
    · cases hs

theorem step_put {timed : Bool} {t : T} (hs : step s (.put p timed t) = some (s', es)) :
    s'.pc = Function.update s.pc p (.putTop timed s.calls t) ∧ es = [.put s.calls t] := by
  simp only [step] at hs
  split at hs
  · obtain ⟨rfl, rfl⟩ := by simpa using hs
    exact ⟨rfl, rfl⟩
  · cases hs

theorem step_take {timed : Bool} (hs : step s (.take p timed) = some (s', es)) :
    Frames s p (s', es) := by
  simp only [step] at hs
  split at hs
  · obtain ⟨rfl, rfl⟩ := by simpa using hs
    exact ⟨fun _ hq => Function.update_of_ne hq _ _, by simp⟩
  · cases hs

/-- A section of a put. -/
theorem step_offer {a : Act ι T} {c : ℕ} {t : T} (hc : (s.pc p).call = some c)
    (ht : (s.pc p).item = some t) (ha : a.sectionOf p) (hs : step s a = some (s', es)) :
    Offers p c t (s', es) := by
  rcases ha with rfl | ⟨r, rfl⟩
  · cases hp : s.pc p with
    | putTop timed c' t' =>
      obtain ⟨rfl, rfl⟩ : c' = c ∧ t' = t := by simpa [hp, Pc.call, Pc.item] using And.intro hc ht
      simp only [step, hp] at hs
      split_ifs at hs <;> obtain ⟨rfl, rfl⟩ := by simpa using hs
      · exact ⟨[], Or.inl rfl, Or.inr ⟨by simp [World.goto], _, Or.inr (Or.inr ⟨_, _, rfl⟩), rfl⟩⟩
      · exact ⟨[], Or.inl rfl,
          Or.inl ⟨rfl, by simp [World.goto, Pc.call], by simp [World.goto, Pc.item]⟩⟩
    | putLock timed c' t' =>
      obtain ⟨rfl, rfl⟩ : c' = c ∧ t' = t := by simpa [hp, Pc.call, Pc.item] using And.intro hc ht
      simp only [step, hp] at hs
      exact Option.some.inj hs ▸ putLocked_offers _ _ _
    | putNode timed c' t' n w =>
      obtain ⟨rfl, rfl⟩ : c' = c ∧ t' = t := by simpa [hp, Pc.call, Pc.item] using And.intro hc ht
      simp only [step, hp] at hs
      exact Option.some.inj hs ▸ putEnds_offers _ _ _ _ _ _
    | idle | putWait | takeTop | takeLock | takeNode | takeWait => simp [step, hp, Pc.item] at hs ht
  · cases hp : s.pc p with
    | putWait timed c' t' n =>
      obtain ⟨rfl, rfl⟩ : c' = c ∧ t' = t := by simpa [hp, Pc.call, Pc.item] using And.intro hc ht
      simp only [step, hp] at hs
      split_ifs at hs
      exact Option.some.inj hs ▸ putEnds_offers _ _ _ _ _ _
    | idle | putTop | putLock | putNode | takeTop | takeLock | takeNode | takeWait =>
      simp [step, hp, Pc.item] at hs ht

/-- A take whose node is full takes what is there, however it goes on. -/
theorem step_full {a : Act ι T} {d n : ℕ} {v : T} (hp : (s.pc p).seat = some (n, .takeHost d))
    (hfull : s.chan.nodes n = ⟨v, .FULL⟩) (hi : s.chan.interrupted_ = false) (ha : a.sectionOf p)
    (hs : step s a = some (s', es)) : es = [.took d n v] := by
  have htake : ∀ timed, (takeEnds s p timed d n ((s.chan.nodes n).takeLoop s.chan.interrupted_)).2 =
      [.took d n v] := by
    intro timed
    rw [hfull, hi]
    rfl
  rcases ha with rfl | ⟨r, rfl⟩
  · cases hpc : s.pc p with
    | takeNode timed d' n' w =>
      cases w with
      | true =>
        obtain ⟨rfl, rfl⟩ : n' = n ∧ d' = d := by simpa [hpc, Pc.seat] using hp
        simp only [step, hpc, if_true] at hs
        exact (congrArg Prod.snd (Option.some.inj hs)).symm.trans (htake timed)
      | false => simp [hpc, Pc.seat] at hp
    | putNode timed c t n' w => cases w <;> simp [hpc, Pc.seat] at hp
    | idle | putTop | putLock | putWait | takeTop | takeLock => simp [hpc, Pc.seat] at hp
    | takeWait => simp [step, hpc] at hs
  · cases hpc : s.pc p with
    | takeWait timed d' n' =>
      obtain ⟨rfl, rfl⟩ : n' = n ∧ d' = d := by simpa [hpc, Pc.seat] using hp
      simp only [step, hpc] at hs
      split_ifs at hs
      refine (congrArg Prod.snd (Option.some.inj hs)).symm.trans ?_
      cases r with
      | timedOut =>
        rw [hfull]
        rfl
      | woken => exact htake timed
    | putNode timed c t n' w => cases w <;> simp [hpc, Pc.seat] at hp
    | idle | putTop | putLock | putWait | takeTop | takeLock => simp [hpc, Pc.seat] at hp
    | takeNode => simp [step, hpc] at hs

end Sections

/-! ## Where an item is handed over -/

section Handed

variable {tr : List (Event T)} {s : World ι T} {life : ℕ → Life T} {c d d' n m : ℕ} {v v' : T}

/-- The item of `c` has left its hands at `n`, as far as a take can tell. -/
def Handed (tr : List (Event T)) (s : World ι T) (c n : ℕ) : Prop :=
  s.PutsAt c n ∨ .putRet c n ∈ tr ∨ ∃ e, .putThrew c (some n) e ∈ tr

/-- An item is handed over at one node. -/
theorem Story.handed_inj (h : Story tr s life) (hn : Handed tr s c n) (hm : Handed tr s c m) : n = m := by
  have hactive : ∀ {i : ℕ} {e : Event T}, s.PutsAt c i → e ∈ tr → e.ends ≠ some c := by
    rintro i e ⟨p, t, hp⟩ he hc
    exact (h.calls.ended e he c hc).2 p (Pc.call_of_seat hp)
  rcases hn with hn | hn | ⟨e, hn⟩ <;> rcases hm with hm | hm | ⟨e', hm⟩
  · obtain ⟨p, t, hp⟩ := hn
    obtain ⟨q, t', hq⟩ := hm
    obtain rfl : p = q := h.calls.inj p q c (Pc.call_of_seat hp) (Pc.call_of_seat hq)
    rw [hp] at hq
    exact congrArg Prod.fst (Option.some.inj hq)
  · exact absurd rfl (hactive hn hm)
  · exact absurd rfl (hactive hn hm)
  · exact absurd rfl (hactive hm hn)
  · simpa using h.calls.eq_of_ends hn hm rfl rfl
  · cases h.calls.eq_of_ends hn hm rfl rfl
  · exact absurd rfl (hactive hm hn)
  · cases h.calls.eq_of_ends hn hm rfl rfl
  · cases h.calls.eq_of_ends hn hm rfl rfl
    rfl

/-- The item of a put that returned `-1` has not been handed over. -/
theorem Story.not_failed (h : Story tr s life) (hn : Handed tr s c n) : .putFail c m ∉ tr := by
  intro hfail
  rcases hn with ⟨p, t, hp⟩ | hn | ⟨e, hn⟩
  · exact (h.calls.ended _ hfail c rfl).2 p (Pc.call_of_seat hp)
  · cases h.calls.eq_of_ends hn hfail rfl rfl
  · cases h.calls.eq_of_ends hn hfail rfl rfl

/-- A take that returned was handed the item of a put. -/
theorem Story.handed_of_took (h : Story tr s life) (hd : .took d n v ∈ tr) :
    ∃ c, .put c v ∈ tr ∧ .offered c n ∈ tr ∧ Handed tr s c n := by
  have hlog := hd
  rw [h.mem_log rfl] at hlog
  cases hL : life n with
  | taken c t d' =>
    obtain ⟨rfl, rfl⟩ : d = d' ∧ v = t := by simpa [hL, Life.log] using hlog
    obtain ⟨p, hp⟩ := h.seating.hosted n (.putHost c v) (by rw [hL]; rfl)
    exact ⟨c, h.items n c v (by rw [hL]; rfl), by rw [h.mem_log rfl, hL]; simp [Life.log],
      Or.inl ⟨p, v, hp⟩⟩
  | met first c t d' =>
    obtain ⟨rfl, rfl⟩ : d = d' ∧ v = t := by cases first <;> simpa [hL, Life.log] using hlog
    refine ⟨c, h.items n c v (by rw [hL]; rfl), ?_, Or.inr (Or.inl ?_)⟩ <;> rw [h.mem_log rfl, hL] <;>
      cases first <;> simp [Life.log]
  | robbed c t d' =>
    obtain ⟨rfl, rfl⟩ : d = d' ∧ v = t := by simpa [hL, Life.log] using hlog
    exact ⟨c, h.items n c v (by rw [hL]; rfl), by rw [h.mem_log rfl, hL]; simp [Life.log],
      Or.inr (Or.inr (h.robbed n c v d hL))⟩
  | void o => cases o <;> simp [hL, Life.log] at hlog
  | unborn | offers | seeks | given | lost => simp [hL, Life.log] at hlog

/-- One take returns from a node. -/
theorem Story.took_inj (h : Story tr s life) (hd : .took d n v ∈ tr) (hd' : .took d' n v' ∈ tr) :
    d = d' ∧ v = v' := by
  rw [h.mem_log rfl] at hd hd'
  cases hL : life n with
  | met first => cases first <;> simp_all [Life.log]
  | void o => cases o <;> simp_all [Life.log]
  | taken | robbed | unborn | offers | seeks | given | lost => simp_all [Life.log]

/-- The item in the node of a waiting take is that of a put which has returned `0`, and nobody else waits
for it. -/
theorem Story.handed_of_full (h : Story tr s life) {p : ι} (hp : (s.pc p).seat = some (n, .takeHost d))
    (hfull : s.chan.nodes n = ⟨v, .FULL⟩) :
    ∃ c, .put c v ∈ tr ∧ .putRet c n ∈ tr ∧ (∀ d v, .took d n v ∉ tr) ∧
      ∀ q d', (s.pc q).seat = some (n, .takeHost d') → q = p := by
  have hallow := h.seating.seated p n _ hp
  have hfit := h.seating.fits n
  rw [hfull] at hfit
  cases hL : life n with
  | given d' c t =>
    rw [hL] at hfit
    obtain rfl : v = t := by simpa [Life.Fits] using hfit
    rw [hL] at hallow
    refine ⟨c, h.items n c v (by rw [hL]; rfl), ?_, fun d v => ?_, fun q e hq => ?_⟩
    · rw [h.mem_log rfl, hL]
      simp [Life.log]
    · rw [h.mem_log rfl, hL]
      simp [Life.log]
    · have hallow' := h.seating.seated q n _ hq
      rw [hL] at hallow'
      obtain rfl : e = d := Eq.trans hallow' (Eq.symm hallow)
      exact h.calls.inj q p e (Pc.call_of_seat hq) (Pc.call_of_seat hp)
  | seeks | void => simp [hL, Life.Fits] at hfit
  | unborn | offers | taken | met | robbed | lost => simp [hL, Life.Allows] at hallow

end Handed

/-! ## Throwing too late -/

section Late

variable [DecidableEq ι] {tr es : List (Event T)} {s s' : World ι T} {life life' : ℕ → Life T}
  {p : ι} {c d n : ℕ} {v : T} {e : Exn}

/-- A put that looks at the flag and throws, although its item was taken. -/
def robs (s : World ι T) : Act ι T → Bool
  | .run p =>
    match s.pc p with
    | .putNode _ _ _ n true => s.chan.interrupted_ && (s.chan.nodes n).state_ = .EMPTY
    | _ => false
  | _ => false

theorem putEnds_took (timed : Bool) (t : T) (m : ℕ) (guest : Bool) (r : SYNCHNode T × Ends ℤ) :
    .took d n v ∉ (putEnds s p timed c t m guest r).2 := by
  unfold putEnds
  dsimp only
  split
  · simp
  · simp
  · split_ifs <;> simp
  · simp

theorem of_putEnds_threw {timed : Bool} {c' : ℕ} {t : T} {m : ℕ} {guest : Bool}
    {r : SYNCHNode T × Ends ℤ} (h : .putThrew c (some n) e ∈ (putEnds s p timed c' t m guest r).2) :
    c = c' ∧ n = m ∧ r.2 = .throws e := by
  unfold putEnds at h
  dsimp only at h
  split at h
  · simp at h
  · simp at h
  · split_ifs at h <;> simp at h
  · next e' hr =>
    obtain ⟨rfl, rfl, rfl⟩ : c = c' ∧ n = m ∧ e = e' := by simpa using h
    exact ⟨rfl, rfl, hr⟩

theorem of_takeEnds_took {timed : Bool} {d' m : ℕ} {r : SYNCHNode T × Ends T}
    (h : .took d n v ∈ (takeEnds s p timed d' m r).2) :
    n = m ∧ r.2 = .returns v ∧ (takeEnds s p timed d' m r).2 = [.took d n v] := by
  unfold takeEnds at h
  dsimp only at h
  split at h
  · simp at h
  · simp at h
  · next v' hr =>
    obtain ⟨rfl, rfl, rfl⟩ : d = d' ∧ n = m ∧ v = v' := by simpa using h
    exact ⟨rfl, hr, by simp [takeEnds, hr]⟩
  · simp at h

theorem takeEnds_threw (timed : Bool) (d' m : ℕ) (r : SYNCHNode T × Ends T) :
    .putThrew c (some n) e ∉ (takeEnds s p timed d' m r).2 := by
  unfold takeEnds
  dsimp only
  split <;> simp

section Nodes

variable [Inhabited T] {node : SYNCHNode T} {i : Bool}

theorem SYNCHNode.full_of_takeLoop (h : (node.takeLoop i).2 = .returns v) : node.state_ = .FULL := by
  cases hs : node.state_ <;> cases i <;> simp_all [takeLoop, get_item, SYNCHNode.throws]

theorem SYNCHNode.full_of_takeGuest (h : (node.takeGuest i).2 = .returns v) : node.state_ = .FULL := by
  cases hs : node.state_ <;> cases i <;> simp_all [takeGuest, get_item, SYNCHNode.throws]

theorem SYNCHNode.full_of_takeWoke {r : WaitResult} (h : (node.takeWoke i r).2 = .returns v) :
    node.state_ = .FULL := by
  cases r with
  | woken => exact full_of_takeLoop h
  | timedOut => cases hs : node.state_ <;> simp_all [takeWoke, get_item, SYNCHNode.throws]

theorem SYNCHNode.interrupted_of_putLoop (h : (node.putLoop i).2 = .throws e) : i = true := by
  cases hs : node.state_ <;> cases i <;> simp_all [putLoop]

theorem SYNCHNode.not_empty_of_putWoke {r : WaitResult} (h : (node.putWoke i r).2 = .throws e) :
    node.state_ ≠ .EMPTY := by
  intro hs
  simp [putWoke, hs] at h

/-- Only what is in a node is taken from it; and a put that throws at a node sits there, and robs if its item
was taken. -/
def AtNode (s : World ι T) (a : Act ι T) (es : List (Event T)) : Prop :=
  (∀ d n v, .took d n v ∈ es → es = [.took d n v] ∧ (∃ p r, (s.pc p).seat = some (n, r)) ∧
    (s.chan.nodes n).state_ = .FULL) ∧
  ∀ c n e, .putThrew c (some n) e ∈ es → ∃ p t, (s.pc p).seat = some (n, .putGuest c t) ∨
    ((s.pc p).seat = some (n, .putHost c t) ∧ ((s.chan.nodes n).state_ = .EMPTY → robs s a = true))

omit [DecidableEq ι] [Inhabited T] in
theorem AtNode.none {a : Act ι T} (htook : ∀ d n v, .took d n v ∉ es)
    (hthrew : ∀ c n e, .putThrew c (some n) e ∉ es) : AtNode s a es :=
  ⟨fun d n v h => absurd h (htook d n v), fun c n e h => absurd h (hthrew c n e)⟩

theorem step_atNode {a : Act ι T} (hs : step s a = some (s', es)) : AtNode s a es := by
  have hsnd : ∀ {x : World ι T × List (Event T)}, some x = some (s', es) → es = x.2 := by
    rintro _ ⟨⟩
    rfl
  cases a with
  | put p timed t =>
    obtain ⟨-, rfl⟩ := step_put hs
    exact .none (by simp) (by simp)
  | take p timed =>
    simp only [step] at hs
    split at hs
    · rw [hsnd hs]
      exact .none (by simp) (by simp)
    · cases hs
  | run p =>
    simp only [step] at hs
    split at hs
    · split_ifs at hs <;> rw [hsnd hs] <;> exact .none (by simp) (by simp)
    · rw [hsnd hs]
      unfold putLocked
      split <;> exact .none (by simp) (by simp)
    · next timed c t n w hp =>
      rw [hsnd hs]
      refine ⟨fun d n v h => absurd h (putEnds_took _ _ _ _ _), fun c' n' e he => ⟨p, t, ?_⟩⟩
      obtain ⟨rfl, rfl, hr⟩ := of_putEnds_threw he
      cases w with
      | true =>
        refine Or.inr ⟨by rw [hp]; rfl, fun hempty => ?_⟩
        have hi := SYNCHNode.interrupted_of_putLoop (by simpa using hr)
        simp [robs, hp, hi, hempty]
      | false => exact Or.inl (by rw [hp]; rfl)
    · split_ifs at hs <;> rw [hsnd hs] <;> exact .none (by simp) (by simp)
    · rw [hsnd hs]
      unfold takeLocked
      split <;> exact .none (by simp) (by simp)
    · next timed d n w hp =>
      rw [hsnd hs]
      refine ⟨fun d' n' v h => ?_, fun c n e h => absurd h (takeEnds_threw _ _ _ _)⟩
      obtain ⟨rfl, hr, hes⟩ := of_takeEnds_took h
      cases w with
      | true => exact ⟨hes, ⟨p, .takeHost d, by rw [hp]; rfl⟩, SYNCHNode.full_of_takeLoop (by simpa using hr)⟩
      | false =>
        exact ⟨hes, ⟨p, .takeGuest d, by rw [hp]; rfl⟩, SYNCHNode.full_of_takeGuest (by simpa using hr)⟩
    · cases hs
  | wake p r =>
    simp only [step] at hs
    split at hs
    · next timed c t n hp =>
      split_ifs at hs
      rw [hsnd hs]
      refine ⟨fun d n v h => absurd h (putEnds_took _ _ _ _ _), fun c' n' e he => ⟨p, t, ?_⟩⟩
      obtain ⟨rfl, rfl, hr⟩ := of_putEnds_threw he
      exact Or.inr ⟨by rw [hp]; rfl, fun hempty => absurd hempty (SYNCHNode.not_empty_of_putWoke hr)⟩
    · next timed d n hp =>
      split_ifs at hs
      rw [hsnd hs]
      refine ⟨fun d' n' v h => ?_, fun c n e h => absurd h (takeEnds_threw _ _ _ _)⟩
      obtain ⟨rfl, hr, hes⟩ := of_takeEnds_took h
      exact ⟨hes, ⟨p, .takeHost d, by rw [hp]; rfl⟩, SYNCHNode.full_of_takeWoke hr⟩
    · cases hs
  | interrupt =>
    rw [hsnd hs]
    exact .none (by simp) (by simp)

/-- An item that its put threw with was not taken. -/
def Kept (tr : List (Event T)) : Prop :=
  ∀ c n e d v, .putThrew c (some n) e ∈ tr → .offered c n ∈ tr → .took d n v ∉ tr

omit [DecidableEq ι] [Inhabited T] in
/-- One item is offered at a node. -/
theorem Story.offered_inj (h : Story tr s life) {c' : ℕ} (hc : .offered c n ∈ tr) (hc' : .offered c' n ∈ tr) :
    c = c' := by
  rw [h.mem_log rfl] at hc hc'
  cases hL : life n with
  | met first => cases first <;> simp_all [Life.log]
  | void o => cases o <;> simp_all [Life.log]
  | taken | robbed | unborn | offers | seeks | given | lost => simp_all [Life.log]

omit [DecidableEq ι] [Inhabited T] in
/-- The item in a full node is that of a put that has not thrown. -/
theorem Story.offered_of_full (h : Story tr s life) {r : Seat T} (hp : (s.pc p).seat = some (n, r))
    (hfull : (s.chan.nodes n).state_ = .FULL) :
    ∃ c, .offered c n ∈ tr ∧ ∀ at_ e, .putThrew c at_ e ∉ tr := by
  have hallow := h.seating.seated p n r hp
  have hfit := h.seating.fits n
  cases hL : life n with
  | offers c t =>
    refine ⟨c, by rw [h.mem_log rfl, hL]; simp [Life.log], fun at_ e he => ?_⟩
    exact h.not_ended (r := .putHost c t) (by rw [hL]; rfl) he rfl
  | given d' c t =>
    refine ⟨c, by rw [h.mem_log rfl, hL]; simp [Life.log], fun at_ e he => ?_⟩
    have hret : .putRet c n ∈ tr := by
      rw [h.mem_log rfl, hL]
      simp [Life.log]
    cases h.calls.eq_of_ends he hret rfl rfl
  | unborn | met | robbed | lost => simp [hL, Life.Allows] at hallow
  | seeks | taken | void => simp [hL, Life.Fits, hfull] at hfit

omit [DecidableEq ι] [Inhabited T] in
/-- Whoever is still at a node whose item was taken is the put that offered it. -/
theorem Story.host_of_took (h : Story tr s life) (hd : .took d n v ∈ tr) {r : Seat T}
    (hp : (s.pc p).seat = some (n, r)) : (∃ c t, r = .putHost c t) ∧ (s.chan.nodes n).state_ = .EMPTY := by
  have hallow := h.seating.seated p n r hp
  have hfit := h.seating.fits n
  rw [h.mem_log rfl] at hd
  cases hL : life n with
  | taken c' t' d' =>
    rw [hL] at hallow hfit
    cases r with
    | putHost c t => exact ⟨⟨c, t, rfl⟩, hfit⟩
    | putGuest | takeHost | takeGuest => cases hallow
  | void o => cases o <;> simp [hL, Life.log] at hd
  | met | robbed => simp [hL, Life.Allows] at hallow
  | unborn | offers | seeks | given | lost => simp [hL, Life.log] at hd

/-- What was kept is kept by every step that does not rob. -/
theorem Story.kept (h : Story tr s life) (h' : Story (tr ++ es) s' life') {a : Act ι T}
    (hs : step s a = some (s', es)) (hrob : robs s a = false) (hk : Kept tr) : Kept (tr ++ es) := by
  obtain ⟨htook, hthrew⟩ := step_atNode hs
  intro c n e d v he hoff hd
  rcases List.mem_append.mp hd with hd | hd
  · rcases List.mem_append.mp he with he | he
    · obtain ⟨c', -, hoff', -⟩ := h.handed_of_took hd
      obtain rfl := h'.offered_inj hoff (List.mem_append_left _ hoff')
      exact hk c n e d v he hoff' hd
    · obtain ⟨p, t, hp | ⟨hp, hempty⟩⟩ := hthrew c n e he
      · obtain ⟨⟨c', t', hr⟩, -⟩ := h.host_of_took hd hp
        cases hr
      · rw [hempty (h.host_of_took hd hp).2] at hrob
        cases hrob
  · obtain ⟨rfl, ⟨p, r, hp⟩, hfull⟩ := htook d n v hd
    obtain ⟨c', hoff', hno⟩ := h.offered_of_full hp hfull
    obtain rfl := h'.offered_inj hoff (List.mem_append_left _ hoff')
    exact hno _ e (by simpa using he)

omit [DecidableEq ι] [Inhabited T] in
/-- Where what puts throw with is kept, an item is taken from no put that failed. -/
theorem Story.failed (h : Story tr s life) (hk : Kept tr)
    (hfail : (∃ m, .putFail c m ∈ tr) ∨ ∃ m e, .putThrew c m e ∈ tr) (hoff : .offered c n ∈ tr) :
    .took d n v ∉ tr := by
  intro hd
  obtain ⟨c', -, hoff', hhand⟩ := h.handed_of_took hd
  obtain rfl := h.offered_inj hoff hoff'
  rcases hfail with ⟨m, hm⟩ | ⟨m, e, hm⟩
  · exact h.not_failed hhand hm
  · rcases hhand with ⟨p, t, hp⟩ | hret | ⟨e', he⟩
    · exact (h.calls.ended _ hm c rfl).2 p (Pc.call_of_seat hp)
    · cases h.calls.eq_of_ends hm hret rfl rfl
    · exact hk c n e' d v he hoff hd

/-- In a run without a step that robs, no item is taken that its put throws with. -/
theorem run_kept {π : List (Taken (World ι T) (Act ι T) (Event T))} (hr : Run machine π s)
    (hC : Meets (fun s a => robs s a = false) π) : Kept (events π) := by
  induction hr with
  | start => exact fun _ _ _ _ _ h => by cases h
  | @snoc π s s' a es hr hstep ih =>
    obtain ⟨hπ, ha⟩ := meets_snoc.mp hC
    obtain ⟨life, h, -⟩ := run_story hr
    obtain ⟨life', h', -⟩ := run_story (hr.snoc hstep)
    rw [events_snoc] at h' ⊢
    exact h.kept h' hstep ha (ih hπ)

end Nodes

end Late

end Lasagne.Daf.SynchronousChannel
