import Lasagne.Daf.ChannelStory

/-!
# Lasagne.Daf.HandOff — what the callers of a synchronous channel may rely on

* `run_matched`: as long as nobody interrupts the channel, the puts that return `0` and the takes that
  return a value are matched one to one by the node they met at, and an item whose put failed is not taken.
* `honoured_iff`: with interruption, what the calls report is what happened exactly when no host looks at
  the flag, and throws, after its node has changed hands.
-/

namespace Lasagne.Daf.SynchronousChannel

open Lasagne.Trans

variable {ι T : Type*}

/-- The put `c` is the host of `n`. -/
def World.PutsAt (s : World ι T) (c n : ℕ) : Prop := ∃ p t, (s.pc p).seat = some (n, .putHost c t)

/-- The take `d` is the host of `n`. -/
def World.TakesAt (s : World ι T) (d n : ℕ) : Prop := ∃ p, (s.pc p).seat = some (n, .takeHost d)

section Lookup

variable {tr : List (Event T)} {s : World ι T} {life : ℕ → Life T}

theorem Story.mem_log (h : Story tr s life) {n : ℕ} {e : Event T} (he : e.node = some n) :
    e ∈ tr ↔ e ∈ (life n).log n := by
  rw [← h.logs n, mem_ofNode he]

/-- What the life of a node is, if a put returned from it. -/
theorem Story.of_putRet (h : Story tr s life) (hg : ∀ n, (life n).Good) {c n : ℕ}
    (hc : .putRet c n ∈ tr) :
    (∃ d t, life n = .given d c t) ∨ ∃ first t d, life n = .met first c t d := by
  rw [h.mem_log rfl] at hc
  have hgn := hg n
  cases hL : life n with
  | given d c' t => simp_all [Life.log]
  | met first c' t d => cases first <;> simp_all [Life.log]
  | lost => simp_all [Life.Good]
  | void o => cases o <;> simp_all [Life.log]
  | unborn | offers | taken | seeks | robbed => simp_all [Life.log]

/-- What the life of a node is, if a take returned from it. -/
theorem Story.of_took (h : Story tr s life) (hg : ∀ n, (life n).Good) {d n : ℕ} {v : T}
    (hd : .took d n v ∈ tr) :
    (∃ c, life n = .taken c v d) ∨ ∃ first c, life n = .met first c v d := by
  rw [h.mem_log rfl] at hd
  have hgn := hg n
  cases hL : life n with
  | taken c t d' => simp_all [Life.log]
  | met first c t d' => cases first <;> simp_all [Life.log]
  | robbed => simp_all [Life.Good]
  | void o => cases o <;> simp_all [Life.log]
  | unborn | offers | given | seeks | lost => simp_all [Life.log]

theorem Story.put_mem (h : Story tr s life) {n c : ℕ} {t : T} (hL : (life n).offer = some (c, t)) :
    .put c t ∈ tr := h.items n c t hL

/-- The call of a host has not ended. -/
theorem Story.not_ended (h : Story tr s life) {n : ℕ} {r : Seat T} (hL : (life n).host = some r)
    {e : Event T} (he : e ∈ tr) : e.ends ≠ some r.call := by
  intro hc
  obtain ⟨p, hp⟩ := h.seating.hosted n r hL
  exact (h.calls.ended e he _ hc).2 p (Pc.call_of_seat hp)

end Lookup

/-! ## Without interruption -/

section Matched

/-- Puts that return `0` and takes that return a value, and how they are matched. -/
structure Matched (tr : List (Event T)) (s : World ι T) : Prop where
  /-- a call puts one item, and ends at most once -/
  items : ∀ c t t', .put c t ∈ tr → .put c t' ∈ tr → t = t'
  once : (tr.filterMap Event.ends).Nodup
  /-- at most one put and one take return from a node -/
  puts : ∀ n c c', .putRet c n ∈ tr → .putRet c' n ∈ tr → c = c'
  takes : ∀ n d d' v v', .took d n v ∈ tr → .took d' n v' ∈ tr → d = d' ∧ v = v'
  /-- the take returns the item of the put it met -/
  item : ∀ n c d v, .putRet c n ∈ tr → .took d n v ∈ tr → .put c v ∈ tr
  /-- a take that returned met a put, which has returned `0` or is about to -/
  put_of_took : ∀ n d v, .took d n v ∈ tr → ∃ c, .offered c n ∈ tr ∧ .put c v ∈ tr ∧
    (.putRet c n ∈ tr ∨ (s.PutsAt c n ∧ (s.chan.nodes n).state_ = .EMPTY))
  /-- a put that returned `0` met a take, which has returned the item or is about to -/
  took_of_put : ∀ n c, .putRet c n ∈ tr → ∃ d v, .put c v ∈ tr ∧
    (.took d n v ∈ tr ∨ (s.TakesAt d n ∧ s.chan.nodes n = ⟨v, .FULL⟩))
  /-- when all calls have ended, the nodes of the puts are the nodes of the takes -/
  quiet : (∀ p, s.pc p = .idle) → ∀ n, (∃ c, .putRet c n ∈ tr) ↔ ∃ d v, .took d n v ∈ tr
  /-- no take returns the item of a put that returned `-1` -/
  failed : ∀ c m n d v, .putFail c m ∈ tr → .offered c n ∈ tr → .took d n v ∉ tr

theorem Story.matched {tr : List (Event T)} {s : World ι T} {life : ℕ → Life T} (h : Story tr s life)
    (hg : ∀ n, (life n).Good) : Matched tr s := by
  have hput_of_took : ∀ n d v, .took d n v ∈ tr → ∃ c, .offered c n ∈ tr ∧ .put c v ∈ tr ∧
      (.putRet c n ∈ tr ∨ (s.PutsAt c n ∧ (s.chan.nodes n).state_ = .EMPTY)) := by
    intro n d v hd
    have hfit := h.seating.fits n
    rcases h.of_took hg hd with ⟨c, hL⟩ | ⟨first, c, hL⟩
    · obtain ⟨p, hp⟩ := h.seating.hosted n (.putHost c v) (by rw [hL]; rfl)
      rw [hL] at hfit
      refine ⟨c, ?_, h.put_mem (by rw [hL]; rfl), Or.inr ⟨⟨p, v, hp⟩, hfit⟩⟩
      rw [h.mem_log rfl, hL]
      simp [Life.log]
    · refine ⟨c, ?_, h.put_mem (by rw [hL]; rfl), Or.inl ?_⟩ <;> rw [h.mem_log rfl, hL] <;>
        cases first <;> simp [Life.log]
  have htook_of_put : ∀ n c, .putRet c n ∈ tr → ∃ d v, .put c v ∈ tr ∧
      (.took d n v ∈ tr ∨ (s.TakesAt d n ∧ s.chan.nodes n = ⟨v, .FULL⟩)) := by
    intro n c hc
    have hfit := h.seating.fits n
    rcases h.of_putRet hg hc with ⟨d, t, hL⟩ | ⟨first, t, d, hL⟩
    · obtain ⟨p, hp⟩ := h.seating.hosted n (.takeHost d) (by rw [hL]; rfl)
      rw [hL] at hfit
      exact ⟨d, t, h.put_mem (by rw [hL]; rfl), Or.inr ⟨⟨p, hp⟩, hfit⟩⟩
    · refine ⟨d, t, h.put_mem (by rw [hL]; rfl), Or.inl ?_⟩
      rw [h.mem_log rfl, hL]
      cases first <;> simp [Life.log]
  refine ⟨h.calls.put_inj, h.calls.once, ?_, ?_, ?_, hput_of_took, htook_of_put, ?_, ?_⟩
  · intro n c c' hc hc'
    rcases h.of_putRet hg hc with ⟨d, t, hL⟩ | ⟨first, t, d, hL⟩ <;>
      rcases h.of_putRet hg hc' with ⟨d', t', hL'⟩ | ⟨first', t', d', hL'⟩ <;> simp_all
  · intro n d d' v v' hd hd'
    rcases h.of_took hg hd with ⟨c, hL⟩ | ⟨first, c, hL⟩ <;>
      rcases h.of_took hg hd' with ⟨c', hL'⟩ | ⟨first', c', hL'⟩ <;> simp_all
  · intro n c d v hc hd
    refine h.put_mem (n := n) ?_
    rcases h.of_putRet hg hc with ⟨d', t, hL⟩ | ⟨first, t, d', hL⟩ <;>
      rcases h.of_took hg hd with ⟨c', hL'⟩ | ⟨first', c', hL'⟩ <;> simp_all [Life.offer]
  · intro hidle n
    constructor
    · rintro ⟨c, hc⟩
      obtain ⟨d, v, -, hd | ⟨⟨p, hp⟩, -⟩⟩ := htook_of_put n c hc
      · exact ⟨d, v, hd⟩
      · rw [hidle p] at hp
        cases hp
    · rintro ⟨d, v, hd⟩
      obtain ⟨c, -, -, hc | ⟨⟨p, t, hp⟩, -⟩⟩ := hput_of_took n d v hd
      · exact ⟨c, hc⟩
      · rw [hidle p] at hp
        cases hp
  · intro c m n d v hfail hoff hd
    rw [h.mem_log rfl] at hoff
    rcases h.of_took hg hd with ⟨c', hL⟩ | ⟨first, c', hL⟩
    · -- the put is still at its node
      obtain rfl : c = c' := by simpa [hL, Life.log] using hoff
      exact h.not_ended (r := .putHost c v) (by rw [hL]; rfl) hfail rfl
    · -- the put has returned `0`
      obtain rfl : c = c' := by cases first <;> simpa [hL, Life.log] using hoff
      have hret : .putRet c n ∈ tr := by
        rw [h.mem_log rfl, hL]
        cases first <;> simp [Life.log]
      cases h.calls.eq_of_ends hfail hret rfl rfl

variable [DecidableEq ι] [Inhabited T] {s : World ι T}
  {π : List (Taken (World ι T) (Act ι T) (Event T))}

/-- Not `interrupt()`. -/
def Act.noInterrupt : Act ι T → Bool
  | .interrupt => false
  | _ => true

omit [Inhabited T] in
@[simp] theorem putEnds_interrupted (p : ι) (timed : Bool) (c : ℕ) (t : T) (n : ℕ) (guest : Bool)
    (r : SYNCHNode T × Ends ℤ) :
    (putEnds s p timed c t n guest r).1.chan.interrupted_ = s.chan.interrupted_ := by
  unfold putEnds
  dsimp only
  split <;> rfl

omit [Inhabited T] in
@[simp] theorem takeEnds_interrupted (p : ι) (timed : Bool) (d n : ℕ) (r : SYNCHNode T × Ends T) :
    (takeEnds s p timed d n r).1.chan.interrupted_ = s.chan.interrupted_ := by
  unfold takeEnds
  dsimp only
  split <;> rfl

omit [Inhabited T] in
@[simp] theorem putLocked_interrupted (p : ι) (timed : Bool) (c : ℕ) (t : T) :
    (putLocked s p timed c t).1.chan.interrupted_ = s.chan.interrupted_ := by
  unfold putLocked
  split <;> rfl

@[simp] theorem takeLocked_interrupted (p : ι) (timed : Bool) (d : ℕ) :
    (takeLocked s p timed d).1.chan.interrupted_ = s.chan.interrupted_ := by
  unfold takeLocked
  split <;> rfl

/-- Only `interrupt()` sets the flag. -/
theorem step_interrupted {a : Act ι T} {s' : World ι T} {es : List (Event T)}
    (hs : step s a = some (s', es)) (ha : a.noInterrupt = true) :
    s'.chan.interrupted_ = s.chan.interrupted_ := by
  have hfst : ∀ {x : World ι T × List (Event T)}, some x = some (s', es) → s' = x.1 := by
    rintro _ ⟨⟩
    rfl
  cases a with
  | put p timed t | take p timed =>
    simp only [step] at hs
    split at hs
    · obtain ⟨rfl, -⟩ := by simpa using hs
      rfl
    · cases hs
  | run p =>
    simp only [step] at hs
    split at hs
    · split_ifs at hs <;> obtain ⟨rfl, -⟩ := by simpa using hs
      all_goals rfl
    · rw [hfst hs, putLocked_interrupted]
    · rw [hfst hs, putEnds_interrupted]
    · split_ifs at hs <;> obtain ⟨rfl, -⟩ := by simpa using hs
      all_goals rfl
    · rw [hfst hs, takeLocked_interrupted]
    · rw [hfst hs, takeEnds_interrupted]
    · cases hs
  | wake p r =>
    simp only [step] at hs
    split at hs
    · split_ifs at hs
      rw [hfst hs, putEnds_interrupted]
    · split_ifs at hs
      rw [hfst hs, takeEnds_interrupted]
    · cases hs
  | interrupt => cases ha

theorem run_not_interrupted (hr : Run machine π s) (hC : Meets (fun _ a => a.noInterrupt) π) :
    s.chan.interrupted_ = false :=
  Run.inv (P := fun _ s => s.chan.interrupted_ = false) rfl
    (fun _ _ _ _ _ ha h hs => (step_interrupted hs ha).trans h) hr hC

omit [DecidableEq ι] [Inhabited T] in
/-- While the flag is not set every step is fair. -/
theorem fair_of_not_interrupted (h : s.chan.interrupted_ = false) (a : Act ι T) : fair s a = true := by
  unfold fair
  split
  · split <;> simp [h]
  · split <;> simp [h]
  · rfl

theorem run_fair (hr : Run machine π s) (hC : Meets (fun _ a => a.noInterrupt) π) :
    Meets (fun s a => fair s a) π := by
  intro x hx
  obtain ⟨ρ, ⟨σ, rfl⟩, hρ⟩ := hr.pre_run hx
  exact fair_of_not_interrupted (run_not_interrupted hρ fun y hy => hC y (List.mem_append_left _ hy)) _

/-- **Hand-off.**  Without interruption puts and takes are matched, whatever calls time out or wake for no
reason. -/
theorem run_matched (hr : Run machine π s) (hC : Meets (fun _ a => a.noInterrupt) π) :
    Matched (events π) s := by
  obtain ⟨life, h, hgood⟩ := run_story hr
  exact h.matched (hgood.mpr (run_fair hr hC))

/-- The put of thread 0 waits, the take of thread 1 comes, and both return. -/
theorem run_matched_two :
    ∃ (π : _) (s : World (Fin 2) ℕ), Run machine π s ∧ .took 1 0 7 ∈ events π ∧ Matched (events π) s := by
  obtain ⟨π, s, hr, hp⟩ := exists_run_of_replay (M := machine)
    (p := fun π _ => decide (.took 1 0 7 ∈ events π ∧
      Meets (fun _ (a : Act (Fin 2) ℕ) => a.noInterrupt) π))
    [.put (0 : Fin 2) true 7, .run 0, .run 0, .take 1 false, .run 1, .run 1, .run 0, .run 1,
      .wake 0 .woken] (by decide)
  obtain ⟨htook, hC⟩ := of_decide_eq_true hp
  exact ⟨π, s, hr, htook, run_matched hr hC⟩

end Matched

/-! ## With interruption -/

section Honoured

variable {tr : List (Event T)} {s : World ι T} {life : ℕ → Life T}

/-- What the calls report is what happened to the items. -/
structure Honoured (tr : List (Event T)) (s : World ι T) : Prop where
  /-- the item of a put that returned `0` was returned by a take, or is about to be -/
  returned : ∀ n c, .putRet c n ∈ tr → ∃ d v, .put c v ∈ tr ∧
    (.took d n v ∈ tr ∨ (s.TakesAt d n ∧ s.chan.nodes n = ⟨v, .FULL⟩))
  /-- the item of a put that threw or returned `-1` was returned by no take -/
  failed : ∀ c n d v, ((∃ m, .putFail c m ∈ tr) ∨ ∃ m e, .putThrew c m e ∈ tr) → .offered c n ∈ tr →
    .took d n v ∉ tr
  /-- a take that threw was at no node that a put returned `0` from -/
  threw : ∀ d m e n c, .takeThrew d m e ∈ tr → .joined d n ∈ tr → .putRet c n ∉ tr

theorem Story.honoured (h : Story tr s life) (hg : ∀ n, (life n).Good) : Honoured tr s := by
  have hm := h.matched hg
  refine ⟨hm.took_of_put, ?_, ?_⟩
  · rintro c n d v (⟨m, hfail⟩ | ⟨m, e, hthrew⟩) hoff hd
    · exact hm.failed c m n d v hfail hoff hd
    · rw [h.mem_log rfl] at hoff
      rcases h.of_took hg hd with ⟨c', hL⟩ | ⟨first, c', hL⟩
      · obtain rfl : c = c' := by simpa [hL, Life.log] using hoff
        exact h.not_ended (r := .putHost c v) (by rw [hL]; rfl) hthrew rfl
      · obtain rfl : c = c' := by cases first <;> simpa [hL, Life.log] using hoff
        have hret : .putRet c n ∈ tr := by
          rw [h.mem_log rfl, hL]
          cases first <;> simp [Life.log]
        cases h.calls.eq_of_ends hthrew hret rfl rfl
  · intro d m e n c hthrew hjoin hc
    rcases h.joined d n hjoin with ⟨p, hp⟩ | hdone
    · refine (h.calls.ended _ hthrew d rfl).2 p ?_
      rcases hp with hp | hp <;> exact Pc.call_of_seat hp
    · rcases h.of_putRet hg hc with ⟨d', t, hL⟩ | ⟨first, t, d', hL⟩
      · rw [hL] at hdone
        cases hdone
      · rw [hL] at hdone
        obtain rfl : d' = d := hdone
        have htook : .took d' n t ∈ tr := by
          rw [h.mem_log rfl, hL]
          cases first <;> simp [Life.log]
        cases h.calls.eq_of_ends hthrew htook rfl rfl

/-- A host that threw too late shows. -/
theorem Story.good (h : Story tr s life) (hH : Honoured tr s) (n : ℕ) : (life n).Good := by
  cases hL : life n with
  | robbed c t d =>
    obtain ⟨e, he⟩ := h.robbed n c t d hL
    refine hH.failed c n d t (Or.inr ⟨_, e, he⟩) ?_ ?_ <;> rw [h.mem_log rfl, hL] <;> simp [Life.log]
  | lost d c t =>
    obtain ⟨d', v, -, htook | ⟨-, hfull⟩⟩ := hH.returned n c (by
      rw [h.mem_log rfl, hL]
      simp [Life.log])
    · rw [h.mem_log rfl, hL] at htook
      simp [Life.log] at htook
    · have hfit := h.seating.fits n
      rw [hL, hfull] at hfit
      cases hfit
  | unborn | offers | taken | seeks | given | met | void => trivial

variable [DecidableEq ι] [Inhabited T] {π : List (Taken (World ι T) (Act ι T) (Event T))}

/-- **Interruption.**  What the calls report is what happened to the items exactly when every step was fair:
no host looked at the flag and threw after a guest had put or taken the item of its node. -/
theorem honoured_iff (hr : Run machine π s) :
    Honoured (events π) s ↔ Meets (fun s a => fair s a) π := by
  obtain ⟨life, h, hgood⟩ := run_story hr
  rw [← hgood]
  exact ⟨h.good, h.honoured⟩

/-- The take of thread 0 waits and is interrupted before the put of thread 1 has come to its node. -/
theorem honoured_iff_two :
    ∃ (π : _) (s : World (Fin 2) ℕ), Run machine π s ∧ .takeThrew 0 (some 0) .interrupted ∈ events π ∧
      Honoured (events π) s := by
  obtain ⟨π, s, hr, hp⟩ := exists_run_of_replay (M := machine)
    (p := fun π _ => decide ((.takeThrew 0 (some 0) .interrupted : Event ℕ) ∈ events π ∧
      Meets (fun s (a : Act (Fin 2) ℕ) => fair s a) π))
    [.take (0 : Fin 2) false, .run 0, .run 0, .run 0, .put 1 false 7, .run 1, .run 1, .interrupt,
      .wake 0 .woken] (by decide)
  obtain ⟨hthrew, hC⟩ := of_decide_eq_true hp
  exact ⟨π, s, hr, hthrew, (honoured_iff hr).mpr hC⟩

/-- The take of thread 0 waits, the put of thread 1 fills its node and returns `0`, the channel is
interrupted, and the take throws with the item in its node. -/
theorem honoured_fails_two :
    ¬ ∀ (π : _) (s : World (Fin 2) ℕ), Run machine π s → Honoured (events π) s := by
  intro h
  obtain ⟨π, s, hr, hp⟩ := exists_run_of_replay (M := machine)
    (p := fun π _ => decide ((.takeThrew 0 (some 0) .interrupted : Event ℕ) ∈ events π ∧
      (.joined 0 0 : Event ℕ) ∈ events π ∧ (.putRet 1 0 : Event ℕ) ∈ events π))
    [.take (0 : Fin 2) false, .run 0, .run 0, .run 0, .put 1 false 7, .run 1, .run 1, .run 1, .interrupt,
      .wake 0 .woken] (by decide)
  obtain ⟨hthrew, hjoin, hret⟩ := of_decide_eq_true hp
  exact (h π s hr).threw 0 _ _ 0 1 hthrew hjoin hret

end Honoured

end Lasagne.Daf.SynchronousChannel
