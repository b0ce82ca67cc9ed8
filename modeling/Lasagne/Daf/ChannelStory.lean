import Lasagne.Daf.Encounter

/-!
# Lasagne.Daf.ChannelStory — the lives of the nodes in a run

`Story` connects the lives of the nodes to a state of the channel and to the events that led there.  It has
three parts: the numbers of the calls (`Calls`), who is at which node and which nodes are queued
(`Seating`), and the events of every node, which are the log of its life.

* `step_story`: every step of the channel goes on with the story.
* `run_story`: every run has a story; all its lives are good exactly when every step was `fair`.
-/

namespace Lasagne.Daf.SynchronousChannel

open Lasagne.Trans

variable {ι T : Type*}

/-! ## Calls -/

/-- No two threads are in one call, and a call that has ended is over. -/
structure Calls (tr : List (Event T)) (pc : ι → Pc T) (calls : ℕ) : Prop where
  inj : ∀ p q c, (pc p).call = some c → (pc q).call = some c → p = q
  lt : ∀ p c, (pc p).call = some c → c < calls
  ended : ∀ e ∈ tr, ∀ c, e.ends = some c → c < calls ∧ ∀ p, (pc p).call ≠ some c
  once : (tr.filterMap Event.ends).Nodup
  item : ∀ p c t, (pc p).call = some c → (pc p).item = some t → .put c t ∈ tr
  put_lt : ∀ c t, .put c t ∈ tr → c < calls
  put_inj : ∀ c t t', .put c t ∈ tr → .put c t' ∈ tr → t = t'

namespace Calls

variable {tr es : List (Event T)} {pc : ι → Pc T} {calls : ℕ}

/-- The event that ends a call is the only one. -/
theorem eq_of_ends (h : Calls tr pc calls) {e e' : Event T} (he : e ∈ tr) (he' : e' ∈ tr) {c : ℕ}
    (hc : e.ends = some c) (hc' : e'.ends = some c) : e = e' :=
  eq_of_nodup_filterMap h.once he he' hc hc'

theorem new : Calls ([] : List (Event T)) (fun _ : ι => .idle) 0 where
  inj _ _ _ h := by cases h
  lt _ _ h := by cases h
  ended := nofun
  once := List.nodup_nil
  item _ _ _ h := by cases h
  put_lt := nofun
  put_inj := nofun

variable [DecidableEq ι] {p : ι} {y : Pc T}

/-- A thread goes on with its call. -/
theorem keep (h : Calls tr pc calls) (hcall : y.call = (pc p).call) (hitem : y.item = (pc p).item)
    (hends : es.filterMap Event.ends = []) (hput : ∀ c t, .put c t ∉ es) :
    Calls (tr ++ es) (Function.update pc p y) calls := by
  have hc : ∀ q, (Function.update pc p y q).call = (pc q).call := by
    intro q
    by_cases hq : q = p
    · rw [hq, Function.update_self, hcall]
    · rw [Function.update_of_ne hq]
  have hi : ∀ q, (Function.update pc p y q).item = (pc q).item := by
    intro q
    by_cases hq : q = p
    · rw [hq, Function.update_self, hitem]
    · rw [Function.update_of_ne hq]
  have hno : ∀ e ∈ es, e.ends = none := fun e he => List.filterMap_eq_nil_iff.mp hends e he
  refine ⟨?_, ?_, ?_, ?_, ?_, ?_, ?_⟩ <;> try simp only [hc, hi]
  · exact h.inj
  · exact h.lt
  · intro e he c hce
    rcases List.mem_append.mp he with he | he
    · exact h.ended e he c hce
    · rw [hno e he] at hce
      cases hce
  · rw [List.filterMap_append, hends, List.append_nil]
    exact h.once
  · exact fun q c t hq ht => List.mem_append_left _ (h.item q c t hq ht)
  · intro c t hct
    exact h.put_lt c t ((List.mem_append.mp hct).resolve_right (hput c t))
  · intro c t t' hct hct'
    exact h.put_inj c t t' ((List.mem_append.mp hct).resolve_right (hput c t))
      ((List.mem_append.mp hct').resolve_right (hput c t'))

/-- A call ends. -/
theorem finish (h : Calls tr pc calls) {c : ℕ} (hp : (pc p).call = some c)
    (hends : es.filterMap Event.ends = [c]) (hput : ∀ c t, .put c t ∉ es) :
    Calls (tr ++ es) (Function.update pc p .idle) calls := by
  have hc : ∀ q c', (Function.update pc p .idle q).call = some c' → q ≠ p ∧ (pc q).call = some c' := by
    intro q c' hq
    by_cases hqp : q = p
    · rw [hqp, Function.update_self] at hq
      cases hq
    · rw [Function.update_of_ne hqp] at hq
      exact ⟨hqp, hq⟩
  have hes : ∀ e ∈ es, ∀ c', e.ends = some c' → c' = c := by
    intro e he c' hce
    have : c' ∈ es.filterMap Event.ends := List.mem_filterMap.mpr ⟨e, he, hce⟩
    simpa [hends] using this
  refine ⟨?_, ?_, ?_, ?_, ?_, ?_, ?_⟩
  · exact fun q q' c' hq hq' => h.inj q q' c' (hc q c' hq).2 (hc q' c' hq').2
  · exact fun q c' hq => h.lt q c' (hc q c' hq).2
  · intro e he c' hce
    rcases List.mem_append.mp he with he | he
    · exact ⟨(h.ended e he c' hce).1, fun q hq => (h.ended e he c' hce).2 q (hc q c' hq).2⟩
    · obtain rfl := hes e he c' hce
      refine ⟨h.lt p _ hp, fun q hq => ?_⟩
      obtain ⟨hqp, hq⟩ := hc q _ hq
      exact hqp (h.inj q p _ hq hp)
  · rw [List.filterMap_append, hends, List.nodup_append]
    refine ⟨h.once, List.nodup_singleton c, ?_⟩
    intro a ha b hb
    obtain ⟨e, he, hea⟩ := List.mem_filterMap.mp ha
    obtain rfl := List.mem_singleton.mp hb
    rintro rfl
    exact (h.ended e he a hea).2 p hp
  · intro q c' t hq ht
    obtain ⟨hqp, hq⟩ := hc q c' hq
    rw [Function.update_of_ne hqp] at ht
    exact List.mem_append_left _ (h.item q c' t hq ht)
  · intro c' t hct
    exact h.put_lt c' t ((List.mem_append.mp hct).resolve_right (hput c' t))
  · intro c' t t' hct hct'
    exact h.put_inj c' t t' ((List.mem_append.mp hct).resolve_right (hput c' t))
      ((List.mem_append.mp hct').resolve_right (hput c' t'))

/-- A call begins. -/
theorem start (h : Calls tr pc calls) (hy : y.call = some calls)
    (hes : (∃ t, y.item = some t ∧ es = [.put calls t]) ∨ (y.item = none ∧ es = [.take calls])) :
    Calls (tr ++ es) (Function.update pc p y) (calls + 1) := by
  have hc : ∀ q c', (Function.update pc p y q).call = some c' →
      (q = p ∧ c' = calls) ∨ (q ≠ p ∧ (pc q).call = some c') := by
    intro q c' hq
    by_cases hqp : q = p
    · rw [hqp, Function.update_self, hy] at hq
      exact Or.inl ⟨hqp, (Option.some.inj hq).symm⟩
    · rw [Function.update_of_ne hqp] at hq
      exact Or.inr ⟨hqp, hq⟩
  have hends : es.filterMap Event.ends = [] := by rcases hes with ⟨t, -, rfl⟩ | ⟨-, rfl⟩ <;> rfl
  have hput : ∀ c t, .put c t ∈ es → c = calls ∧ y.item = some t := by
    intro c t hct
    rcases hes with ⟨t', ht', rfl⟩ | ⟨-, rfl⟩
    · obtain ⟨rfl, rfl⟩ : c = calls ∧ t = t' := by simpa using hct
      exact ⟨rfl, ht'⟩
    · simp at hct
  refine ⟨?_, ?_, ?_, ?_, ?_, ?_, ?_⟩
  · intro q q' c' hq hq'
    rcases hc q c' hq with ⟨hqp, hc1⟩ | ⟨-, hq1⟩ <;> rcases hc q' c' hq' with ⟨hqp', hc2⟩ | ⟨-, hq2⟩
    · rw [hqp, hqp']
    · exact absurd (h.lt q' c' hq2) (by omega)
    · exact absurd (h.lt q c' hq1) (by omega)
    · exact h.inj q q' c' hq1 hq2
  · intro q c' hq
    rcases hc q c' hq with ⟨-, rfl⟩ | ⟨-, hq⟩
    · exact Nat.lt_succ_self _
    · exact (h.lt q c' hq).trans (Nat.lt_succ_self _)
  · intro e he c' hce
    have he : e ∈ tr := by
      refine (List.mem_append.mp he).resolve_right fun he => ?_
      rw [List.filterMap_eq_nil_iff.mp hends e he] at hce
      cases hce
    obtain ⟨hlt, hno⟩ := h.ended e he c' hce
    refine ⟨hlt.trans (Nat.lt_succ_self _), fun q hq => ?_⟩
    rcases hc q c' hq with ⟨-, rfl⟩ | ⟨-, hq⟩
    · exact absurd hlt (Nat.lt_irrefl _)
    · exact hno q hq
  · rw [List.filterMap_append, hends, List.append_nil]
    exact h.once
  · intro q c' t hq ht
    rcases hc q c' hq with ⟨rfl, rfl⟩ | ⟨hqp, hq⟩
    · rw [Function.update_self] at ht
      rcases hes with ⟨t', ht', rfl⟩ | ⟨hn, -⟩
      · obtain rfl : t' = t := by simpa [ht'] using ht
        simp
      · rw [hn] at ht
        cases ht
    · rw [Function.update_of_ne hqp] at ht
      exact List.mem_append_left _ (h.item q c' t hq ht)
  · intro c' t hct
    rcases List.mem_append.mp hct with hct | hct
    · exact (h.put_lt c' t hct).trans (Nat.lt_succ_self _)
    · rw [(hput c' t hct).1]
      exact Nat.lt_succ_self _
  · intro c' t t' hct hct'
    rcases List.mem_append.mp hct with hct | hct <;> rcases List.mem_append.mp hct' with hct' | hct'
    · exact h.put_inj c' t t' hct hct'
    · exact absurd (h.put_lt c' t hct) (by rw [(hput c' t' hct').1]; exact Nat.lt_irrefl _)
    · exact absurd (h.put_lt c' t' hct') (by rw [(hput c' t hct).1]; exact Nat.lt_irrefl _)
    · exact Option.some.inj ((hput c' t hct).2.symm.trans (hput c' t' hct').2)

end Calls

/-! ## Seating -/

/-- Who is at which node, and which nodes are queued. -/
structure Seating (s : World ι T) (life : ℕ → Life T) : Prop where
  born : ∀ n, life n = .unborn ↔ s.chan.size ≤ n
  fits : ∀ n, (life n).Fits (s.chan.nodes n)
  seated : ∀ p n r, (s.pc p).seat = some (n, r) → (life n).Allows r
  hosted : ∀ n r, (life n).host = some r → ∃ p, (s.pc p).seat = some (n, r)
  guests : ∀ p q n r r', (s.pc p).seat = some (n, r) → (s.pc q).seat = some (n, r') →
    r.isGuest = true → r'.isGuest = true → p = q
  queued : ∀ p n r, (s.pc p).seat = some (n, r) → r.isGuest = true →
    n ∉ s.chan.waitingProducers ++ s.chan.waitingConsumers
  nodup : (s.chan.waitingProducers ++ s.chan.waitingConsumers).Nodup
  producers : ∀ n ∈ s.chan.waitingProducers, ∀ d, (life n).Allows (.takeGuest d)
  consumers : ∀ n ∈ s.chan.waitingConsumers, ∀ c t, (life n).Allows (.putGuest c t)

namespace Seating

variable [DecidableEq ι] {s : World ι T} {life : ℕ → Life T} {p : ι} {y : Pc T}

/-- Nobody changes seats. -/
theorem outside (h : Seating s life) (hx : (s.pc p).seat = none) (hy : y.seat = none) (i : Bool)
    (calls : ℕ) :
    Seating { s.goto p { s.chan with interrupted_ := i } y with calls := calls } life := by
  have hseat : ∀ q, (Function.update s.pc p y q).seat = (s.pc q).seat := by
    intro q
    by_cases hq : q = p
    · rw [hq, Function.update_self, hx, hy]
    · rw [Function.update_of_ne hq]
  obtain ⟨h1, h2, h3, h4, h5, h6, h7, h8, h9⟩ := h
  refine ⟨h1, h2, ?_, ?_, ?_, ?_, h7, h8, h9⟩ <;> simp only [World.goto, hseat]
  · exact h3
  · exact h4
  · exact h5
  · exact h6

/-- A turn at the node `n`. -/
theorem turn (h : Seating s life) {tr : List (Event T)} (hC : Calls tr s.pc s.calls) {n : ℕ}
    {r : Seat T} (hp : (s.pc p).seat = some (n, r)) {es : List (Event T)} {x : Next} {L' : Life T}
    (ht : Turn n (life n) r es x L') {node : SYNCHNode T} (hf : L'.Fits node)
    (hy : y.seat = if x = .stays then some (n, r) else none) :
    Seating (s.goto p (s.chan.setNode n node) y) (Function.update life n L') := by
  have hallow := h.seated p n r hp
  -- nobody gets a new seat
  have hold : ∀ q m r', (Function.update s.pc p y q).seat = some (m, r') →
      (s.pc q).seat = some (m, r') ∧ (q = p → x = .stays) := by
    intro q m r' hq
    by_cases hqp : q = p
    · rw [hqp, Function.update_self, hy] at hq
      split_ifs at hq with hx
      rw [hqp, hp]
      exact ⟨hq, fun _ => hx⟩
    · rw [Function.update_of_ne hqp] at hq
      exact ⟨hq, fun hqp' => absurd hqp' hqp⟩
  -- a queued node is not changed by a guest
  have hqueue : n ∈ s.chan.waitingProducers ++ s.chan.waitingConsumers → ∀ r' : Seat T,
      r'.isGuest = true → (life n).Allows r' → L'.Allows r' := by
    intro hn r' hr' hL
    rcases ht.allows hL with hL' | rfl | ⟨-, hr⟩
    · exact hL'
    · exact absurd hn (h.queued p n r' hp hr')
    · exact absurd hn (h.queued p n r hp hr)
  refine ⟨?_, ?_, ?_, ?_, ?_, ?_, h.nodup, ?_, ?_⟩
  · intro m
    by_cases hm : m = n
    · subst hm
      rw [Function.update_self]
      refine ⟨fun hL => absurd hL ht.ne_unborn, fun hle => ?_⟩
      rw [(h.born m).mpr hle] at hallow
      cases hallow
    · rw [Function.update_of_ne hm]
      exact h.born m
  · intro m
    by_cases hm : m = n
    · subst hm
      simp only [World.goto, Channel.setNode, Function.update_self]
      exact hf
    · simp only [World.goto, Channel.setNode, Function.update_of_ne hm]
      exact h.fits m
  · intro q m r' hq
    obtain ⟨hq', hstay⟩ := hold q m r' hq
    by_cases hm : m = n
    · subst hm
      rw [Function.update_self]
      rcases ht.allows (h.seated q m r' hq') with hL' | rfl | ⟨hr', hr⟩
      · exact hL'
      · -- the host itself, which has stayed
        obtain rfl : q = p :=
          hC.inj q p r'.call (Pc.call_of_seat hq') (Pc.call_of_seat hp)
        rw [ht.eq_of_stays (hstay rfl)]
        exact hallow
      · obtain rfl := h.guests q p m r' r hq' hp hr' hr
        rw [ht.eq_of_stays (hstay rfl)]
        exact h.seated q m r' hq'
    · rw [Function.update_of_ne hm]
      exact h.seated q m r' hq'
  · intro m r' hr'
    by_cases hm : m = n
    · subst hm
      rw [Function.update_self] at hr'
      obtain ⟨hhost, hx⟩ := ht.host_eq hr'
      obtain ⟨q, hq⟩ := h.hosted m r' hhost
      by_cases hqp : q = p
      · subst hqp
        obtain rfl : r = r' := by
          rw [hp] at hq
          simpa using hq
        have hx : x = .stays := hx.resolve_right (absurd rfl)
        exact ⟨q, by simp only [World.goto, Function.update_self, hy, hx, if_true]⟩
      · exact ⟨q, by simpa only [World.goto, Function.update_of_ne hqp] using hq⟩
    · rw [Function.update_of_ne hm] at hr'
      obtain ⟨q, hq⟩ := h.hosted m r' hr'
      have hqp : q ≠ p := by
        rintro rfl
        rw [hp] at hq
        exact hm (by simpa using (congrArg Prod.fst (Option.some.inj hq)).symm)
      exact ⟨q, by simpa only [World.goto, Function.update_of_ne hqp] using hq⟩
  · intro q q' m r1 r2 hq hq'
    exact h.guests q q' m r1 r2 (hold q m r1 hq).1 (hold q' m r2 hq').1
  · intro q m r' hq
    exact h.queued q m r' (hold q m r' hq).1
  · intro m hm d
    by_cases hmn : m = n
    · subst hmn
      rw [Function.update_self]
      exact hqueue (List.mem_append_left _ hm) _ rfl (h.producers m hm d)
    · rw [Function.update_of_ne hmn]
      exact h.producers m hm d
  · intro m hm c t
    by_cases hmn : m = n
    · subst hmn
      rw [Function.update_self]
      exact hqueue (List.mem_append_right _ hm) _ rfl (h.consumers m hm c t)
    · rw [Function.update_of_ne hmn]
      exact h.consumers m hm c t

omit [DecidableEq ι] in
/-- A node that has not been made is not queued. -/
theorem size_notMem [Inhabited T] (h : Seating s life) :
    s.chan.size ∉ s.chan.waitingProducers ++ s.chan.waitingConsumers := by
  have hunborn := (h.born s.chan.size).mpr le_rfl
  intro hm
  rcases List.mem_append.mp hm with hm | hm
  · have := h.producers _ hm 0
    rw [hunborn] at this
    cases this
  · have := h.consumers _ hm 0 default
    rw [hunborn] at this
    cases this

/-- A thread makes a node and becomes its host. -/
theorem host (h : Seating s life) (hx : (s.pc p).seat = none) {r : Seat T} (hr : r.isGuest = false)
    (hy : y.seat = some (s.chan.size, r)) {L : Life T} {node : SYNCHNode T} (hf : L.Fits node)
    (hallow : L.Allows r) (hhost : ∀ r', L.host = some r' → r' = r) {P C : List ℕ}
    (hP : ∀ m ∈ P, m ∈ s.chan.waitingProducers ∨
      (m = s.chan.size ∧ ∀ d, L.Allows (.takeGuest d)))
    (hC : ∀ m ∈ C, m ∈ s.chan.waitingConsumers ∨
      (m = s.chan.size ∧ ∀ c t, L.Allows (.putGuest c t)))
    (hnd : (P ++ C).Nodup) :
    Seating (s.goto p
      { s.chan with
        waitingProducers := P
        waitingConsumers := C
        nodes := Function.update s.chan.nodes s.chan.size node
        size := s.chan.size + 1 } y) (Function.update life s.chan.size L) := by
  have hunborn : ∀ r', ¬ (life s.chan.size).Allows r' := by
    intro r' hr'
    rw [(h.born _).mpr le_rfl] at hr'
    cases hr'
  have hold : ∀ q m r', (Function.update s.pc p y q).seat = some (m, r') →
      (q = p ∧ m = s.chan.size ∧ r' = r) ∨ (q ≠ p ∧ (s.pc q).seat = some (m, r') ∧ m ≠ s.chan.size) := by
    intro q m r' hq
    by_cases hqp : q = p
    · rw [hqp, Function.update_self, hy] at hq
      obtain ⟨rfl, rfl⟩ : s.chan.size = m ∧ r = r' := by simpa using hq
      exact Or.inl ⟨hqp, rfl, rfl⟩
    · rw [Function.update_of_ne hqp] at hq
      refine Or.inr ⟨hqp, hq, ?_⟩
      rintro rfl
      exact hunborn r' (h.seated q _ r' hq)
  refine ⟨?_, ?_, ?_, ?_, ?_, ?_, hnd, ?_, ?_⟩
  · intro m
    simp only [World.goto]
    by_cases hm : m = s.chan.size
    · subst hm
      rw [Function.update_self]
      refine ⟨?_, fun hle => absurd hle (by omega)⟩
      rintro rfl
      cases hallow
    · rw [Function.update_of_ne hm, h.born m]
      omega
  · intro m
    by_cases hm : m = s.chan.size
    · subst hm
      simp only [World.goto, Function.update_self]
      exact hf
    · simp only [World.goto, Function.update_of_ne hm]
      exact h.fits m
  · intro q m r' hq
    rcases hold q m r' hq with ⟨-, rfl, rfl⟩ | ⟨-, hq, hm⟩
    · rw [Function.update_self]
      exact hallow
    · rw [Function.update_of_ne hm]
      exact h.seated q m r' hq
  · intro m r' hr'
    by_cases hm : m = s.chan.size
    · subst hm
      rw [Function.update_self] at hr'
      obtain rfl := hhost r' hr'
      exact ⟨p, by simp only [World.goto, Function.update_self, hy]⟩
    · rw [Function.update_of_ne hm] at hr'
      obtain ⟨q, hq⟩ := h.hosted m r' hr'
      have hqp : q ≠ p := by
        rintro rfl
        rw [hx] at hq
        cases hq
      exact ⟨q, by simpa only [World.goto, Function.update_of_ne hqp] using hq⟩
  · intro q q' m r1 r2 hq hq' hr1 hr2
    rcases hold q m r1 hq with ⟨-, -, rfl⟩ | ⟨-, hq, -⟩
    · rw [hr] at hr1
      cases hr1
    · rcases hold q' m r2 hq' with ⟨-, -, rfl⟩ | ⟨-, hq', -⟩
      · rw [hr] at hr2
        cases hr2
      · exact h.guests q q' m r1 r2 hq hq' hr1 hr2
  · intro q m r' hq hr' hm
    rcases hold q m r' hq with ⟨-, -, rfl⟩ | ⟨-, hq, hne⟩
    · rw [hr] at hr'
      cases hr'
    · refine h.queued q m r' hq hr' ?_
      rcases List.mem_append.mp hm with hm | hm
      · exact List.mem_append_left _ ((hP m hm).resolve_right fun hm => hne hm.1)
      · exact List.mem_append_right _ ((hC m hm).resolve_right fun hm => hne hm.1)
  · intro m hm d
    by_cases hms : m = s.chan.size
    · subst hms
      rw [Function.update_self]
      refine ((hP _ hm).resolve_left fun hm => ?_).2 d
      exact hunborn _ (h.producers _ hm 0)
    · rw [Function.update_of_ne hms]
      exact h.producers m ((hP m hm).resolve_right fun hm => hms hm.1) d
  · intro m hm c t
    by_cases hms : m = s.chan.size
    · subst hms
      rw [Function.update_self]
      refine ((hC _ hm).resolve_left fun hm => ?_).2 c t
      exact hunborn _ (h.consumers _ hm c t)
    · rw [Function.update_of_ne hms]
      exact h.consumers m ((hC m hm).resolve_right fun hm => hms hm.1) c t

/-- A thread takes a node off its queue and becomes its guest. -/
theorem guest (h : Seating s life) (hx : (s.pc p).seat = none) {n : ℕ} {r : Seat T}
    (hy : y.seat = some (n, r)) (hallow : (life n).Allows r) {P C : List ℕ}
    (hP : P ⊆ s.chan.waitingProducers) (hC : C ⊆ s.chan.waitingConsumers)
    (hn : n ∈ s.chan.waitingProducers ++ s.chan.waitingConsumers) (hn' : n ∉ P ++ C)
    (hnd : (P ++ C).Nodup) :
    Seating (s.goto p { s.chan with waitingProducers := P, waitingConsumers := C } y) life := by
  have hold : ∀ q m r', (Function.update s.pc p y q).seat = some (m, r') →
      (q = p ∧ m = n ∧ r' = r) ∨ (q ≠ p ∧ (s.pc q).seat = some (m, r')) := by
    intro q m r' hq
    by_cases hqp : q = p
    · rw [hqp, Function.update_self, hy] at hq
      obtain ⟨rfl, rfl⟩ : n = m ∧ r = r' := by simpa using hq
      exact Or.inl ⟨hqp, rfl, rfl⟩
    · rw [Function.update_of_ne hqp] at hq
      exact Or.inr ⟨hqp, hq⟩
  refine ⟨h.born, h.fits, ?_, ?_, ?_, ?_, hnd, ?_, ?_⟩
  · intro q m r' hq
    rcases hold q m r' hq with ⟨-, rfl, rfl⟩ | ⟨-, hq⟩
    · exact hallow
    · exact h.seated q m r' hq
  · intro m r' hr'
    obtain ⟨q, hq⟩ := h.hosted m r' hr'
    have hqp : q ≠ p := by
      rintro rfl
      rw [hx] at hq
      cases hq
    exact ⟨q, by simpa only [World.goto, Function.update_of_ne hqp] using hq⟩
  · intro q q' m r1 r2 hq hq' hr1 hr2
    rcases hold q m r1 hq with ⟨hqp, hm, rfl⟩ | ⟨-, hq⟩ <;>
      rcases hold q' m r2 hq' with ⟨hqp', hm', rfl⟩ | ⟨-, hq'⟩
    · rw [hqp, hqp']
    · exact absurd (hm ▸ hn) (h.queued q' m r2 hq' hr2)
    · exact absurd (hm' ▸ hn) (h.queued q m r1 hq hr1)
    · exact h.guests q q' m r1 r2 hq hq' hr1 hr2
  · intro q m r' hq hr' hm
    rcases hold q m r' hq with ⟨-, rfl, rfl⟩ | ⟨-, hq⟩
    · exact hn' hm
    · refine h.queued q m r' hq hr' ?_
      rcases List.mem_append.mp hm with hm | hm
      · exact List.mem_append_left _ (hP hm)
      · exact List.mem_append_right _ (hC hm)
  · exact fun m hm => h.producers m (hP hm)
  · exact fun m hm => h.consumers m (hC hm)

end Seating

/-- `deque` drops nodes from the front. -/
theorem deque_spec (nodes : ℕ → SYNCHNode T) (queue : List ℕ) :
    (deque nodes queue).2.Sublist queue ∧ ∀ n, (deque nodes queue).1 = some n →
      n ∈ queue ∧ (queue.Nodup → n ∉ (deque nodes queue).2) := by
  induction queue with
  | nil => exact ⟨List.Sublist.refl _, nofun⟩
  | cons m queue ih =>
    unfold deque
    split_ifs with hm
    · refine ⟨ih.1.cons m, fun n hn => ?_⟩
      exact ⟨List.mem_cons_of_mem _ (ih.2 n hn).1, fun hnd => (ih.2 n hn).2 (List.nodup_cons.mp hnd).2⟩
    · refine ⟨List.sublist_cons_self m queue, ?_⟩
      rintro _ ⟨⟩
      exact ⟨List.mem_cons_self .., fun hnd => (List.nodup_cons.mp hnd).1⟩

/-! ## Stories -/

/-- The take `d` is at `n`. -/
def Pc.takesAt (d n : ℕ) (x : Pc T) : Prop :=
  x.seat = some (n, .takeHost d) ∨ x.seat = some (n, .takeGuest d)

/-- The lives of the nodes, the state and the events that led to it. -/
structure Story (tr : List (Event T)) (s : World ι T) (life : ℕ → Life T) : Prop where
  calls : Calls tr s.pc s.calls
  seating : Seating s life
  logs : ∀ n, ofNode n tr = (life n).log n
  items : ∀ n c t, (life n).offer = some (c, t) → .put c t ∈ tr
  joined : ∀ d n, .joined d n ∈ tr → (∃ p, (s.pc p).takesAt d n) ∨ (life n).Done d
  robbed : ∀ n c t d, life n = .robbed c t d → ∃ e, .putThrew c (some n) e ∈ tr
  lost : ∀ n d c t, life n = .lost d c t → ∃ e, .takeThrew d (some n) e ∈ tr

namespace Story

variable [DecidableEq ι] {tr es : List (Event T)} {s : World ι T} {life : ℕ → Life T} {p : ι} {y : Pc T}

theorem init [Inhabited T] : Story [] (machine : Machine (World ι T) (Act ι T) (Event T)).init
    fun _ => .unborn where
  calls := Calls.new
  seating :=
    { born := fun n => ⟨fun _ => Nat.zero_le n, fun _ => rfl⟩
      fits := fun _ => trivial
      seated := fun _ _ _ h => by cases h
      hosted := fun _ _ h => by cases h
      guests := fun _ _ _ _ _ h => by cases h
      queued := fun _ _ _ h => by cases h
      nodup := List.nodup_nil
      producers := nofun
      consumers := nofun }
  logs _ := rfl
  items _ _ _ h := by cases h
  joined := nofun
  robbed _ _ _ _ h := by cases h
  lost _ _ _ _ h := by cases h

/-- A thread moves, but not at a node. -/
theorem outside (h : Story tr s life) (hx : (s.pc p).seat = none) (hy : y.seat = none) (i : Bool)
    {calls : ℕ} (hcalls : Calls (tr ++ es) (Function.update s.pc p y) calls)
    (hes : ∀ n, ofNode n es = []) (hjoin : ∀ d n, .joined d n ∉ es) :
    Story (tr ++ es) { s.goto p { s.chan with interrupted_ := i } y with calls := calls } life := by
  refine ⟨hcalls, h.seating.outside hx hy i calls, ?_, ?_, ?_, ?_, ?_⟩
  · intro n
    rw [ofNode_append, hes, List.append_nil, h.logs n]
  · exact fun n c t ho => List.mem_append_left _ (h.items n c t ho)
  · intro d n hdn
    refine (h.joined d n ((List.mem_append.mp hdn).resolve_right (hjoin d n))).imp_left ?_
    rintro ⟨q, hq⟩
    have hqp : q ≠ p := by
      rintro rfl
      rcases hq with hq | hq <;> rw [hx] at hq <;> cases hq
    exact ⟨q, by simpa only [World.goto, Function.update_of_ne hqp] using hq⟩
  · exact fun n c t d hL => (h.robbed n c t d hL).imp fun e he => List.mem_append_left _ he
  · exact fun n d c t hL => (h.lost n d c t hL).imp fun e he => List.mem_append_left _ he

/-- A call ends that never came to a node. -/
theorem refused (h : Story tr s life) (hx : (s.pc p).seat = none) {c : ℕ} (hc : (s.pc p).call = some c) {e : Event T}
    (hends : e.ends = some c) (hput : ∀ c t, e ≠ .put c t) (hnode : e.node = none) (hjoin : ∀ d n, e ≠ .joined d n) :
    Story (tr ++ [e]) (s.goto p s.chan .idle) life := by
  refine h.outside hx rfl s.chan.interrupted_ (h.calls.finish hc ?_ ?_) ?_ ?_
  · simp [hends]
  · exact fun c t hmem => hput c t (List.mem_singleton.mp hmem).symm
  · simp [ofNode, hnode]
  · exact fun d n hmem => hjoin d n (List.mem_singleton.mp hmem).symm

/-- A call goes on, and not to a node. -/
theorem goes (h : Story tr s life) (hx : (s.pc p).seat = none) (hy : y.seat = none) (hcall : y.call = (s.pc p).call)
    (hitem : y.item = (s.pc p).item) : Story (tr ++ []) (s.goto p s.chan y) life := by
  refine h.outside hx hy s.chan.interrupted_ (h.calls.keep hcall hitem rfl ?_) (fun _ => rfl) ?_
  · exact fun _ _ hmem => absurd hmem List.not_mem_nil
  · exact fun _ _ hmem => absurd hmem List.not_mem_nil

/-- A turn at the node `n`. -/
theorem turn (h : Story tr s life) {n : ℕ} {r : Seat T} (hp : (s.pc p).seat = some (n, r)) {x : Next}
    {L' : Life T} (ht : Turn n (life n) r es x L') {node : SYNCHNode T} (hf : L'.Fits node)
    (hy : y.seat = if x = .stays then some (n, r) else none)
    (hcall : if x = .leaves then y = .idle else y.call = (s.pc p).call ∧ y.item = (s.pc p).item)
    (hitem : ∀ c t, r = .putGuest c t → (s.pc p).item = some t) :
    Story (tr ++ es) (s.goto p (s.chan.setNode n node) y) (Function.update life n L') := by
  obtain ⟨hput, hjoin⟩ := ht.not_called
  have hsame : ∀ m, m ≠ n → Function.update life n L' m = life m := fun m hm => Function.update_of_ne hm ..
  refine ⟨?_, h.seating.turn h.calls hp ht hf hy, ?_, ?_, ?_, ?_, ?_⟩
  · have hends := ht.ends_eq
    by_cases hx : x = .leaves
    · rw [if_pos hx] at hcall hends
      subst hcall
      exact h.calls.finish (Pc.call_of_seat hp) hends hput
    · rw [if_neg hx] at hcall hends
      exact h.calls.keep hcall.1 hcall.2 hends hput
  · intro m
    rw [ofNode_append, h.logs m]
    by_cases hm : m = n
    · subst hm
      rw [Function.update_self, ht.log_eq]
    · rw [hsame m hm, ht.ofNode_ne hm, List.append_nil]
  · intro m c t ho
    refine List.mem_append_left _ ?_
    by_cases hm : m = n
    · subst hm
      rw [Function.update_self] at ho
      rcases ht.offer_eq ho with ho | rfl
      · exact h.items m c t ho
      · exact h.calls.item p c t (Pc.call_of_seat hp) (hitem c t rfl)
    · rw [hsame m hm] at ho
      exact h.items m c t ho
  · intro d m hdm
    rcases h.joined d m ((List.mem_append.mp hdm).resolve_right (hjoin d m)) with ⟨q, hq⟩ | hdone
    · by_cases hqp : q = p
      · subst hqp
        -- the take at `n` is the one whose turn it is
        obtain ⟨rfl, hr⟩ : n = m ∧ (r = .takeHost d ∨ r = .takeGuest d) := by
          rcases hq with hq | hq <;> rw [hp] at hq <;> simp_all
        by_cases hx : x = .stays
        · refine Or.inl ⟨q, ?_⟩
          simp only [World.goto, Function.update_self, Pc.takesAt, hy, hx, if_true]
          rcases hr with rfl | rfl
          · exact Or.inl rfl
          · exact Or.inr rfl
        · rw [Function.update_self]
          exact Or.inr (ht.done_self hx hr)
      · exact Or.inl ⟨q, by simpa only [World.goto, Function.update_of_ne hqp] using hq⟩
    · refine Or.inr ?_
      by_cases hm : m = n
      · subst hm
        rw [Function.update_self]
        exact ht.done hdone
      · rw [hsame m hm]
        exact hdone
  · intro m c t d hL
    by_cases hm : m = n
    · subst hm
      rw [Function.update_self] at hL
      exact (ht.robbed hL).imp fun e he => List.mem_append_right _ he
    · rw [hsame m hm] at hL
      exact (h.robbed m c t d hL).imp fun e he => List.mem_append_left _ he
  · intro m d c t hL
    by_cases hm : m = n
    · subst hm
      rw [Function.update_self] at hL
      exact (ht.lost hL).imp fun e he => List.mem_append_right _ he
    · rw [hsame m hm] at hL
      exact (h.lost m d c t hL).imp fun e he => List.mem_append_left _ he

/-- A thread makes a node and becomes its host. -/
theorem host (h : Story tr s life) (hx : (s.pc p).seat = none) {r : Seat T} (hr : r.isGuest = false)
    (hy : y.seat = some (s.chan.size, r)) (hcall : y.call = (s.pc p).call)
    (hitem : y.item = (s.pc p).item) {L : Life T} {node : SYNCHNode T} (hf : L.Fits node)
    (hallow : L.Allows r) (hhost : ∀ r', L.host = some r' → r' = r) (hgood : L.Good) {P C : List ℕ}
    (hP : ∀ m ∈ P, m ∈ s.chan.waitingProducers ∨
      (m = s.chan.size ∧ ∀ d, L.Allows (.takeGuest d)))
    (hC : ∀ m ∈ C, m ∈ s.chan.waitingConsumers ∨
      (m = s.chan.size ∧ ∀ c t, L.Allows (.putGuest c t)))
    (hnd : (P ++ C).Nodup)
    (hes : (∃ c t, L = .offers c t ∧ .put c t ∈ tr ∧ es = [.offered c s.chan.size]) ∨
      ∃ d, L = .seeks d ∧ r = .takeHost d ∧ es = [.joined d s.chan.size]) :
    Story (tr ++ es) (s.goto p
      { s.chan with
        waitingProducers := P
        waitingConsumers := C
        nodes := Function.update s.chan.nodes s.chan.size node
        size := s.chan.size + 1 } y) (Function.update life s.chan.size L) := by
  have hunborn : life s.chan.size = .unborn := (h.seating.born _).mpr le_rfl
  have hsame : ∀ m, m ≠ s.chan.size → Function.update life s.chan.size L m = life m :=
    fun m hm => Function.update_of_ne hm ..
  refine ⟨?_, h.seating.host hx hr hy hf hallow hhost hP hC hnd, ?_, ?_, ?_, ?_, ?_⟩
  · refine h.calls.keep hcall hitem ?_ ?_ <;>
      rcases hes with ⟨c, t, -, -, rfl⟩ | ⟨d, -, -, rfl⟩
    · rfl
    · rfl
    · simp
    · simp
  · intro m
    rw [ofNode_append, h.logs m]
    by_cases hm : m = s.chan.size
    · rw [hm, Function.update_self, hunborn]
      rcases hes with ⟨c, t, rfl, -, rfl⟩ | ⟨d, rfl, -, rfl⟩ <;> simp [ofNode, Event.node, Life.log]
    · rw [hsame m hm]
      rcases hes with ⟨c, t, -, -, rfl⟩ | ⟨d, -, -, rfl⟩ <;>
        simp [ofNode, Event.node, Ne.symm hm]
  · intro m c t ho
    refine List.mem_append_left _ ?_
    by_cases hm : m = s.chan.size
    · rw [hm, Function.update_self] at ho
      rcases hes with ⟨c', t', rfl, hput, -⟩ | ⟨d, rfl, -, -⟩
      · obtain ⟨rfl, rfl⟩ : c' = c ∧ t' = t := by simpa [Life.offer] using ho
        exact hput
      · cases ho
    · rw [hsame m hm] at ho
      exact h.items m c t ho
  · intro d m hdm
    rcases List.mem_append.mp hdm with hdm | hdm
    · rcases h.joined d m hdm with ⟨q, hq⟩ | hdone
      · have hqp : q ≠ p := by
          rintro rfl
          rcases hq with hq | hq <;> rw [hx] at hq <;> cases hq
        exact Or.inl ⟨q, by simpa only [World.goto, Function.update_of_ne hqp] using hq⟩
      · refine Or.inr ?_
        have hm : m ≠ s.chan.size := by
          rintro rfl
          rw [hunborn] at hdone
          cases hdone
        rw [hsame m hm]
        exact hdone
    · rcases hes with ⟨c, t, -, -, rfl⟩ | ⟨d', -, rfl, rfl⟩
      · simp at hdm
      · obtain ⟨rfl, rfl⟩ : d = d' ∧ m = s.chan.size := by simpa using hdm
        refine Or.inl ⟨p, Or.inl ?_⟩
        simp only [World.goto, Function.update_self, hy]
  · intro m c t d hL
    by_cases hm : m = s.chan.size
    · rw [hm, Function.update_self] at hL
      rw [hL] at hgood
      exact hgood.elim
    · rw [hsame m hm] at hL
      exact (h.robbed m c t d hL).imp fun e he => List.mem_append_left _ he
  · intro m d c t hL
    by_cases hm : m = s.chan.size
    · rw [hm, Function.update_self] at hL
      rw [hL] at hgood
      exact hgood.elim
    · rw [hsame m hm] at hL
      exact (h.lost m d c t hL).imp fun e he => List.mem_append_left _ he

/-- A thread takes a node off its queue and becomes its guest. -/
theorem guest (h : Story tr s life) (hx : (s.pc p).seat = none) {n : ℕ} {r : Seat T}
    (hy : y.seat = some (n, r)) (hcall : y.call = (s.pc p).call) (hitem : y.item = (s.pc p).item)
    (hallow : (life n).Allows r) {P C : List ℕ}
    (hP : P ⊆ s.chan.waitingProducers) (hC : C ⊆ s.chan.waitingConsumers)
    (hn : n ∈ s.chan.waitingProducers ++ s.chan.waitingConsumers) (hn' : n ∉ P ++ C)
    (hnd : (P ++ C).Nodup) (hes : es = [] ∨ ∃ d, r = .takeGuest d ∧ es = [.joined d n]) :
    Story (tr ++ es) (s.goto p { s.chan with waitingProducers := P, waitingConsumers := C } y) life := by
  refine ⟨?_, h.seating.guest hx hy hallow hP hC hn hn' hnd, ?_, ?_, ?_, ?_, ?_⟩
  · refine h.calls.keep hcall hitem ?_ ?_ <;> rcases hes with rfl | ⟨d, -, rfl⟩
    · rfl
    · rfl
    · simp
    · simp
  · intro m
    rw [ofNode_append, h.logs m]
    rcases hes with rfl | ⟨d, -, rfl⟩ <;> simp [ofNode, Event.node]
  · exact fun m c t ho => List.mem_append_left _ (h.items m c t ho)
  · intro d m hdm
    rcases List.mem_append.mp hdm with hdm | hdm
    · refine (h.joined d m hdm).imp_left ?_
      rintro ⟨q, hq⟩
      have hqp : q ≠ p := by
        rintro rfl
        rcases hq with hq | hq <;> rw [hx] at hq <;> cases hq
      exact ⟨q, by simpa only [World.goto, Function.update_of_ne hqp] using hq⟩
    · rcases hes with rfl | ⟨d', rfl, rfl⟩
      · cases hdm
      · obtain ⟨rfl, rfl⟩ : d = d' ∧ m = n := by simpa using hdm
        refine Or.inl ⟨p, Or.inr ?_⟩
        simp only [World.goto, Function.update_self, hy]
  · exact fun m c t d hL => (h.robbed m c t d hL).imp fun e he => List.mem_append_left _ he
  · exact fun m d c t hL => (h.lost m d c t hL).imp fun e he => List.mem_append_left _ he

omit [DecidableEq ι] in
theorem interrupt (h : Story tr s life) :
    Story tr { s with chan := { s.chan with interrupted_ := true } } life :=
  ⟨h.calls, ⟨h.seating.born, h.seating.fits, h.seating.seated, h.seating.hosted, h.seating.guests,
    h.seating.queued, h.seating.nodup, h.seating.producers, h.seating.consumers⟩, h.logs, h.items,
    h.joined, h.robbed, h.lost⟩

end Story

/-! ## Steps -/

section Steps

variable [DecidableEq ι] [Inhabited T] {tr es : List (Event T)} {s s' : World ι T} {life : ℕ → Life T}

/-- Not a host's look at the flag that throws although its node has changed hands. -/
def fair (s : World ι T) : Act ι T → Bool
  | .run p =>
    match s.pc p with
    | .putNode _ _ _ n true => !(s.chan.interrupted_ && (s.chan.nodes n).state_ = .EMPTY)
    | .takeNode _ _ n true => !(s.chan.interrupted_ && (s.chan.nodes n).state_ = .FULL)
    | _ => true
  | .wake p .woken =>
    match s.pc p with
    | .takeWait _ _ n => !(s.chan.interrupted_ && (s.chan.nodes n).state_ = .FULL)
    | _ => true
  | _ => true

/-- The story goes on; it stays good exactly if the step is fair. -/
def GoesOn (life : ℕ → Life T) (tr : List (Event T)) (s' : World ι T) (ok : Prop) : Prop :=
  ∃ life', Story tr s' life' ∧ ((∀ n, (life' n).Good) ↔ (∀ n, (life n).Good) ∧ ok)

omit [Inhabited T] [DecidableEq ι] in
theorem GoesOn.same (h : Story tr s life) {ok : Prop} (hok : ok) : GoesOn life tr s ok :=
  ⟨life, h, fun hg => ⟨hg, hok⟩, fun hg => hg.1⟩

omit [Inhabited T] [DecidableEq ι] in
theorem GoesOn.congr {ok ok' : Prop} (h : GoesOn life tr s ok) (hok : ok ↔ ok') :
    GoesOn life tr s ok' := by
  rwa [← propext hok]

omit [Inhabited T] [DecidableEq ι] in
theorem GoesOn.update {n : ℕ} {L : Life T} (hL : (life n).Good) {ok : Prop} (hok : L.Good ↔ ok)
    (h : Story tr s (Function.update life n L)) : GoesOn life tr s ok := by
  refine ⟨_, h, ?_⟩
  constructor
  · intro hg
    refine ⟨fun m => ?_, hok.mp (by simpa using hg n)⟩
    by_cases hm : m = n
    · rw [hm]
      exact hL
    · simpa [Function.update_of_ne hm] using hg m
  · rintro ⟨hg, ho⟩ m
    by_cases hm : m = n
    · rw [hm, Function.update_self]
      exact hok.mpr ho
    · rw [Function.update_of_ne hm]
      exact hg m

omit [Inhabited T] in
theorem Life.good_of_allows {L : Life T} {r : Seat T} (h : L.Allows r) : L.Good := by
  cases L <;> trivial

omit [Inhabited T] in
/-- A turn at a node is a step of the story. -/
theorem Story.goesOn (h : Story tr s life) {p : ι} {n : ℕ} {r : Seat T} (hp : (s.pc p).seat = some (n, r))
    {es : List (Event T)} {x : Next} {L' : Life T} (ht : Turn n (life n) r es x L') {node : SYNCHNode T}
    (hf : L'.Fits node) {ok : Prop} (hgood : L'.Good ↔ ok) {y : Pc T}
    (hy : y.seat = if x = .stays then some (n, r) else none)
    (hcall : if x = .leaves then y = .idle else y.call = (s.pc p).call ∧ y.item = (s.pc p).item)
    (hitem : ∀ c t, r = .putGuest c t → (s.pc p).item = some t) :
    GoesOn life (tr ++ es) (s.goto p (s.chan.setNode n node) y) ok :=
  .update (Life.good_of_allows (h.seating.seated p n r hp)) hgood (h.turn hp ht hf hy hcall hitem)

omit [Inhabited T] in
/-- A section of `put` at a node. -/
theorem putEnds_goesOn (h : Story tr s life) {p : ι} {n c : ℕ} {t : T} {r : Seat T} (guest : Bool)
    (hr : r = if guest then .putGuest c t else .putHost c t) (hp : (s.pc p).seat = some (n, r))
    (hitem : (s.pc p).item = some t) {bad : Prop} {res : SYNCHNode T × Ends ℤ}
    (hturn : Turns n (life n) r (putShows c n guest) bad res) (timed : Bool) :
    GoesOn life (tr ++ (putEnds s p timed c t n guest res).2) (putEnds s p timed c t n guest res).1
      (¬ bad) := by
  obtain ⟨L', ht, hf, hgood⟩ := hturn
  obtain ⟨node, x⟩ := res
  have hcall : (s.pc p).call = some c := by
    rw [Pc.call_of_seat hp, hr]
    cases guest <;> rfl
  have hguest : ∀ c' t', r = .putGuest c' t' → (s.pc p).item = some t' := by
    rintro c' t' rfl
    cases guest <;> simp_all
  cases x with
  | waits =>
    have hhost : r = .putHost c t := ht.eq_host rfl hr rfl
    refine h.goesOn hp ht hf hgood ?_ ⟨hcall.symm, hitem.symm⟩ hguest
    rw [hhost]
    rfl
  | retries => exact h.goesOn hp ht hf hgood rfl ⟨hcall.symm, hitem.symm⟩ hguest
  | returns v => exact h.goesOn hp ht hf hgood rfl rfl hguest
  | throws e => exact h.goesOn hp ht hf hgood rfl rfl hguest

omit [Inhabited T] in
/-- A section of `take` at a node. -/
theorem takeEnds_goesOn (h : Story tr s life) {p : ι} {n d : ℕ} {r : Seat T} (guest : Bool)
    (hr : r = if guest then .takeGuest d else .takeHost d) (hp : (s.pc p).seat = some (n, r))
    (hitem : (s.pc p).item = none) {bad : Prop} {res : SYNCHNode T × Ends T}
    (hturn : Turns n (life n) r (takeShows d n) bad res) (timed : Bool) :
    GoesOn life (tr ++ (takeEnds s p timed d n res).2) (takeEnds s p timed d n res).1 (¬ bad) := by
  obtain ⟨L', ht, hf, hgood⟩ := hturn
  obtain ⟨node, x⟩ := res
  have hcall : (s.pc p).call = some d := by
    rw [Pc.call_of_seat hp, hr]
    cases guest <;> rfl
  have hguest : ∀ c' t', r = .putGuest c' t' → (s.pc p).item = some t' := by
    rintro c' t' rfl
    cases guest <;> cases hr
  cases x with
  | waits =>
    have hhost : r = .takeHost d := ht.eq_host rfl hr rfl
    refine h.goesOn hp ht hf hgood ?_ ⟨hcall.symm, hitem.symm⟩ hguest
    rw [hhost]
    rfl
  | retries => exact h.goesOn hp ht hf hgood rfl ⟨hcall.symm, hitem.symm⟩ hguest
  | returns v => exact h.goesOn hp ht hf hgood rfl rfl hguest
  | throws e => exact h.goesOn hp ht hf hgood rfl rfl hguest

/-- The section of the channel in `put`. -/
theorem putLocked_goesOn (h : Story tr s life) {p : ι} {timed : Bool} {c : ℕ} {t : T}
    (hp : s.pc p = .putLock timed c t) :
    GoesOn life (tr ++ (putLocked s p timed c t).2) (putLocked s p timed c t).1 True := by
  obtain ⟨hsub, hmem⟩ := deque_spec s.chan.nodes s.chan.waitingConsumers
  have hx : (s.pc p).seat = none := by rw [hp]; rfl
  have hcall : (s.pc p).call = some c := by rw [hp]; rfl
  have hitem : (s.pc p).item = some t := by rw [hp]; rfl
  have hnd := h.seating.nodup
  have hsize := h.seating.size_notMem
  unfold putLocked
  generalize deque s.chan.nodes s.chan.waitingConsumers = o at hsub hmem
  obtain ⟨o, queue⟩ := o
  have hnd' : (s.chan.waitingProducers ++ queue).Nodup := hnd.sublist (hsub.append_left _)
  cases o with
  | some n =>
    obtain ⟨hn, hn'⟩ := hmem n rfl
    rw [List.nodup_append] at hnd
    refine .same (h.guest (y := .putNode timed c t n false) (r := .putGuest c t) hx rfl hcall.symm
      hitem.symm (h.seating.consumers n hn c t) (List.Subset.refl _) hsub.subset
      (List.mem_append_right _ hn) ?_ hnd' (Or.inl rfl)) trivial
    intro hm
    rcases List.mem_append.mp hm with hm | hm
    · exact hnd.2.2 n hm n hn rfl
    · exact hn' hnd.2.1 hm
  | none =>
    refine .update ?_ ?_ (h.host (y := .putNode timed c t s.chan.size true) (r := .putHost c t) hx rfl
      rfl hcall.symm hitem.symm (L := .offers c t) rfl ⟨rfl, rfl⟩ ?_ trivial ?_ ?_ ?_
      (Or.inl ⟨c, t, rfl, h.calls.item p c t hcall hitem, rfl⟩))
    · rw [(h.seating.born _).mpr le_rfl]
      trivial
    · exact ⟨fun _ => trivial, fun _ => trivial⟩
    · rintro r' ⟨⟩
      rfl
    · intro m hm
      rcases List.mem_append.mp hm with hm | hm
      · exact Or.inl hm
      · exact Or.inr ⟨List.mem_singleton.mp hm, fun _ => trivial⟩
    · exact fun m hm => Or.inl (hsub.subset hm)
    · rw [List.append_assoc, List.singleton_append, List.perm_middle.nodup_iff, List.nodup_cons]
      exact ⟨fun hm => hsize ((hsub.append_left _).subset hm), hnd'⟩

/-- The section of the channel in `take`. -/
theorem takeLocked_goesOn (h : Story tr s life) {p : ι} {timed : Bool} {d : ℕ}
    (hp : s.pc p = .takeLock timed d) :
    GoesOn life (tr ++ (takeLocked s p timed d).2) (takeLocked s p timed d).1 True := by
  obtain ⟨hsub, hmem⟩ := deque_spec s.chan.nodes s.chan.waitingProducers
  have hx : (s.pc p).seat = none := by rw [hp]; rfl
  have hcall : (s.pc p).call = some d := by rw [hp]; rfl
  have hitem : (s.pc p).item = none := by rw [hp]; rfl
  have hnd := h.seating.nodup
  have hsize := h.seating.size_notMem
  unfold takeLocked
  generalize deque s.chan.nodes s.chan.waitingProducers = o at hsub hmem
  obtain ⟨o, queue⟩ := o
  have hnd' : (queue ++ s.chan.waitingConsumers).Nodup := hnd.sublist (hsub.append_right _)
  cases o with
  | some n =>
    obtain ⟨hn, hn'⟩ := hmem n rfl
    rw [List.nodup_append] at hnd
    refine .same (h.guest (y := .takeNode timed d n false) (r := .takeGuest d) hx rfl hcall.symm
      hitem.symm (h.seating.producers n hn d) hsub.subset (List.Subset.refl _)
      (List.mem_append_left _ hn) ?_ hnd' (Or.inr ⟨d, rfl, rfl⟩)) trivial
    intro hm
    rcases List.mem_append.mp hm with hm | hm
    · exact hn' hnd.1 hm
    · exact hnd.2.2 n hn n hm rfl
  | none =>
    refine .update ?_ ?_ (h.host (y := .takeNode timed d s.chan.size true) (r := .takeHost d) hx rfl
      rfl hcall.symm hitem.symm (L := .seeks d) (show Life.Fits (.seeks d) ⟨default, .EMPTY⟩ from rfl)
      rfl ?_ trivial ?_ ?_ ?_ (Or.inr ⟨d, rfl, rfl, rfl⟩))
    · rw [(h.seating.born _).mpr le_rfl]
      trivial
    · exact ⟨fun _ => trivial, fun _ => trivial⟩
    · rintro r' ⟨⟩
      rfl
    · exact fun m hm => Or.inl (hsub.subset hm)
    · intro m hm
      rcases List.mem_append.mp hm with hm | hm
      · exact Or.inl hm
      · exact Or.inr ⟨List.mem_singleton.mp hm, fun _ _ => trivial⟩
    · rw [← List.append_assoc, List.nodup_append]
      refine ⟨hnd', List.nodup_singleton _, ?_⟩
      intro a ha b hb
      obtain rfl := List.mem_singleton.mp hb
      rintro rfl
      exact hsize ((hsub.append_right _).subset ha)

/-- **Every step goes on with the story**, and spoils it exactly if it is not fair. -/
theorem step_story (h : Story tr s life) {a : Act ι T} (hs : step s a = some (s', es)) :
    GoesOn life (tr ++ es) s' (fair s a = true) := by
  cases a with
  | put p timed t =>
    simp only [step] at hs
    split at hs
    · next hp =>
      obtain ⟨rfl, rfl⟩ := by simpa using hs
      refine .same (h.outside (by rw [hp]; rfl) rfl s.chan.interrupted_
        (h.calls.start rfl (Or.inl ⟨t, rfl, rfl⟩)) ?_ ?_) rfl
      · simp [ofNode, Event.node]
      · simp
    · cases hs
  | take p timed =>
    simp only [step] at hs
    split at hs
    · next hp =>
      obtain ⟨rfl, rfl⟩ := by simpa using hs
      refine .same (h.outside (by rw [hp]; rfl) rfl s.chan.interrupted_
        (h.calls.start rfl (Or.inr ⟨rfl, rfl⟩)) ?_ ?_) rfl
      · simp [ofNode, Event.node]
      · simp
    · cases hs
  | interrupt =>
    obtain ⟨rfl, rfl⟩ := by simpa [step] using hs
    rw [List.append_nil]
    exact .same h.interrupt rfl
  | run p =>
    simp only [step] at hs
    split at hs
    · next timed c t hp =>
      split_ifs at hs
      · obtain ⟨rfl, rfl⟩ := by simpa using hs
        refine .same (h.refused (by rw [hp]; rfl) (by rw [hp]; rfl) rfl ?_ rfl ?_) (by simp [fair, hp])
        · simp
        · simp
      · obtain ⟨rfl, rfl⟩ := by simpa using hs
        refine .same (h.goes (by rw [hp]; rfl) rfl ?_ ?_) (by simp [fair, hp]) <;> rw [hp] <;> rfl
    · next timed c t hp =>
      have hgo := putLocked_goesOn h hp
      rw [Option.some.inj hs] at hgo
      simpa [fair, hp] using hgo
    · next timed c t n w hp =>
      rw [Option.some.injEq] at hs
      have hitem : (s.pc p).item = some t := by rw [hp]; rfl
      cases w with
      | true =>
        have hseat : (s.pc p).seat = some (n, .putHost c t) := by rw [hp]; rfl
        have hgo := putEnds_goesOn h false rfl hseat hitem (putLoop_turns (h.seating.fits n)
          (h.seating.seated p n _ hseat) s.chan.interrupted_) timed
        simp only [Bool.not_true, if_true] at hs
        rw [hs] at hgo
        exact hgo.congr (by cases hi : s.chan.interrupted_ <;> simp [fair, hp, hi])
      | false =>
        have hseat : (s.pc p).seat = some (n, .putGuest c t) := by rw [hp]; rfl
        have hgo := putEnds_goesOn h true rfl hseat hitem (putGuest_turns (h.seating.fits n)
          (h.seating.seated p n _ hseat) s.chan.interrupted_) timed
        simp only [Bool.not_false, Bool.false_eq_true, if_false] at hs
        rw [hs] at hgo
        exact hgo.congr (by simp [fair, hp])
    · next timed d hp =>
      split_ifs at hs
      · obtain ⟨rfl, rfl⟩ := by simpa using hs
        refine .same (h.refused (by rw [hp]; rfl) (by rw [hp]; rfl) rfl ?_ rfl ?_) (by simp [fair, hp])
        · simp
        · simp
      · obtain ⟨rfl, rfl⟩ := by simpa using hs
        refine .same (h.goes (by rw [hp]; rfl) rfl ?_ ?_) (by simp [fair, hp]) <;> rw [hp] <;> rfl
    · next timed d hp =>
      have hgo := takeLocked_goesOn h hp
      rw [Option.some.inj hs] at hgo
      simpa [fair, hp] using hgo
    · next timed d n w hp =>
      rw [Option.some.injEq] at hs
      have hitem : (s.pc p).item = none := by rw [hp]; rfl
      cases w with
      | true =>
        have hseat : (s.pc p).seat = some (n, .takeHost d) := by rw [hp]; rfl
        have hgo := takeEnds_goesOn h false rfl hseat hitem (takeLoop_turns (h.seating.fits n)
          (h.seating.seated p n _ hseat) s.chan.interrupted_) timed
        simp only [if_true] at hs
        rw [hs] at hgo
        exact hgo.congr (by cases hi : s.chan.interrupted_ <;> simp [fair, hp, hi])
      | false =>
        have hseat : (s.pc p).seat = some (n, .takeGuest d) := by rw [hp]; rfl
        have hgo := takeEnds_goesOn h true rfl hseat hitem (takeGuest_turns (h.seating.fits n)
          (h.seating.seated p n _ hseat) s.chan.interrupted_) timed
        simp only [Bool.false_eq_true, if_false] at hs
        rw [hs] at hgo
        exact hgo.congr (by simp [fair, hp])
    · cases hs
  | wake p w =>
    simp only [step] at hs
    split at hs
    · next timed c t n hp =>
      split_ifs at hs
      rw [Option.some.injEq] at hs
      have hseat : (s.pc p).seat = some (n, .putHost c t) := by rw [hp]; rfl
      have hgo := putEnds_goesOn h false rfl hseat (by rw [hp]; rfl) (putWoke_turns (h.seating.fits n)
        (h.seating.seated p n _ hseat) s.chan.interrupted_ w) timed
      rw [hs] at hgo
      exact hgo.congr (by cases w <;> simp [fair, hp])
    · next timed d n hp =>
      split_ifs at hs
      rw [Option.some.injEq] at hs
      have hseat : (s.pc p).seat = some (n, .takeHost d) := by rw [hp]; rfl
      have hgo := takeEnds_goesOn h false rfl hseat (by rw [hp]; rfl) (takeWoke_turns (h.seating.fits n)
        (h.seating.seated p n _ hseat) s.chan.interrupted_ w) timed
      rw [hs] at hgo
      exact hgo.congr (by cases w <;> cases hi : s.chan.interrupted_ <;> simp [fair, hp, hi])
    · cases hs

/-- Every run has a story, and its lives are good exactly when all its steps were fair. -/
theorem run_story {π : List (Taken (World ι T) (Act ι T) (Event T))} (hr : Run machine π s) :
    ∃ life, Story (events π) s life ∧ ((∀ n, (life n).Good) ↔ Meets (fun s a => fair s a) π) := by
  induction hr with
  | start => exact ⟨_, Story.init, by simp [Life.Good]⟩
  | snoc _ hstep ih =>
    obtain ⟨life, h, hgood⟩ := ih
    obtain ⟨life', h', hgood'⟩ := step_story h hstep
    refine ⟨life', by rwa [events_snoc], ?_⟩
    rw [hgood', hgood, meets_snoc]

end Steps

end Lasagne.Daf.SynchronousChannel
