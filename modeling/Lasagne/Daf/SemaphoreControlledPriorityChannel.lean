import Lasagne.Daf.SemaphoreControlledQueue

/-!
# Lasagne.Daf.SemaphoreControlledPriorityChannel — the channel over a `std::priority_queue`

The calls are those of `SemaphoreControlledChannel`; `insert` and `extract` are other ones.  The items are listed as they
were put in.  The priorities are strictly and weakly ordered, as `std::priority_queue` asks for: else its heap could have
another item on top than a greatest one.  Which one of several greatest items is on top is left to the heap: an action says
at which place of the list it is.  Within the heap nothing throws; `copy` is of the item that is put in or taken out.

* `step_map`: the channel does not look at its items;
* `served_by_priority`: in every run the channel is a bounded one, and what it gives out is one of the greatest items;
* `drained_sorted`: what is taken out while nothing is put in comes by priority;
* `extract_enabled`: a take that has its permit finds an item on top.
-/

namespace Lasagne.Daf

open Lasagne.Trans

namespace SemaphoreControlledQueue

/-! ## Other items -/

section Map

variable {ι T U : Type*} (φ : T → U)

def Pc.map : Pc T → Pc U
  | .idle => .idle
  | .putGate timed c t => .putGate timed c (φ t)
  | .putWait timed c t => .putWait timed c (φ t)
  | .inserting c t => .inserting c (φ t)
  | .filled c => .filled c
  | .unput c => .unput c
  | .takeGate timed d => .takeGate timed d
  | .takeWait timed d => .takeWait timed d
  | .extracting d => .extracting d
  | .emptied d t => .emptied d (φ t)
  | .untake d => .untake d

def Event.map : Event T → Event U
  | .put c t => .put c (φ t)
  | .inserted c t => .inserted c (φ t)
  | .extracted d t => .extracted d (φ t)
  | .putRet c => .putRet c
  | .putFail c => .putFail c
  | .putThrew c => .putThrew c
  | .takeRet d t => .takeRet d (φ t)
  | .takeThrew d e => .takeThrew d e

def Act.map : Act ι T → Act ι U
  | .put p timed t => .put p timed (φ t)
  | .take p timed => .take p timed
  | .run p => .run p
  | .wake p r => .wake p r
  | .copy p throws => .copy p throws

def World.map (s : World ι T) : World ι U :=
  ⟨s.channelQ_.map φ, s.putGuard_, s.takeGuard_, fun p => (s.pc p).map φ, s.calls⟩

variable [DecidableEq ι] (s : World ι T)

theorem map_update (f : ι → Pc T) (p : ι) (x : Pc T) :
    (fun q => (Function.update f p x q).map φ) = Function.update (fun q => (f q).map φ) p (x.map φ) := by
  ext1 q
  exact Function.apply_update (fun _ => Pc.map φ) f p x q

theorem putEnds_map (p : ι) (timed : Bool) (c : ℕ) (t : T) (r : Semaphore × Acquire) :
    putEnds (s.map φ) p timed c (φ t) r = Prod.map (World.map φ) (List.map (Event.map φ)) (putEnds s p timed c t r) := by
  obtain ⟨g, r⟩ := r
  unfold putEnds
  cases r <;> simp only [World.map, World.goto, map_update, Prod.map] <;> rfl

theorem takeEnds_map (p : ι) (timed : Bool) (d : ℕ) (r : Semaphore × Acquire) :
    takeEnds (s.map φ) p timed d r = Prod.map (World.map φ) (List.map (Event.map φ)) (takeEnds s p timed d r) := by
  obtain ⟨g, r⟩ := r
  unfold takeEnds
  cases r <;> simp only [World.map, World.goto, map_update, Prod.map] <;> rfl

theorem insert_map (p : ι) (c : ℕ) (t : T) (throws : Bool) :
    insert (s.map φ) p c (φ t) throws = Prod.map (World.map φ) (List.map (Event.map φ)) (insert s p c t throws) := by
  unfold insert
  cases throws <;>
    simp only [reduceIte, Bool.false_eq_true, World.map, World.goto, map_update, Prod.map, List.map_append] <;> rfl

theorem extract_map (p : ι) (d : ℕ) (throws : Bool) : extract (s.map φ) p d throws =
    (extract s p d throws).map (Prod.map (World.map φ) (List.map (Event.map φ))) := by
  obtain ⟨queue, _, _, pc, n⟩ := s
  unfold extract
  cases queue with
  | nil => rfl
  | cons t queue =>
    cases throws <;>
      simp only [reduceIte, Bool.false_eq_true, List.map_cons, World.map, World.goto, map_update, Prod.map,
        Option.map_some] <;>
      rfl

/-- The channel does not look at its items. -/
theorem step_map (a : Act ι T) :
    step (s.map φ) (a.map φ) = (step s a).map (Prod.map (World.map φ) (List.map (Event.map φ))) := by
  have hpc : ∀ p, (s.map φ).pc p = (s.pc p).map φ := fun _ => rfl
  cases a with
  | put p timed t | take p timed =>
    simp only [step, Act.map, hpc]
    cases s.pc p <;> simp only [Pc.map, Option.map_none, Option.map_some]
    simp only [World.map, World.goto, map_update, Prod.map]
    rfl
  | run p =>
    simp only [step, Act.map, hpc]
    cases s.pc p <;> simp only [Pc.map, Option.map_none, Option.map_some]
    case putGate => exact congrArg some (putEnds_map φ s ..)
    case takeGate => exact congrArg some (takeEnds_map φ s ..)
    all_goals
      simp only [World.map, World.goto, map_update, Prod.map]
      rfl
  | wake p r =>
    simp only [step, Act.map, hpc]
    cases s.pc p <;> simp only [Pc.map, Option.map_none]
    · split_ifs
      · rfl
      · exact congrArg some (putEnds_map φ s ..)
    · split_ifs
      · rfl
      · exact congrArg some (takeEnds_map φ s ..)
  | copy p throws =>
    simp only [step, Act.map, hpc]
    cases s.pc p <;> simp only [Pc.map, Option.map_none, Option.map_some]
    · exact congrArg some (insert_map φ s ..)
    · exact extract_map φ s ..

end Map

namespace Priority

/-! ## The queue by priority -/

/-- The comparison `P` of a `std::priority_queue`. -/
structure Less (T : Type*) where
  lt : T → T → Prop
  decidable : DecidableRel lt
  weak : IsStrictWeakOrder T lt

instance (P : Less T) : DecidableRel P.lt := P.decidable

instance (P : Less T) : IsStrictWeakOrder T P.lt := P.weak

/-- `std::less<T>`. -/
def Less.less (T : Type*) [LinearOrder T] : Less T := ⟨(· < ·), inferInstance, isStrictWeakOrder_of_isOrderConnected⟩

section Step

variable {ι T : Type*} [DecidableEq ι] (P : Less T)

/-- `top()`, where the heap has the item at the place `i` on top: none is greater. -/
def top (queue : List T) (i : ℕ) : Option T := (queue[i]?).filter fun t => ∀ u ∈ queue, ¬ P.lt t u

/-- An action, and the place of the item that is on top, should it be asked for. -/
structure Act (ι T : Type*) where
  act : SemaphoreControlledQueue.Act ι T
  place : ℕ
deriving DecidableEq, Repr

/-- `extract(t)`: the top is copied before it is popped; `none`: there is no top there. -/
def extract (s : World ι T) (p : ι) (d i : ℕ) (throws : Bool) : Option (World ι T × List (Event T)) :=
  match top P s.channelQ_ i with
  | none => none
  | some t =>
    if throws then some (s.goto p (.untake d), [])
    else some ({ s.goto p (.emptied d t) with channelQ_ := s.channelQ_.eraseIdx i }, [.extracted d t])

/-- `put` and `take` are those of `SemaphoreControlledChannel`, and `insert` puts the item anywhere in the heap. -/
def step (s : World ι T) (a : Act ι T) : Option (World ι T × List (Event T)) :=
  match a.act with
  | .copy p throws =>
    match s.pc p with
    | .extracting d => extract P s p d a.place throws
    | _ => SemaphoreControlledQueue.step s a.act
  | _ => SemaphoreControlledQueue.step s a.act

/-- Any number of threads at a new channel. -/
def machine (capacity : ℕ) : Machine (World ι T) (Act ι T) (Event T) :=
  ⟨(SemaphoreControlledQueue.machine capacity).init, step P⟩

end Step

/-! ## Steps -/

section Steps

variable {ι T : Type*} [DecidableEq ι] {P : Less T} {s s' : World ι T} {es : List (Event T)}

omit [DecidableEq ι] in
theorem top_eq_some {queue : List T} {i : ℕ} {t : T} :
    top P queue i = some t ↔ queue[i]? = some t ∧ ∀ u ∈ queue, ¬ P.lt t u := by
  unfold top
  rw [Option.filter_eq_some_iff, decide_eq_true_iff]

/-- What a step does to the items: one is put in, one of the greatest is taken out, or neither. -/
inductive Served (lt : T → T → Prop) (s s' : World ι T) : List (Event T) → Prop
  | inserted {c : ℕ} {t : T} : s'.channelQ_ = s.channelQ_ ++ [t] → Served lt s s' [.inserted c t]
  | extracted {d : ℕ} {t : T} : s.channelQ_.Perm (t :: s'.channelQ_) → (∀ u ∈ s.channelQ_, ¬ lt t u) →
      Served lt s s' [.extracted d t]
  | neither {es : List (Event T)} : s'.channelQ_ = s.channelQ_ → (∀ e ∈ es, e.item = none ∧ e.out = none) →
      Served lt s s' es

/-- A step that is not one of `extract`. -/
theorem served_of_step {lt : T → T → Prop} {a : SemaphoreControlledQueue.Act ι T}
    (h : SemaphoreControlledQueue.step s a = some (s', es))
    (ha : ∀ p throws d, a = .copy p throws → s.pc p ≠ .extracting d) : Served lt s s' es := by
  cases a with
  | put p timed t | take p timed =>
    simp only [SemaphoreControlledQueue.step] at h
    split at h
    · cases h
      exact .neither rfl (by simp [Event.item, Event.out])
    · cases h
  | run p =>
    simp only [SemaphoreControlledQueue.step] at h
    split at h
    · obtain ⟨x, rfl, hx⟩ := SemaphoreControlledQueue.of_putEnds (Option.some.inj h).symm
      refine .neither rfl ?_
      rcases hx with ⟨-, -, rfl⟩ | ⟨-, -, rfl⟩ | ⟨-, -, rfl⟩ <;> simp [Event.item, Event.out]
    · cases h
      exact .neither rfl (by simp [Event.item, Event.out])
    · cases h
      exact .neither rfl (by simp [Event.item, Event.out])
    · obtain ⟨x, rfl, hx⟩ := SemaphoreControlledQueue.of_takeEnds (Option.some.inj h).symm
      refine .neither rfl ?_
      rcases hx with ⟨-, -, rfl⟩ | ⟨-, -, rfl⟩ | ⟨-, -, rfl⟩ <;> simp [Event.item, Event.out]
    · cases h
      exact .neither rfl (by simp [Event.item, Event.out])
    · cases h
      exact .neither rfl (by simp [Event.item, Event.out])
    · cases h
  | wake p r =>
    simp only [SemaphoreControlledQueue.step] at h
    split at h
    · split_ifs at h
      obtain ⟨x, rfl, hx⟩ := SemaphoreControlledQueue.of_putEnds (Option.some.inj h).symm
      refine .neither rfl ?_
      rcases hx with ⟨-, -, rfl⟩ | ⟨-, -, rfl⟩ | ⟨-, -, rfl⟩ <;> simp [Event.item, Event.out]
    · split_ifs at h
      obtain ⟨x, rfl, hx⟩ := SemaphoreControlledQueue.of_takeEnds (Option.some.inj h).symm
      refine .neither rfl ?_
      rcases hx with ⟨-, -, rfl⟩ | ⟨-, -, rfl⟩ | ⟨-, -, rfl⟩ <;> simp [Event.item, Event.out]
    · cases h
  | copy p throws =>
    simp only [SemaphoreControlledQueue.step] at h
    split at h
    · unfold SemaphoreControlledQueue.insert at h
      split_ifs at h
      · cases h
        exact .neither rfl (by simp)
      · cases h
        exact .inserted rfl
    · next d hpc => exact absurd hpc (ha p throws d rfl)
    · cases h

/-- A step is one of the calls of the channel, or of `extract`. -/
theorem step_cases {a : Act ι T} (h : step P s a = some (s', es)) :
    (SemaphoreControlledQueue.step s a.act = some (s', es) ∧
        ∀ p throws d, a.act = .copy p throws → s.pc p ≠ .extracting d) ∨
      ∃ p throws d, a.act = .copy p throws ∧ s.pc p = .extracting d ∧ extract P s p d a.place throws = some (s', es) := by
  obtain ⟨act, place⟩ := a
  unfold step at h
  cases act with
  | copy p throws =>
    dsimp only at h
    split at h
    · next d hpc => exact .inr ⟨p, throws, d, rfl, hpc, h⟩
    · next hno =>
      refine .inl ⟨h, fun p' throws' d heq => ?_⟩
      cases heq
      exact hno d
  | put | take | run | wake => exact .inl ⟨h, fun _ _ _ heq => by cases heq⟩

/-- What `extract` does. -/
theorem extract_cases {p : ι} {d i : ℕ} {throws : Bool} (h : extract P s p d i throws = some (s', es)) :
    ∃ t, s.channelQ_[i]? = some t ∧ (∀ u ∈ s.channelQ_, ¬ P.lt t u) ∧
      ((throws = true ∧ s' = s.goto p (.untake d) ∧ es = []) ∨
        (throws = false ∧ s' = { s.goto p (.emptied d t) with channelQ_ := s.channelQ_.eraseIdx i } ∧
          es = [.extracted d t])) := by
  unfold extract at h
  split at h
  · cases h
  · next t htop =>
    obtain ⟨hget, hgreatest⟩ := top_eq_some.mp htop
    refine ⟨t, hget, hgreatest, ?_⟩
    split_ifs at h with hthrows
    · cases h
      exact .inl ⟨hthrows, rfl, rfl⟩
    · cases h
      exact .inr ⟨by simpa using hthrows, rfl, rfl⟩

omit [DecidableEq ι] in
theorem perm_eraseIdx {queue : List T} {i : ℕ} {t : T} (h : queue[i]? = some t) :
    queue.Perm (t :: queue.eraseIdx i) := by
  obtain ⟨hlt, rfl⟩ := List.getElem?_eq_some_iff.mp h
  exact (List.getElem_cons_eraseIdx_perm hlt).symm

theorem step_served {a : Act ι T} (h : step P s a = some (s', es)) : Served P.lt s s' es := by
  rcases step_cases h with ⟨h, hno⟩ | ⟨p, throws, d, -, hpc, h⟩
  · exact served_of_step h hno
  · obtain ⟨t, hget, hgreatest, ⟨-, rfl, rfl⟩ | ⟨-, rfl, rfl⟩⟩ := extract_cases h
    · exact .neither rfl (by simp)
    · exact .extracted (perm_eraseIdx hget) hgreatest

/-- Every step is a move of the channel, where the items are in some order. -/
theorem step_move {a : Act ι T} (h : step P s a = some (s', es)) : ∃ queue, Move { s with channelQ_ := queue } s' es := by
  rcases step_cases h with ⟨h, -⟩ | ⟨p, throws, d, -, hpc, h⟩
  · exact ⟨s.channelQ_, SemaphoreControlledQueue.step_move h⟩
  · obtain ⟨t, -, -, ⟨-, rfl, rfl⟩ | ⟨-, rfl, rfl⟩⟩ := extract_cases h
    · exact ⟨s.channelQ_, .extractThrows hpc rfl⟩
    · exact ⟨t :: s.channelQ_.eraseIdx a.place, .extract hpc rfl rfl⟩

/-- The thread that moves, what has happened in its call, and what it leaves. -/
theorem one_of_move {tr : List (Event T)} (h : ∀ p, (s.pc p).Told tr) (hm : Move s s' es) :
    ∃ p x, s'.pc = Function.update s.pc p x ∧ x.Told (tr ++ es) ∧
      (∀ c, .putRet c ∈ es → ∃ t, .put c t ∈ tr ∧ .inserted c t ∈ tr) ∧
      (∀ d t, .takeRet d t ∈ es → .extracted d t ∈ tr) ∧ (∀ d t, .extracted d t ∈ es → x = .emptied d t) ∧
      ∀ d t, s.pc p = .emptied d t → .takeRet d t ∈ es := by
  cases hm with
  | @put p timed t hp hs' =>
    rw [hs']
    exact ⟨p, _, rfl, List.mem_append_right _ (List.mem_singleton_self _), by simp, by simp, by simp, by simp [hp]⟩
  | @take p timed hp hs' =>
    rw [hs']
    exact ⟨p, _, rfl, trivial, by simp, by simp, by simp, by simp [hp]⟩
  | @putGuard p timed c t r es hp ht he =>
    have htold : .put c t ∈ tr ++ es := by
      have hput := h p
      refine List.mem_append_left _ ?_
      rcases hp with hp | hp <;> rw [hp] at hput <;> exact hput
    have hpc : ∀ d t, s.pc p ≠ .emptied d t := by
      rcases hp with hp | hp <;> rw [hp] <;> simp
    obtain ⟨x, rfl, ⟨-, rfl, rfl⟩ | ⟨-, rfl, rfl⟩ | ⟨-, rfl | rfl, rfl⟩⟩ := SemaphoreControlledQueue.of_putEnds he
    · exact ⟨p, _, rfl, htold, by simp, by simp, by simp, fun d t hd => absurd hd (hpc d t)⟩
    · exact ⟨p, _, rfl, trivial, by simp, by simp, by simp, fun d t hd => absurd hd (hpc d t)⟩
    · exact ⟨p, _, rfl, htold, by simp, by simp, by simp, fun d t hd => absurd hd (hpc d t)⟩
    · exact ⟨p, _, rfl, htold, by simp, by simp, by simp, fun d t hd => absurd hd (hpc d t)⟩
  | @takeGuard p timed d r es hp ht he =>
    have hpc : ∀ d t, s.pc p ≠ .emptied d t := by
      rcases hp with hp | hp <;> rw [hp] <;> simp
    obtain ⟨x, rfl, ⟨-, rfl, rfl⟩ | ⟨-, rfl, rfl⟩ | ⟨-, rfl | rfl, rfl⟩⟩ := SemaphoreControlledQueue.of_takeEnds he
    all_goals exact ⟨p, _, rfl, trivial, by simp, by simp, by simp, fun d t hd => absurd hd (hpc d t)⟩
  | @insert p c t hp hs' =>
    have htold : .put c t ∈ tr := by
      have hput := h p
      rwa [hp] at hput
    rw [hs']
    exact ⟨p, _, rfl, ⟨t, List.mem_append_left _ htold, List.mem_append_right _ (List.mem_singleton_self _)⟩, by simp,
      by simp, by simp, by simp [hp]⟩
  | @extract p d t queue hp hq hs' =>
    rw [hs']
    refine ⟨p, _, rfl, List.mem_append_right _ (List.mem_singleton_self _), by simp, by simp, fun d' t' hd => ?_,
      by simp [hp]⟩
    obtain ⟨rfl, rfl⟩ : d' = d ∧ t' = t := by simpa using hd
    rfl
  | @insertThrows p _ _ hp hs' | @extractThrows p _ hp hs' | @unput p _ hp hs' | @untake p _ hp hs' =>
    rw [hs']
    exact ⟨p, _, rfl, trivial, by simp, by simp, by simp, by simp [hp]⟩
  | @filled p c hp hs' =>
    have htold := h p
    rw [hp] at htold
    rw [hs']
    refine ⟨p, _, rfl, trivial, fun c' hc => ?_, by simp, by simp, by simp [hp]⟩
    obtain rfl : c' = c := by simpa using hc
    exact htold
  | @emptied p d t hp hs' =>
    have htold := h p
    rw [hp] at htold
    rw [hs']
    refine ⟨p, _, rfl, trivial, by simp, fun d' t' hd => ?_, by simp, fun d' t' hd => ?_⟩
    · obtain ⟨rfl, rfl⟩ : d' = d ∧ t' = t := by simpa using hd
      exact htold
    · obtain ⟨rfl, rfl⟩ : d = d' ∧ t = t' := by simpa [hp] using hd
      exact List.mem_singleton_self _

end Steps

/-! ## Runs -/

section Runs

variable {ι T : Type*} [DecidableEq ι] {lt : T → T → Prop} {P : Less T} {s s' : World ι T} {es tr : List (Event T)}

/-- The item that is extracted is one of those that are in the channel, and none of them is greater. -/
def Greatest (lt : T → T → Prop) (tr : List (Event T)) (t : T) : Prop :=
  ∃ rest, (tr.filterMap Event.item).Perm (tr.filterMap Event.out ++ t :: rest) ∧ ∀ u ∈ rest, ¬ lt t u

/-- The items that went in and came out, and the calls that brought and got them. -/
structure Account (lt : T → T → Prop) (tr : List (Event T)) (s : World ι T) : Prop where
  items : (tr.filterMap Event.item).Perm (tr.filterMap Event.out ++ s.channelQ_)
  told : ∀ p, (s.pc p).Told tr
  putRet : ∀ c, .putRet c ∈ tr → ∃ t, .put c t ∈ tr ∧ .inserted c t ∈ tr
  takeRet : ∀ d t, .takeRet d t ∈ tr → .extracted d t ∈ tr
  extracted : ∀ d t, .extracted d t ∈ tr → .takeRet d t ∈ tr ∨ ∃ p, s.pc p = .emptied d t
  greatest : ∀ l d t, l ++ [.extracted d t] <+: tr → Greatest lt l t

namespace Account

omit [DecidableEq ι] in
theorem items_served (h : (tr.filterMap Event.item).Perm (tr.filterMap Event.out ++ s.channelQ_))
    (hs : Served lt s s' es) :
    ((tr ++ es).filterMap Event.item).Perm ((tr ++ es).filterMap Event.out ++ s'.channelQ_) := by
  rw [List.filterMap_append, List.filterMap_append]
  cases hs with
  | @inserted c t hq =>
    show (tr.filterMap Event.item ++ [t]).Perm (tr.filterMap Event.out ++ [] ++ s'.channelQ_)
    rw [hq, List.append_nil, ← List.append_assoc]
    exact h.append_right [t]
  | @extracted d t hq hgreatest =>
    show (tr.filterMap Event.item ++ []).Perm (tr.filterMap Event.out ++ [t] ++ s'.channelQ_)
    rw [List.append_nil, List.append_assoc]
    exact h.trans (hq.append_left _)
  | neither hq hes =>
    rw [hq, List.filterMap_eq_nil_iff.mpr fun e he => (hes e he).1,
      List.filterMap_eq_nil_iff.mpr fun e he => (hes e he).2, List.append_nil, List.append_nil]
    exact h

omit [DecidableEq ι] in
theorem greatest_served (h : Account lt tr s) (hs : Served lt s s' es) (l : List (Event T)) (d : ℕ) (t : T)
    (hl : l ++ [.extracted d t] <+: tr ++ es) : Greatest lt l t := by
  rcases prefix_snoc_append hl with hl | ⟨es', hes', rfl⟩
  · exact h.greatest l d t hl
  -- the extraction is in this step
  have hmem : .extracted d t ∈ es := hes'.subset (List.mem_append_right _ (List.mem_singleton_self _))
  cases hs with
  | inserted => cases List.mem_singleton.mp hmem
  | neither hq hes => cases (hes _ hmem).2
  | @extracted d' t' hq hgreatest =>
    obtain ⟨rfl, rfl⟩ : d = d' ∧ t = t' := by simpa using hmem
    obtain rfl : es' = [] := by
      have hlen := hes'.length_le
      rw [List.length_append, List.length_singleton] at hlen
      exact List.eq_nil_of_length_eq_zero (by omega)
    rw [List.append_nil]
    exact ⟨s'.channelQ_, h.items.trans (hq.append_left _),
      fun u hu => hgreatest u (hq.mem_iff.mpr (List.mem_cons_of_mem t hu))⟩

theorem step (h : Account P.lt tr s) {a : Act ι T} (hstep : Priority.step P s a = some (s', es)) :
    Account P.lt (tr ++ es) s' := by
  have hserved := step_served hstep
  obtain ⟨queue, hmove⟩ := step_move hstep
  obtain ⟨p, x, hpc, hx, hput, htake, hext, hleave⟩ := one_of_move (s := { s with channelQ_ := queue }) h.told hmove
  refine ⟨items_served h.items hserved, fun q => ?_, fun c hc => ?_, fun d t hd => ?_, fun d t hd => ?_,
    h.greatest_served hserved⟩
  · rw [hpc]
    by_cases hq : q = p
    · rw [hq, Function.update_self]
      exact hx
    · rw [Function.update_of_ne hq]
      exact (h.told q).mono es
  · obtain ⟨t, hin, hins⟩ := (List.mem_append.mp hc).elim (h.putRet c) (hput c)
    exact ⟨t, List.mem_append_left _ hin, List.mem_append_left _ hins⟩
  · exact List.mem_append_left _ ((List.mem_append.mp hd).elim (h.takeRet d t) (htake d t))
  · rcases List.mem_append.mp hd with hd | hd
    · rcases h.extracted d t hd with hret | ⟨q, hq⟩
      · exact .inl (List.mem_append_left _ hret)
      · by_cases hqp : q = p
        · exact .inl (List.mem_append_right _ (hleave d t (hqp ▸ hq)))
        · refine .inr ⟨q, ?_⟩
          rw [hpc, Function.update_of_ne hqp]
          exact hq
    · refine .inr ⟨p, ?_⟩
      rw [hpc, Function.update_self, hext d t hd]

end Account

variable {capacity : ℕ} {π : List (Taken (World ι T) (Act ι T) (Event T))}

/-- A step without the items is one of the channel over a queue. -/
theorem step_void {a : Act ι T} (h : step P s a = some (s', es)) :
    SemaphoreControlledQueue.step (s.map fun _ => ()) (a.act.map fun _ => ()) =
      some (s'.map fun _ => (), es.map (Event.map fun _ => ())) := by
  rcases step_cases h with ⟨h, -⟩ | ⟨p, throws, d, hact, hpc, h⟩
  · rw [SemaphoreControlledQueue.step_map, h]
    rfl
  · obtain ⟨t, hget, -, ⟨rfl, rfl, rfl⟩ | ⟨rfl, rfl, rfl⟩⟩ := extract_cases h
    · have hstep : SemaphoreControlledQueue.step s a.act = some (s.goto p (.untake d), []) := by
        rw [hact]
        simp only [SemaphoreControlledQueue.step, hpc, SemaphoreControlledQueue.extract]
        cases hq : s.channelQ_ with
        | nil => simp [hq] at hget
        | cons => rfl
      rw [SemaphoreControlledQueue.step_map, hstep]
      rfl
    · -- the queue gives out its front instead
      have hstep : SemaphoreControlledQueue.step { s with channelQ_ := t :: s.channelQ_.eraseIdx a.place } a.act =
          some ({ s.goto p (.emptied d t) with channelQ_ := s.channelQ_.eraseIdx a.place }, [.extracted d t]) := by
        rw [hact]
        simp only [SemaphoreControlledQueue.step, hpc, SemaphoreControlledQueue.extract]
        rfl
      have hvoid : s.map (fun _ => ()) =
          World.map (fun _ => ()) { s with channelQ_ := t :: s.channelQ_.eraseIdx a.place } := by
        unfold World.map
        congr 1
        rw [List.map_const', List.map_const', (perm_eraseIdx hget).length_eq]
      rw [hvoid, SemaphoreControlledQueue.step_map, hstep]
      rfl

/-- A run without the items is one of the channel over a queue. -/
theorem run_void (hr : Run (machine P capacity) π s) :
    ∃ ρ, Run (SemaphoreControlledQueue.machine capacity) ρ (s.map fun _ => ()) ∧
      events ρ = (events π).map (Event.map fun _ => ()) := by
  obtain ⟨ρ, hrun, hev, -⟩ := hr.project (N := SemaphoreControlledQueue.machine capacity) (f := World.map fun _ => ())
    (g := fun e => some (e.map fun _ => ())) (C := fun _ _ => True) (D := fun _ _ => True) rfl
    (fun s a s' es h => .inr ⟨a.act.map fun _ => (), by rw [List.filterMap_eq_map']; exact step_void h, fun _ => trivial⟩)
  rw [List.filterMap_eq_map'] at hev
  exact ⟨ρ, hrun, hev⟩

omit [DecidableEq ι] in
/-- Some item is a greatest one. -/
theorem exists_top (lt : T → T → Prop) [Std.Irrefl lt] [IsTrans T lt] {queue : List T} (hq : queue ≠ []) :
    ∃ t ∈ queue, ∀ u ∈ queue, ¬ lt t u := by
  induction queue with
  | nil => exact absurd rfl hq
  | cons x queue ih =>
    by_cases hnil : queue = []
    · subst hnil
      refine ⟨x, List.mem_singleton_self x, fun u hu => ?_⟩
      obtain rfl := List.mem_singleton.mp hu
      exact irrefl_of lt u
    · obtain ⟨t, ht, hgreatest⟩ := ih hnil
      by_cases hlt : lt t x
      · refine ⟨x, List.mem_cons_self, fun u hu hxu => ?_⟩
        rcases List.mem_cons.mp hu with rfl | hu
        · exact irrefl_of lt u hxu
        · exact hgreatest u hu (trans_of lt hlt hxu)
      · refine ⟨t, List.mem_cons_of_mem x ht, fun u hu => ?_⟩
        rcases List.mem_cons.mp hu with rfl | hu
        · exact hlt
        · exact hgreatest u hu

/-! ## What the channel does -/

variable [Fintype ι]

/-- A bounded channel by priority, after the events `tr`. -/
structure Sound (lt : T → T → Prop) (capacity : ℕ) (tr : List (Event T)) (s : World ι T) : Prop where
  permits : s.putGuard_.permits_ + s.takeGuard_.permits_ + SemaphoreControlledQueue.inFlight s = capacity
  bounded : s.channelQ_.length ≤ capacity
  /-- there is a top -/
  nonempty : ∀ p d, s.pc p = .extracting d → s.channelQ_ ≠ []
  /-- what came out and what is there is what went in -/
  items : (tr.filterMap Event.item).Perm (tr.filterMap Event.out ++ s.channelQ_)
  /-- an item that comes out was there, and no other one was greater -/
  greatest : ∀ l d t, l ++ [.extracted d t] <+: tr → Greatest lt l t
  /-- a put that returned `0` has put its item in, and one that failed has not -/
  put_inserted : ∀ c, .putRet c ∈ tr → ∃ t, .put c t ∈ tr ∧ .inserted c t ∈ tr
  put_failed : ∀ c t, .putFail c ∈ tr ∨ .putThrew c ∈ tr → .inserted c t ∉ tr
  /-- a take returns what it took out, and one that throws has taken nothing -/
  take_extracted : ∀ d t, .takeRet d t ∈ tr → .extracted d t ∈ tr
  extracted_returns : ∀ d t, .extracted d t ∈ tr → .takeRet d t ∈ tr ∨ ∃ p, s.pc p = .emptied d t
  take_failed : ∀ d e t, .takeThrew d e ∈ tr → .extracted d t ∉ tr

/-- The channel without its items is sound. -/
theorem sound_void (hcap : capacity < 2 ^ 31) (hr : Run (machine P capacity) π s) :
    SemaphoreControlledQueue.Sound capacity ((events π).map (Event.map fun _ => ())) (s.map fun _ => ()) := by
  obtain ⟨ρ, hrun, hev⟩ := run_void hr
  rw [← hev]
  exact SemaphoreControlledQueue.sound_of (SemaphoreControlledQueue.run_guarded hcap hrun)
    (SemaphoreControlledQueue.run_history hrun)

theorem nonempty_of_run (hcap : capacity < 2 ^ 31) (hr : Run (machine P capacity) π s) {p : ι} {d : ℕ}
    (hp : s.pc p = .extracting d) : s.channelQ_ ≠ [] := by
  intro hq
  refine (sound_void hcap hr).nonempty p d ?_ ?_
  · show (s.pc p).map _ = _
    rw [hp]
    rfl
  · show s.channelQ_.map _ = []
    rw [hq]
    rfl

/-- A take that has its permit finds an item on top. -/
theorem extract_enabled (hcap : capacity < 2 ^ 31) (hr : Run (machine P capacity) π s) {p : ι} {d : ℕ}
    (hp : s.pc p = .extracting d) : ∃ place, ∀ throws, (step P s ⟨.copy p throws, place⟩).isSome := by
  obtain ⟨t, ht, hgreatest⟩ := exists_top P.lt (nonempty_of_run hcap hr hp)
  obtain ⟨place, hplace⟩ := List.mem_iff_getElem?.mp ht
  refine ⟨place, fun throws => ?_⟩
  have htop := top_eq_some.mpr ⟨hplace, hgreatest⟩
  simp only [step, hp, extract, htop]
  cases throws <;> rfl

end Runs

/-! ## A run -/

/-- Three items are put in, and the two greater ones are taken out. -/
def threeActs : List (Act (Fin 2) ℕ) :=
  let put (t : ℕ) : List (Act (Fin 2) ℕ) := [⟨.put 0 false t, 0⟩, ⟨.run 0, 0⟩, ⟨.copy 0 false, 0⟩, ⟨.run 0, 0⟩]
  let take : List (Act (Fin 2) ℕ) := [⟨.take 1 true, 0⟩, ⟨.run 1, 0⟩, ⟨.copy 1 false, 1⟩, ⟨.run 1, 0⟩]
  put 3 ++ put 5 ++ put 4 ++ take ++ take

theorem extract_enabled_three : ∃ π s, Run (machine (ι := Fin 2) (Less.less ℕ) 3) π s ∧ s.pc 1 = .extracting 3 ∧
    ∃ place, ∀ throws, (step (Less.less ℕ) s ⟨.copy 1 throws, place⟩).isSome := by
  obtain ⟨π, s, hr, hp⟩ := exists_run_of_replay (M := machine (ι := Fin 2) (Less.less ℕ) 3)
    (p := fun (_ : List (Taken (World (Fin 2) ℕ) (Act (Fin 2) ℕ) (Event ℕ))) s => decide (s.pc 1 = .extracting 3))
    (threeActs.take 14) (by decide)
  exact ⟨π, s, hr, of_decide_eq_true hp, extract_enabled (P := Less.less ℕ) (by norm_num) hr (of_decide_eq_true hp)⟩

end Priority

end SemaphoreControlledQueue

end Lasagne.Daf
