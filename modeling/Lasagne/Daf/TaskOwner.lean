import Lasagne.Daf.TaskStage

/-!
# Lasagne.Daf.TaskOwner — who owns a command

A worker comes to own a command by being started with it or by taking it from the channel.

* `Account.owns_unique`, `Account.gained_nodup`: a command has one owner at most, whatever happens.
* `run_holding`: an owner serves its command at most once.
* `execute_owner`: without `module_closed()` the result of `execute` says whether the command has an owner.
-/

namespace Lasagne.Daf.TaskExecutor

open Lasagne.Trans
open SynchronousChannel (Story Handed)

variable {ι R : Type*}

/-! ## Owners -/

/-- The call whose command a worker comes to own. -/
def Event.gained : Event ι R → Option ℕ
  | .spawned k _ => some k
  | .channel _ (.took _ _ (some (k, _))) => some k
  | _ => none

/-- A worker is started or takes from the channel. -/
theorem Event.of_gained {e : Event ι R} {k : ℕ} (h : e.gained = some k) :
    (∃ w, e = .spawned k w) ∨ ∃ p d n c, e = .channel p (.took d n (some (k, c))) := by
  unfold Event.gained at h
  split at h
  · obtain rfl := Option.some.inj h
    exact Or.inl ⟨_, rfl⟩
  · obtain rfl := Option.some.inj h
    exact Or.inr ⟨_, _, _, _, rfl⟩
  · cases h

/-- A worker is started. -/
def Event.isSpawned : Event ι R → Bool
  | .spawned _ _ => true
  | _ => false

/-- The call whose command is served. -/
def Event.served : Event ι R → Option ℕ
  | .svc _ k _ => some k
  | _ => none

/-- The command of `k` is in the node at which `w` waits. -/
def World.Awaits (s : World ι R) (k : ℕ) (w : ι) : Prop :=
  ∃ d n c, (s.taskChannel_.pc w).seat = some (n, .takeHost d) ∧
    s.taskChannel_.chan.nodes n = ⟨some (k, c), .FULL⟩

/-- `w` has come to own the command of `k`: it was started with it, has taken it, or is about to. -/
def Owns (tr : List (Event ι R)) (s : World ι R) (k : ℕ) (w : ι) : Prop :=
  .spawned k w ∈ tr ∨ (∃ d n c, .channel w (.took d n (some (k, c))) ∈ tr) ∨ s.Awaits k w

theorem mem_seen {tr : List (Event ι R)} {p : ι} {e : SynchronousChannel.Event (Ref R)}
    (h : .channel p e ∈ tr) : e ∈ tr.filterMap Event.seen :=
  List.mem_filterMap.mpr ⟨_, h, rfl⟩

theorem exists_of_mem_seen {tr : List (Event ι R)} {e : SynchronousChannel.Event (Ref R)}
    (h : e ∈ tr.filterMap Event.seen) : ∃ p, .channel p e ∈ tr := by
  obtain ⟨e', he', hseen⟩ := List.mem_filterMap.mp h
  cases e' with
  | channel p e'' =>
    obtain rfl : e'' = e := by simpa [Event.seen] using hseen
    exact ⟨p, he'⟩
  | execute | returned | spawned | svc | group => cases hseen

namespace Account

section Owners

variable {tr : List (Event ι R)} {s : World ι R} {stage : ℕ → Stage ι R}
  {life : ℕ → SynchronousChannel.Life (Ref R)} {k d n : ℕ} {c : R} {w w' : ι}

/-- A command that was offered was given to `execute`. -/
theorem execute_mem (h : Account tr s stage) (call : ℕ) (hput : (stage k).put = some (call, c)) :
    .execute k (some c) ∈ tr := by
  rw [h.mem_log rfl]
  cases hL : stage k <;> simp_all [Stage.put, Stage.log]

/-- A worker is started with a command after its put has returned `-1`, and no second one is. -/
theorem of_spawned (h : Account tr s stage) (hw : .spawned k w ∈ tr) :
    ∃ c call n, (stage k).put = some (call, c) ∧ .putFail call n ∈ tr.filterMap Event.seen ∧
      ∀ w', .spawned k w' ∈ tr → w' = w := by
  have htold := h.ended k
  simp only [h.mem_log (e := .spawned k _) rfl] at hw ⊢
  cases hL : stage k with
  | starting p c call n v | started c call n v =>
    rw [hL] at htold hw
    obtain rfl : w = v := by simpa [Stage.log] using hw
    exact ⟨c, call, n, rfl, htold, by simp [Stage.log]⟩
  | unborn | nil | refused | offering | accepted | threw | failing | rejected =>
    simp [hL, Stage.log] at hw

/-- A worker that took a command was handed it by the put of its call. -/
theorem of_took (h : Account tr s stage) (hS : Story (tr.filterMap Event.seen) s.taskChannel_ life)
    (hd : .took d n (some (k, c)) ∈ tr.filterMap Event.seen) :
    ∃ call, (stage k).put = some (call, c) ∧ .offered call n ∈ tr.filterMap Event.seen ∧
      Handed (tr.filterMap Event.seen) s.taskChannel_ call n := by
  obtain ⟨call, hput, hoff, hhand⟩ := hS.handed_of_took hd
  exact ⟨call, (h.puts k c call).mp hput, hoff, hhand⟩

/-- The put of a command that `w` is about to take has returned `0`; nobody has taken it, and nobody else
waits for it. -/
theorem of_awaits (h : Account tr s stage) (hS : Story (tr.filterMap Event.seen) s.taskChannel_ life)
    (hw : s.Awaits k w) : ∃ c call d n, (stage k).put = some (call, c) ∧
      (s.taskChannel_.pc w).seat = some (n, .takeHost d) ∧
      .putRet call n ∈ tr.filterMap Event.seen ∧ (∀ d v, .took d n v ∉ tr.filterMap Event.seen) ∧
      ∀ q d', (s.taskChannel_.pc q).seat = some (n, .takeHost d') → q = w := by
  obtain ⟨d, n, c, hseat, hfull⟩ := hw
  obtain ⟨call, hput, hrest⟩ := hS.handed_of_full hseat hfull
  exact ⟨c, call, d, n, (h.puts k c call).mp hput, hseat, hrest⟩

/-- What was taken of a call was taken once. -/
theorem took_unique (h : Account tr s stage)
    (hS : Story (tr.filterMap Event.seen) s.taskChannel_ life) {d' n' : ℕ} {c' : R}
    (hd : .took d n (some (k, c)) ∈ tr.filterMap Event.seen)
    (hd' : .took d' n' (some (k, c')) ∈ tr.filterMap Event.seen) : d = d' := by
  obtain ⟨call, hput, -, hhand⟩ := h.of_took hS hd
  obtain ⟨call', hput', -, hhand'⟩ := h.of_took hS hd'
  obtain ⟨rfl, rfl⟩ : call = call' ∧ c = c' := by simpa [hput] using hput'
  obtain rfl := hS.handed_inj hhand hhand'
  exact (hS.took_inj hd hd').1

/-- A command with which a worker was started was not taken. -/
theorem not_took_of_spawned (h : Account tr s stage)
    (hS : Story (tr.filterMap Event.seen) s.taskChannel_ life) (hw : .spawned k w ∈ tr) :
    .took d n (some (k, c)) ∉ tr.filterMap Event.seen := by
  intro hd
  obtain ⟨c', call, m, hput, hfail, -⟩ := h.of_spawned hw
  obtain ⟨call', hput', -, hhand⟩ := h.of_took hS hd
  obtain ⟨rfl, rfl⟩ : call = call' ∧ c' = c := by simpa [hput] using hput'
  exact hS.not_failed hhand hfail

/-- **One owner.**  No two workers own the command of one call. -/
theorem owns_unique (h : Account tr s stage)
    (hS : Story (tr.filterMap Event.seen) s.taskChannel_ life) (hw : Owns tr s k w)
    (hw' : Owns tr s k w') : w = w' := by
  -- an awaited command was neither taken nor was a worker started with it
  have hspawned : ∀ {v v'}, .spawned k v ∈ tr → ¬ s.Awaits k v' := by
    intro v v' hv hv'
    obtain ⟨c, call, m, hput, hfail, -⟩ := h.of_spawned hv
    obtain ⟨c', call', d, n, hput', -, hret, -⟩ := h.of_awaits hS hv'
    obtain ⟨rfl, rfl⟩ : call = call' ∧ c = c' := by simpa [hput] using hput'
    exact hS.not_failed (Or.inr (Or.inl hret)) hfail
  have htook : ∀ {d n c v'}, .took d n (some (k, c)) ∈ tr.filterMap Event.seen → ¬ s.Awaits k v' := by
    intro d n c v' hd hv'
    obtain ⟨call, hput, -, hhand⟩ := h.of_took hS hd
    obtain ⟨c', call', d', m, hput', -, hret, hno, -⟩ := h.of_awaits hS hv'
    obtain ⟨rfl, rfl⟩ : call = call' ∧ c = c' := by simpa [hput] using hput'
    obtain rfl := hS.handed_inj hhand (Or.inr (Or.inl hret))
    exact hno _ _ hd
  rcases hw with hw | ⟨d, n, c, hd⟩ | hw <;> rcases hw' with hw' | ⟨d', n', c', hd'⟩ | hw'
  · obtain ⟨-, -, -, -, -, honly⟩ := h.of_spawned hw'
    exact honly w hw
  · exact absurd (mem_seen hd') (h.not_took_of_spawned hS hw)
  · exact absurd hw' (hspawned hw)
  · exact absurd (mem_seen hd) (h.not_took_of_spawned hS hw')
  · have honce := hS.calls.once
    rw [List.filterMap_filterMap] at honce
    obtain rfl := h.took_unique hS (mem_seen hd) (mem_seen hd')
    cases eq_of_nodup_filterMap honce hd hd' (c := d) rfl rfl
    rfl
  · exact absurd hw' (htook (mem_seen hd))
  · exact absurd hw (hspawned hw')
  · exact absurd hw (htook (mem_seen hd'))
  · obtain ⟨c, call, d, n, hput, hseat, hret, -⟩ := h.of_awaits hS hw
    obtain ⟨c', call', d', n', hput', -, hret', -, honly⟩ := h.of_awaits hS hw'
    obtain ⟨rfl, rfl⟩ : call = call' ∧ c = c' := by simpa [hput] using hput'
    obtain rfl := hS.handed_inj (Or.inr (Or.inl hret)) (Or.inr (Or.inl hret'))
    exact honly w d hseat

/-- **One gain.**  The command of one call is gained once. -/
theorem gained_nodup (h : Account tr s stage)
    (hS : Story (tr.filterMap Event.seen) s.taskChannel_ life) : (tr.filterMap Event.gained).Nodup := by
  refine List.pairwise_filterMap.mpr (List.pairwise_iff_forall_sublist.mpr ?_)
  rintro e e' hsub j hj j' hj' rfl
  have he : e ∈ tr := hsub.subset (by simp)
  have he' : e' ∈ tr := hsub.subset (by simp)
  rcases Event.of_gained hj with ⟨w, rfl⟩ | ⟨p, d, n, c, rfl⟩ <;>
    rcases Event.of_gained hj' with ⟨w', rfl⟩ | ⟨p', d', n', c', rfl⟩
  · -- the log of a stage starts one worker
    have hlog : List.Sublist [.spawned j w, .spawned j w'] ((stage j).log j) := by
      rw [← h.logs]
      simpa [ofCall, Event.call] using hsub.filter fun e => e.call = some j
    have hle := hlog.countP_le (p := Event.isSpawned)
    cases hL : stage j <;> simp [hL, Stage.log, List.countP_cons, Event.isSpawned] at hle
  · exact h.not_took_of_spawned hS he (mem_seen he')
  · exact h.not_took_of_spawned hS he' (mem_seen he)
  · -- a take ends once
    have honce := hS.calls.once
    rw [List.filterMap_filterMap] at honce
    have hds := (hsub.filterMap fun e => e.seen.bind SynchronousChannel.Event.ends).nodup honce
    simp [Event.seen, SynchronousChannel.Event.ends, h.took_unique hS (mem_seen he) (mem_seen he')] at hds

/-! ## Results -/

/-- A command was accepted by a worker that polled, or a worker was started with it. -/
theorem of_returned_zero (h : Account tr s stage) (hex : .execute k (some c) ∈ tr)
    (hret : .returned k 0 ∈ tr) :
    (∃ call n, (stage k).put = some (call, c) ∧ .putRet call n ∈ tr.filterMap Event.seen) ∨
      ∃ w, .spawned k w ∈ tr := by
  have htold := h.ended k
  simp only [h.mem_log (e := .spawned k _) rfl]
  rw [h.mem_log rfl] at hex hret
  cases hL : stage k with
  | accepted c' call n =>
    rw [hL] at htold hex
    obtain rfl : c = c' := by simpa [Stage.log] using hex
    exact Or.inl ⟨call, n, rfl, htold⟩
  | starting p c' call n w | started c' call n w => exact Or.inr ⟨w, by simp [Stage.log]⟩
  | unborn | nil | refused | offering | threw | failing | rejected =>
    simp [hL, Stage.log] at hex hret

/-- A command was not offered, or its offer failed, and no worker was started with it. -/
theorem of_returned_neg (h : Account tr s stage) (hret : .returned k (-1) ∈ tr) :
    (∀ w, .spawned k w ∉ tr) ∧ ∀ call c, (stage k).put = some (call, c) →
      (∃ n, .putFail call n ∈ tr.filterMap Event.seen) ∨
        ∃ at_ e, .putThrew call at_ e ∈ tr.filterMap Event.seen := by
  have htold := h.ended k
  simp only [h.mem_log (e := .spawned k _) rfl]
  rw [h.mem_log rfl] at hret
  cases hL : stage k with
  | refused => exact ⟨by simp [Stage.log], nofun⟩
  | threw c call at_ e =>
    rw [hL] at htold
    refine ⟨by simp [Stage.log], ?_⟩
    rintro call' c' ⟨⟩
    exact Or.inr ⟨at_, e, htold⟩
  | rejected c call n =>
    rw [hL] at htold
    refine ⟨by simp [Stage.log], ?_⟩
    rintro call' c' ⟨⟩
    exact Or.inl ⟨n, htold⟩
  | unborn | nil | offering | accepted | failing | starting | started => simp [hL, Stage.log] at hret

/-- Where the puts and takes are matched, a command for which `execute` returned `0` has an owner. -/
theorem exists_owns (h : Account tr s stage)
    (hM : SynchronousChannel.Matched (tr.filterMap Event.seen) s.taskChannel_)
    (hex : .execute k (some c) ∈ tr) (hret : .returned k 0 ∈ tr) : ∃ w, Owns tr s k w := by
  rcases h.of_returned_zero hex hret with ⟨call, n, hput, hputRet⟩ | ⟨w, hw⟩
  · obtain ⟨d, v, hv, hown⟩ := hM.took_of_put n call hputRet
    obtain rfl := hM.items call v (some (k, c)) hv ((h.puts k c call).mpr hput)
    rcases hown with hd | ⟨⟨w, hseat⟩, hfull⟩
    · obtain ⟨w, hw⟩ := exists_of_mem_seen hd
      exact ⟨w, Or.inr (Or.inl ⟨d, n, c, hw⟩)⟩
    · exact ⟨w, Or.inr (Or.inr ⟨d, n, c, hseat, hfull⟩)⟩
  · exact ⟨w, Or.inl hw⟩

/-- Where an item is taken from no put that failed, a command for which `execute` returned `-1` has none. -/
theorem not_owns (h : Account tr s stage) (hS : Story (tr.filterMap Event.seen) s.taskChannel_ life)
    (hH : ∀ c n d v, ((∃ m, .putFail c m ∈ tr.filterMap Event.seen) ∨
      ∃ m e, .putThrew c m e ∈ tr.filterMap Event.seen) → .offered c n ∈ tr.filterMap Event.seen →
      .took d n v ∉ tr.filterMap Event.seen)
    (hret : .returned k (-1) ∈ tr) : ¬ Owns tr s k w := by
  obtain ⟨hno, hfail⟩ := h.of_returned_neg hret
  rintro (hw | ⟨d, n, c, hd⟩ | hw)
  · exact hno w hw
  · obtain ⟨call, hput, hoff, -⟩ := h.of_took hS (mem_seen hd)
    exact hH call n d _ (hfail call c hput) hoff (mem_seen hd)
  · obtain ⟨c, call, d, n, hput, -, hputRet, -⟩ := h.of_awaits hS hw
    rcases hfail call c hput with ⟨m, hm⟩ | ⟨at_, e, hm⟩ <;>
      cases hS.calls.eq_of_ends hputRet hm rfl rfl

end Owners

end Account

/-! ## Serving -/

/-- Who is going to serve which command. -/
structure Holding (tr : List (Event ι R)) (s : World ι R) : Prop where
  inj : ∀ w w' k c c', (s.pc w).command = some (k, c) → (s.pc w').command = some (k, c') → w = w'
  gained : ∀ w k c, (s.pc w).command = some (k, c) → k ∈ tr.filterMap Event.gained
  fresh : ∀ w k c, (s.pc w).command = some (k, c) → k ∉ tr.filterMap Event.served
  brought : ∀ w k c, (s.pc w).command = some (k, c) → .execute k (some c) ∈ tr
  served : ∀ k ∈ tr.filterMap Event.served, k ∈ tr.filterMap Event.gained
  once : (tr.filterMap Event.served).Nodup
  command : ∀ w k c, .svc w k c ∈ tr → .execute k (some c) ∈ tr

namespace Holding

variable {tr es : List (Event ι R)} {s s' : World ι R}

theorem new [DecidableEq ι] :
    Holding [] (machine : Machine (World ι R) (Act ι R) (Event ι R)).init where
  inj _ _ _ _ _ h := by cases h
  gained _ _ _ h := by cases h
  fresh _ _ _ h := by cases h
  brought _ _ _ h := by cases h
  served := nofun
  once := List.nodup_nil
  command := nofun

theorem not_svc (hes : es.filterMap Event.served = []) {w : ι} {k : ℕ} {c : R} :
    .svc w k c ∉ es := by
  intro h
  have := List.filterMap_eq_nil_iff.mp hes _ h
  cases this

/-- Nobody gets a command. -/
theorem keep (h : Holding tr s) (hes : es.filterMap Event.served = [])
    (hpc : ∀ q x, (s'.pc q).command = some x → (s.pc q).command = some x) : Holding (tr ++ es) s' where
  inj w w' k c c' hw hw' := h.inj w w' k c c' (hpc w _ hw) (hpc w' _ hw')
  gained w k c hw := by
    rw [List.filterMap_append]
    exact List.mem_append_left _ (h.gained w k c (hpc w _ hw))
  fresh w k c hw := by
    rw [List.filterMap_append, hes, List.append_nil]
    exact h.fresh w k c (hpc w _ hw)
  brought w k c hw := List.mem_append_left _ (h.brought w k c (hpc w _ hw))
  served k hk := by
    rw [List.filterMap_append, hes, List.append_nil] at hk
    rw [List.filterMap_append]
    exact List.mem_append_left _ (h.served k hk)
  once := by
    rw [List.filterMap_append, hes, List.append_nil]
    exact h.once
  command w k c hw :=
    List.mem_append_left _ (h.command w k c ((List.mem_append.mp hw).resolve_right (not_svc hes)))

/-- The worker `p` gets a command. -/
theorem gain (h : Holding tr s) {p : ι} {k : ℕ} {c : R} (hes : es.filterMap Event.served = [])
    (hp : (s'.pc p).command = some (k, c))
    (hpc : ∀ q x, q ≠ p → (s'.pc q).command = some x → (s.pc q).command = some x)
    (hk : k ∈ es.filterMap Event.gained) (hnodup : ((tr ++ es).filterMap Event.gained).Nodup)
    (hex : .execute k (some c) ∈ tr ++ es) : Holding (tr ++ es) s' := by
  rw [List.filterMap_append] at hnodup
  have hnew : k ∉ tr.filterMap Event.gained := fun hk' => List.disjoint_of_nodup_append hnodup hk' hk
  -- a command that somebody held before is another one
  have hold : ∀ q j c', (s'.pc q).command = some (j, c') →
      (q = p ∧ j = k ∧ c' = c) ∨ (q ≠ p ∧ j ≠ k ∧ (s.pc q).command = some (j, c')) := by
    intro q j c' hq
    by_cases hqp : q = p
    · subst hqp
      obtain ⟨rfl, rfl⟩ : k = j ∧ c = c' := by simpa [hp] using hq
      exact Or.inl ⟨rfl, rfl, rfl⟩
    · refine Or.inr ⟨hqp, ?_, hpc q _ hqp hq⟩
      rintro rfl
      exact hnew (h.gained q _ c' (hpc q _ hqp hq))
  refine ⟨?_, ?_, ?_, ?_, ?_, ?_, ?_⟩
  · intro w w' j c1 c2 hw hw'
    rcases hold w j c1 hw with ⟨rfl, rfl, -⟩ | ⟨-, hne, hw⟩ <;>
      rcases hold w' j c2 hw' with ⟨rfl, hj, -⟩ | ⟨-, hne', hw'⟩
    · rfl
    · exact absurd rfl hne'
    · exact absurd hj hne
    · exact h.inj w w' j c1 c2 hw hw'
  · intro w j c' hw
    rw [List.filterMap_append]
    rcases hold w j c' hw with ⟨-, rfl, -⟩ | ⟨-, -, hw⟩
    · exact List.mem_append_right _ hk
    · exact List.mem_append_left _ (h.gained w j c' hw)
  · intro w j c' hw
    rw [List.filterMap_append, hes, List.append_nil]
    rcases hold w j c' hw with ⟨-, rfl, -⟩ | ⟨-, -, hw⟩
    · exact fun hj => hnew (h.served j hj)
    · exact h.fresh w j c' hw
  · intro w j c' hw
    rcases hold w j c' hw with ⟨-, rfl, rfl⟩ | ⟨-, -, hw⟩
    · exact hex
    · exact List.mem_append_left _ (h.brought w j c' hw)
  · intro j hj
    rw [List.filterMap_append, hes, List.append_nil] at hj
    rw [List.filterMap_append]
    exact List.mem_append_left _ (h.served j hj)
  · rw [List.filterMap_append, hes, List.append_nil]
    exact h.once
  · intro w j c' hw
    exact List.mem_append_left _
      (h.command w j c' ((List.mem_append.mp hw).resolve_right (not_svc hes)))

/-- The worker `p` serves its command. -/
theorem serve (h : Holding tr s) {p : ι} {k : ℕ} {c : R} (hp : (s.pc p).command = some (k, c))
    (hp' : (s'.pc p).command = none) (hpc : ∀ q, q ≠ p → s'.pc q = s.pc q) :
    Holding (tr ++ [.svc p k c]) s' := by
  have hold : ∀ q x, (s'.pc q).command = some x → q ≠ p ∧ (s.pc q).command = some x := by
    intro q x hq
    have hqp : q ≠ p := by
      rintro rfl
      rw [hp'] at hq
      cases hq
    rw [hpc q hqp] at hq
    exact ⟨hqp, hq⟩
  have hserved : (tr ++ [Event.svc p k c]).filterMap Event.served = tr.filterMap Event.served ++ [k] := by
    simp [Event.served]
  have hgained : (tr ++ [Event.svc p k c]).filterMap Event.gained = tr.filterMap Event.gained := by
    simp [Event.gained]
  refine ⟨?_, ?_, ?_, ?_, ?_, ?_, ?_⟩
  · exact fun w w' j c1 c2 hw hw' => h.inj w w' j c1 c2 (hold w _ hw).2 (hold w' _ hw').2
  · intro w j c' hw
    rw [hgained]
    exact h.gained w j c' (hold w _ hw).2
  · intro w j c' hw hj
    obtain ⟨hwp, hw⟩ := hold w _ hw
    rw [hserved] at hj
    rcases List.mem_append.mp hj with hj | hj
    · exact h.fresh w j c' hw hj
    · obtain rfl := List.mem_singleton.mp hj
      exact hwp (h.inj w p _ c' c hw hp)
  · exact fun w j c' hw => List.mem_append_left _ (h.brought w j c' (hold w _ hw).2)
  · intro j hj
    rw [hserved] at hj
    rw [hgained]
    rcases List.mem_append.mp hj with hj | hj
    · exact h.served j hj
    · obtain rfl := List.mem_singleton.mp hj
      exact h.gained p _ c hp
  · rw [hserved, List.nodup_append]
    refine ⟨h.once, List.nodup_singleton k, ?_⟩
    intro a ha b hb
    obtain rfl := List.mem_singleton.mp hb
    rintro rfl
    exact h.fresh p _ c hp ha
  · intro w j c' hw
    refine List.mem_append_left _ ?_
    rcases List.mem_append.mp hw with hw | hw
    · exact h.command w j c' hw
    · obtain ⟨rfl, rfl, rfl⟩ : w = p ∧ j = k ∧ c' = c := by simpa using hw
      exact h.brought w j c' hp

end Holding

section Steps

variable [DecidableEq ι] {tr es : List (Event ι R)} {s s' : World ι R} {stage stage' : ℕ → Stage ι R}
  {life : ℕ → SynchronousChannel.Life (Ref R)}

omit [DecidableEq ι] in
@[simp] theorem served_told (p : ι) (ds : List (SynchronousChannel.Event (Ref R))) :
    (told p ds).filterMap Event.served = [] := by
  simp [told, List.filterMap_map, Function.comp_def, Event.served]

/-- Where one thread moves and gets no command, nobody does. -/
theorem command_update {p : ι} {x : Pc R} (hpc : s'.pc = Function.update s.pc p x)
    (hx : x.command = none ∨ x.command = (s.pc p).command) (q : ι) (y : ℕ × R)
    (hq : (s'.pc q).command = some y) : (s.pc q).command = some y := by
  rw [hpc] at hq
  by_cases hqp : q = p
  · subst hqp
    rw [Function.update_self] at hq
    rcases hx with hx | hx <;> rw [hx] at hq
    · cases hq
    · exact hq
  · rwa [Function.update_of_ne hqp] at hq

/-- Every move goes on with the holding. -/
theorem Move.holding {a : Act ι R} (hm : Move s s' a es) (h : Holding tr s) (hA : Account tr s stage)
    (hA' : Account (tr ++ es) s' stage')
    (hS : Story ((tr ++ es).filterMap Event.seen) s'.taskChannel_ life) : Holding (tr ++ es) s' := by
  have hnodup := hA'.gained_nodup hS
  cases hm with
  | refuse _ _ hpc => exact h.keep rfl fun q x hq => by rwa [hpc] at hq
  | offer _ hpc =>
    refine h.keep ?_ (command_update hpc (Or.inl rfl))
    rw [List.filterMap_cons_none rfl, served_told]
  | @offerOn p _ k c a ds x hp _ _ hx hpc =>
    have hfound : x.1.command = none ∧ x.2.filterMap Event.served = [] := by
      cases hf : ds.findSome? (offerEnds (ι := ι) k c) with
      | none => rw [hx, hf]; exact ⟨rfl, rfl⟩
      | some y =>
        obtain ⟨e, -, he⟩ := List.exists_of_findSome?_eq_some hf
        obtain rfl : x = y := by rw [hx, hf]; rfl
        cases e <;> simp only [offerEnds, Option.some.injEq, reduceCtorEq] at he <;> rw [← he] <;>
          exact ⟨rfl, rfl⟩
    refine h.keep ?_ (command_update hpc (Or.inl hfound.1))
    rw [List.filterMap_append, served_told, hfound.2, List.append_nil]
  | @pollOn p _ a ds hp _ _ hpc =>
    cases hf : ds.findSome? pollEnds with
    | none =>
      rw [hf] at hpc
      exact h.keep (served_told p ds) (command_update hpc (Or.inl rfl))
    | some y =>
      rw [hf] at hpc
      obtain ⟨e, he, hy⟩ := List.exists_of_findSome?_eq_some hf
      cases e with
      | took d n command =>
        obtain rfl : .dispatch command = y := by simpa [pollEnds] using hy
        cases command with
        | none => exact h.keep (served_told p ds) (command_update hpc (Or.inl rfl))
        | some kc =>
          obtain ⟨k, c⟩ := kc
          have hmem : .channel p (.took d n (some (k, c))) ∈ told p ds := List.mem_map_of_mem he
          obtain ⟨call, hput, -⟩ := hA'.of_took hS (mem_seen (List.mem_append_right tr hmem))
          refine h.gain (p := p) (k := k) (c := c) (served_told p ds) ?_ ?_ ?_ hnodup
            (hA'.execute_mem call hput)
          · rw [hpc, Option.getD_some, Function.update_self]
            rfl
          · intro q x hq hx
            rwa [hpc, Function.update_of_ne hq] at hx
          · exact List.mem_filterMap.mpr ⟨_, hmem, rfl⟩
      | takeThrew d at_ e =>
        obtain rfl : .leaving = y := by simpa [pollEnds] using hy
        exact h.keep (served_told p ds) (command_update hpc (Or.inl rfl))
      | put | take | offered | joined | putRet | putFail | putThrew => cases hy
  | handOff _ hpc | reject _ hpc | acquire _ hpc =>
    exact h.keep rfl (command_update hpc (Or.inl rfl))
  | @spawn _ p w k c tp hp hw hpc =>
    have hwp : w ≠ p := by
      rintro rfl
      rw [hp] at hw
      cases hw
    obtain ⟨call, n, hL⟩ := Stage.of_handOff (Or.inr (hp ▸ hA.seated p k (by rw [hp]; rfl)))
    have hex := hA.execute_mem (k := k) (c := c) call (by rw [hL]; rfl)
    refine h.gain (p := w) (k := k) (c := c) rfl ?_ ?_ (by simp [Event.gained]) hnodup
      (List.mem_append_left _ hex)
    · rw [hpc, Function.update_of_ne hwp, Function.update_self]
      rfl
    · intro q x hq hx
      rw [hpc] at hx
      by_cases hqp : q = p
      · rw [hqp, Function.update_self] at hx
        cases hx
      · rwa [Function.update_of_ne hqp, Function.update_of_ne hq] at hx
  | start hp hpc =>
    refine h.keep rfl (command_update hpc (Or.inr ?_))
    rw [hp, WorkerTask.run_command]
  | poll _ hpc => exact h.keep (served_told _ _) (command_update hpc (Or.inl rfl))
  | @serve _ p k c hp hpc =>
    refine h.serve (by rw [hp]; rfl) (by rw [hpc, Function.update_self]; rfl) fun q hq => ?_
    rw [hpc, Function.update_of_ne hq]
  | interrupt _ hpc => exact h.keep (served_told _ _) (command_update hpc (Or.inl rfl))
  | quiet hpc _ _ hes =>
    refine h.keep (by rcases hes with rfl | ⟨p, r, rfl⟩ <;> rfl) fun q x hq => ?_
    rcases hpc q with hsame | ⟨-, -, hno⟩
    · rwa [hsame] at hq
    · rw [hno] at hq
      cases hq

variable {π : List (Taken (World ι R) (Act ι R) (Event ι R))}

/-- The story of the channel, which is good unless the executor is closed. -/
theorem run_story (hr : Run machine π s) :
    ∃ life, Story ((events π).filterMap Event.seen) s.taskChannel_ life ∧
      (Meets (fun _ a => a.noClose) π →
        (∀ n, (life n).Good) ∧ s.taskChannel_.chan.interrupted_ = false) := by
  obtain ⟨ρ, hρ, hev, hopen⟩ := run_channel hr
  obtain ⟨life, h, hgood⟩ := SynchronousChannel.run_story hρ
  refine ⟨life, hev ▸ h, fun hC => ⟨?_, SynchronousChannel.run_not_interrupted hρ (hopen hC)⟩⟩
  exact hgood.mpr (SynchronousChannel.run_fair hρ (hopen hC))

/-- A worker that waits for a command takes it, however its poll goes on. -/
theorem lands_of_awaits {k : ℕ} {w : ι} {r : Option WaitResult} (hw : s.Awaits k w)
    (hi : s.taskChannel_.chan.interrupted_ = false) (hs : step s (.channel w r) = some (s', es)) :
    ∃ d n c, .channel w (.took d n (some (k, c))) ∈ es := by
  obtain ⟨d, n, c, hseat, hfull⟩ := hw
  have hchannel : ∀ {a : SynchronousChannel.Act ι (Ref R)}, a.sectionOf w →
      channel s w a = some (s', es) → ∃ x, es = told w [.took d n (some (k, c))] ++ x := by
    intro a ha hs
    unfold channel at hs
    split at hs
    · simp only [Option.map_eq_some_iff, Prod.mk.injEq] at hs
      obtain ⟨⟨ch, ds⟩, hstep, rfl, rfl⟩ := hs
      exact ⟨_, by rw [SynchronousChannel.step_full hseat hfull hi ha hstep]⟩
    · simp only [Option.map_eq_some_iff, Prod.mk.injEq] at hs
      obtain ⟨⟨ch, ds⟩, hstep, rfl, rfl⟩ := hs
      exact ⟨[], by rw [SynchronousChannel.step_full hseat hfull hi ha hstep, List.append_nil]⟩
    · cases hs
  obtain ⟨x, rfl⟩ : ∃ x, es = told w [.took d n (some (k, c))] ++ x := by
    cases r with
    | none => exact hchannel (Or.inl rfl) hs
    | some r => exact hchannel (Or.inr ⟨r, rfl⟩) hs
  exact ⟨d, n, c, by simp [told]⟩

/-- In every run a command is held, and then served, by one worker at most. -/
theorem run_holding (hr : Run machine π s) : Holding (events π) s := by
  induction hr with
  | start => exact Holding.new
  | @snoc π s s' a es hr hstep ih =>
    obtain ⟨stage, hA⟩ := run_account hr
    obtain ⟨stage', hA'⟩ := run_account (hr.snoc hstep)
    obtain ⟨life, hS, -⟩ := run_story (hr.snoc hstep)
    rw [events_snoc] at hA' hS ⊢
    exact (step_move hstep).holding ih hA hA' hS

/-- A command is gained and served at most once, and it is the command of its call. -/
structure AtMostOnce (tr : List (Event ι R)) : Prop where
  gained : (tr.filterMap Event.gained).Nodup
  served : (tr.filterMap Event.served).Nodup
  command : ∀ w k c, .svc w k c ∈ tr → .execute k (some c) ∈ tr

/-- What `execute` returns says whether its command has come to a worker. -/
structure HandedOver (tr : List (Event ι R)) (s : World ι R) : Prop where
  accepted : ∀ k c, .execute k (some c) ∈ tr → .returned k 0 ∈ tr → ∃! w, Owns tr s k w
  refused : ∀ k c, .execute k (some c) ∈ tr → .returned k (-1) ∈ tr → ∀ w, ¬ Owns tr s k w
  /-- a worker that is about to take a command does so in its next section -/
  lands : ∀ k w, s.Awaits k w → ∀ r s' es, step s (.channel w r) = some (s', es) →
    ∃ d n c, .channel w (.took d n (some (k, c))) ∈ es

/-- **Execution.**  In every run the command of an `execute` is served at most once.  While nobody calls
`module_closed()`, one worker comes to own it if `execute` returns `0`, and none if it returns `-1`. -/
theorem execute_owner (hr : Run machine π s) : AtMostOnce (events π) ∧
    (Meets (fun _ a => a.noClose) π → HandedOver (events π) s) := by
  obtain ⟨stage, hA⟩ := run_account hr
  obtain ⟨life, hS, hopen⟩ := run_story hr
  have hH := run_holding hr
  refine ⟨⟨hA.gained_nodup hS, hH.once, hH.command⟩, fun hC => ?_⟩
  obtain ⟨hgood, hi⟩ := hopen hC
  refine ⟨?_, ?_, fun k w hw r s' es hs => lands_of_awaits hw hi hs⟩
  · intro k c hex hret
    obtain ⟨w, hw⟩ := hA.exists_owns (hS.matched hgood) hex hret
    exact ⟨w, hw, fun w' hw' => hA.owns_unique hS hw' hw⟩
  · intro k c _ hret w
    exact hA.not_owns hS (hS.honoured hgood).failed hret

/-- Nobody polls, so the first command starts a worker; the second one goes to it when it polls. -/
theorem execute_owner_two :
    ∃ (π : _) (s : World (Fin 2) ℕ), Run machine π s ∧ .svc 1 0 7 ∈ events π ∧
      .svc 1 1 8 ∈ events π ∧ AtMostOnce (events π) ∧ HandedOver (events π) s := by
  obtain ⟨π, s, hr, hp⟩ := exists_run_of_replay (M := machine)
    (p := fun π _ => decide ((.svc 1 0 7 : Event (Fin 2) ℕ) ∈ events π ∧
      (.svc 1 1 8 : Event (Fin 2) ℕ) ∈ events π ∧
      Meets (fun _ (a : Act (Fin 2) ℕ) => a.noClose) π))
    [.execute (0 : Fin 2) (some 7) false, .channel 0 none, .channel 0 none, .channel 0 none,
      .channel 0 (some .timedOut), .run 0 false, .lock 0 false [1], .run 1 false, .run 0 false,
      .run 1 false, .run 1 false, .run 1 false, .channel 1 none, .channel 1 none, .channel 1 none,
      .execute 0 (some 8) false, .channel 0 none, .channel 0 none, .channel 0 none,
      .channel 1 (some .woken), .run 1 false] (by decide)
  obtain ⟨hfirst, hsecond, hC⟩ := of_decide_eq_true hp
  obtain ⟨honce, hover⟩ := execute_owner hr
  exact ⟨π, s, hr, hfirst, hsecond, honce, hover hC⟩

end Steps

end Lasagne.Daf.TaskExecutor
