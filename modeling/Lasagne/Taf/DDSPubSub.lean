import Lasagne.Trans.Registry
import Lasagne.Daf.FormatArgs
import Lasagne.Wire.Format

/-!
# Lasagne.Taf.DDSPubSub — participants, types and topics

A participant is found by its domain in the participant factory, and a type or a topic by a hash in the
factories of its participant.  A topic has a reference to its participant and its type, a type to its
participant.  The factories and the reference counts are those of `Registry`; threads interleave their calls and
the removals in any way.

* `handle_live` : a handle, and all that what it is for needs, is live;
* `factories_empty` : the factories of a participant are empty when it goes;
* `dangling_removing` : a request comes upon a holder without references only while it is being removed;
* `released_all` : nothing is left behind;
* `given_holder` : what a request gets, up to the hash.
-/

namespace Lasagne.Taf.DDSPubSub

open Lasagne.Daf Lasagne.Trans Lasagne.Wire

/-! ## The model -/

/-- The keys of the factories: a participant's factories are told apart by the participant. -/
inductive HolderKey
  | domain (domain_id : Int)
  | topic (participant : ℕ) (topic_key : ℕ)
  | type (participant : ℕ) (type_key : ℕ)
deriving DecidableEq

/-- What a holder is made for. -/
inductive Entity
  | participant (domain_id : Int)
  | topic (participant : ℕ) (topic_name type_name : Text) (domain_id : Int)
  | type (participant : ℕ) (type_name : Text) (domain_id : Int)
deriving DecidableEq

abbrev Factories := Registry HolderKey Entity

/-- The participant that a factory belongs to. -/
def owner : HolderKey → Option ℕ
  | .domain _ => none
  | .topic participant _ | .type participant _ => some participant

/-- The text that is hashed for a type. -/
def typeText (type_name : Text) (domain_id : Int) : Text := type_name ++ '|' :: printInt none domain_id

/-- The text that is hashed for a topic. -/
def topicText (topic_name type_name : Text) (domain_id : Int) : Text := topic_name ++ '|' :: typeText type_name domain_id

/-- `ace_range(0, 230, dcps_domain) == dcps_domain`. -/
def is_valid_dcps_domain (dcps_domain : Int) : Bool := max 0 (min 230 dcps_domain) == dcps_domain

section Model

variable (hash_pjw : Text → ℕ)

def keyOf : Entity → HolderKey
  | .participant domain_id => .domain domain_id
  | .topic participant topic_name type_name domain_id =>
    .topic participant (hash_pjw (topicText topic_name type_name domain_id))
  | .type participant type_name domain_id => .type participant (hash_pjw (typeText type_name domain_id))

/-- `get_domain_id` of the participant behind a handle. -/
def domainId (s : Factories) (participant : ℕ) : Option Int :=
  match (s.holders[participant]?).map Holder.info with
  | some (.participant domain_id) => some domain_id
  | _ => none

/-- `getTypename` of the type behind a handle. -/
def typename (s : Factories) (type : ℕ) : Option Text :=
  match (s.holders[type]?).map Holder.info with
  | some (.type _ type_name _) => some type_name
  | _ => none

/-- The calls of the clients, and the two steps of a removal that the last release starts: `__remove` takes the
holder out of its factory, and its destructor gives back its references.  The entity may be refused by the DDS
implementation. -/
inductive Call
  | create_participant (domain_id : Int) (created : Bool)
  | register_type (participant : ℕ) (type_name : Text)
  | create_topic (participant type : ℕ) (topic_name : Text) (created : Bool)
  | duplicate (handle : ℕ)
  | release (handle : ℕ)
  | remove_holder (holder : ℕ)
  | destroy (holder : ℕ)
deriving DecidableEq

/-- What a call comes to: `IllegalArgumentException`, or a step of the factories. -/
inductive Effect
  | illegalArgument
  | acts (act : Registry.Action HolderKey Entity)

/-- The effect of a call, where its handles are for a participant and a type. -/
def effect (s : Factories) : Call → Option Effect
  | .create_participant domain_id created =>
    if is_valid_dcps_domain domain_id then
      some (.acts (.request (keyOf hash_pjw (.participant domain_id)) (.participant domain_id) [] created))
    else some .illegalArgument
  | .register_type participant type_name =>
    (domainId s participant).map fun domain_id =>
      let entity := .type participant type_name domain_id
      .acts (.request (keyOf hash_pjw entity) entity [participant] true)
  | .create_topic participant type topic_name created =>
    if topic_name = [] then some .illegalArgument
    else
      (domainId s participant).bind fun domain_id => (typename s type).map fun type_name =>
        let entity := .topic participant topic_name type_name domain_id
        -- the destructor gives the type back before the participant
        .acts (.request (keyOf hash_pjw entity) entity [type, participant] created)
  | .duplicate handle => some (.acts (.copy handle))
  | .release handle => some (.acts (.release handle))
  | .remove_holder holder => some (.acts (.unmap holder))
  | .destroy holder => some (.acts (.drop holder))

/-- What the clients see: the exception, or what the factories did. -/
inductive Result
  | illegalArgument
  | done (event : Registry.Event HolderKey Entity)
deriving DecidableEq

def Result.event : Result → Option (Registry.Event HolderKey Entity)
  | .illegalArgument => none
  | .done event => some event

def step (s : Factories) (call : Call) : Option (Factories × List Result) :=
  match effect hash_pjw s call with
  | none => none
  | some .illegalArgument => some (s, [.illegalArgument])
  | some (.acts act) => (Registry.step owner s act).map fun next => (next.1, next.2.map .done)

def dds : Machine Factories Call Result := ⟨Registry.empty, step hash_pjw⟩

end Model

/-- A participant with a type and a topic. -/
def topicCalls : List Call :=
  [.create_participant 7 true, .register_type 0 "T".toList, .create_topic 0 1 "n".toList true]

/-! ## The factories -/

variable {hash_pjw : Text → ℕ} {s : Factories} {π : List (Taken Factories Call Result)}

theorem effect_keyed {call : Call} {act : Registry.Action HolderKey Entity}
    (h : effect hash_pjw s call = some (.acts act)) : Registry.Keyed (keyOf hash_pjw) act := by
  cases call with
  | create_participant domain_id created =>
    simp only [effect] at h
    split at h
    · cases h; rfl
    · cases h
  | register_type participant type_name =>
    obtain ⟨domain_id, -, h⟩ := Option.map_eq_some_iff.mp h
    cases h
    rfl
  | create_topic participant type topic_name created =>
    simp only [effect] at h
    split at h
    · cases h
    · obtain ⟨domain_id, -, h⟩ := Option.bind_eq_some_iff.mp h
      obtain ⟨type_name, -, h⟩ := Option.map_eq_some_iff.mp h
      cases h
      rfl
  | duplicate handle | release handle | remove_holder holder | destroy holder =>
    cases h
    trivial

/-- The calls are a run of the factories. -/
theorem registry_run (hr : Run (dds hash_pjw) π s) :
    ∃ ρ, Run (Registry.machine owner) ρ s ∧ events ρ = (events π).filterMap Result.event ∧
      Meets (fun _ a => Registry.Keyed (keyOf hash_pjw) a) ρ := by
  have hsteps : ∀ s call s' es, (dds hash_pjw).step s call = some (s', es) →
      (s' = s ∧ es.filterMap Result.event = []) ∨ ∃ act, Registry.step owner s act = some (s', es.filterMap Result.event) ∧
        (True → Registry.Keyed (keyOf hash_pjw) act) := by
    intro s call s' es hstep
    change step hash_pjw s call = some (s', es) at hstep
    unfold step at hstep
    split at hstep
    · cases hstep
    · cases hstep
      exact .inl ⟨rfl, rfl⟩
    · next act heffect =>
      obtain ⟨⟨t, fs⟩, hact, hnext⟩ := Option.map_eq_some_iff.mp hstep
      cases hnext
      refine .inr ⟨act, ?_, fun _ => effect_keyed heffect⟩
      have hfs : (fs.map Result.done).filterMap Result.event = fs := by
        simp [List.filterMap_map, Function.comp_def, Result.event]
      rw [hfs]
      exact hact
  obtain ⟨ρ, hρ, hev, hmeets⟩ := Run.project (M := dds hash_pjw)
    (N := Registry.machine owner) (f := id) (g := Result.event) (C := fun _ _ => True)
    (D := fun _ a => Registry.Keyed (keyOf hash_pjw) a) rfl hsteps hr
  exact ⟨ρ, hρ, hev, hmeets fun _ _ => trivial⟩

theorem inv_reached (hr : Run (dds hash_pjw) π s) : Registry.Inv owner s := by
  obtain ⟨ρ, hρ, -, -⟩ := registry_run hr
  exact Registry.inv_of_run hρ

/-- In every state that is reached a handle is for a holder that its factory finds, that counts just the handles
and the holders that refer to it, and whose participant and type are live as well. -/
theorem handle_live (hr : Run (dds hash_pjw) π s) {h : ℕ} (hh : 0 < s.handles h) :
    ∃ x, s.holders[h]? = some x ∧ x.stage = .live ∧ s.table x.key = some h ∧
      x.count = s.handles h + (s.holders.map fun y => y.held.count h).sum ∧
      ∀ d ∈ x.deps, ∃ y, s.holders[d]? = some y ∧ y.stage = .live := by
  have hs := inv_reached hr
  obtain ⟨x, hx, hpos, htable⟩ := hs.referenced (.inl hh)
  have hlive := (hs.live h x hx).mpr hpos
  refine ⟨x, hx, hlive, htable, hs.counted h x hx, fun d hd => ?_⟩
  obtain ⟨y, hy, hypos, -⟩ := hs.referenced (.inr ⟨h, x, hx, by rwa [Holder.held_of_live hlive]⟩)
  exact ⟨y, hy, (hs.live d y hy).mpr hypos⟩

theorem handle_live_topicCalls : ∃ π s, Run (dds List.length) π s ∧
    ∃ x, s.holders[2]? = some x ∧ x.stage = .live ∧ s.table x.key = some 2 ∧
      x.count = s.handles 2 + (s.holders.map fun y => y.held.count 2).sum ∧
      ∀ d ∈ x.deps, ∃ y, s.holders[d]? = some y ∧ y.stage = .live := by
  obtain ⟨π, s, hr, hp⟩ := exists_run_of_replay (M := dds List.length)
    (p := fun (_ : List (Taken Factories Call Result)) (s : Factories) => decide (0 < s.handles 2)) topicCalls (by decide)
  exact ⟨π, s, hr, handle_live hr (of_decide_eq_true hp)⟩

/-- While a destructor still has a reference, what it refers to is live. -/
theorem destructor_live (hr : Run (dds hash_pjw) π s) {h d : ℕ} {left : List ℕ}
    {x : Holder HolderKey Entity} (hx : s.holders[h]? = some x) (hstage : x.stage = .dropping left) (hd : d ∈ left) :
    ∃ y, s.holders[d]? = some y ∧ y.stage = .live ∧ s.table y.key = some d := by
  have hs := inv_reached hr
  obtain ⟨y, hy, hpos, htable⟩ := hs.referenced (.inr ⟨h, x, hx, by simpa [Holder.held, hstage] using hd⟩)
  exact ⟨y, hy, (hs.live d y hy).mpr hpos, htable⟩

/-- What is not yet taken out of its factory is alone under its key, and a participant whose factories have
something in them is live: when it goes, both are empty. -/
theorem factories_empty (hr : Run (dds hash_pjw) π s) :
    (∀ (h i : ℕ) (x y : Holder HolderKey Entity), s.holders[h]? = some x → s.holders[i]? = some y → x.Mapped → y.Mapped →
      x.key = y.key → h = i) ∧
    ∀ (p : ℕ) (x : Holder HolderKey Entity), s.holders[p]? = some x → x.stage ≠ .live →
      ∀ key, s.table (.topic p key) = none ∧ s.table (.type p key) = none := by
  have hs := inv_reached hr
  refine ⟨fun h i x y hx hy hxm hym hkey => hs.eq_of_key hx hy hxm hym hkey, fun p x hx hstage key => ?_⟩
  have hnone : ∀ k, owner k = some p → s.table k = none := by
    intro k hk
    cases htable : s.table k with
    | none => rfl
    | some h =>
      obtain ⟨y, hy, hpos⟩ := hs.owner_live htable hk
      obtain rfl : y = x := by simpa [hx] using hy.symm
      exact absurd ((hs.live p y hy).mpr hpos) hstage
  exact ⟨hnone _ rfl, hnone _ rfl⟩

/-- All is given back, and the topic and its type are gone when the participant is taken out. -/
theorem factories_empty_topicCalls : ∃ π s, Run (dds List.length) π s ∧
    (∀ (h i : ℕ) (x y : Holder HolderKey Entity), s.holders[h]? = some x → s.holders[i]? = some y → x.Mapped → y.Mapped →
      x.key = y.key → h = i) ∧
    ∃ x, s.holders[0]? = some x ∧ x.stage = .dropping [] ∧
      ∀ key, s.table (.topic 0 key) = none ∧ s.table (.type 0 key) = none := by
  obtain ⟨π, s, hr, hp⟩ := exists_run_of_replay (M := dds List.length)
    (p := fun (_ : List (Taken Factories Call Result)) (s : Factories) =>
      decide ((s.holders[0]?).map Holder.stage = some (.dropping [])))
    (topicCalls ++ [.release 0, .release 1, .release 2, .remove_holder 2, .destroy 2, .destroy 2, .remove_holder 1,
      .destroy 1, .remove_holder 0]) (by decide)
  obtain ⟨x, hx, hstage⟩ := Option.map_eq_some_iff.mp (of_decide_eq_true hp)
  obtain ⟨halone, hempty⟩ := factories_empty hr
  exact ⟨π, s, hr, halone, x, hx, hstage, hempty 0 x hx (by rw [hstage]; exact Stage.noConfusion)⟩

/-- A step that the factories take, with what they did. -/
theorem registry_step {call : Call} {s' : Factories} {es : List Result} {event : Registry.Event HolderKey Entity}
    (hstep : step hash_pjw s call = some (s', es)) (he : .done event ∈ es) :
    ∃ act fs, Registry.Does owner s act s' fs ∧ event ∈ fs := by
  unfold step at hstep
  split at hstep
  · cases hstep
  · cases hstep
    simp at he
  · next act _ =>
    obtain ⟨⟨t, fs⟩, hact, hnext⟩ := Option.map_eq_some_iff.mp hstep
    cases hnext
    exact ⟨act, fs, Registry.does_of_step hact, by simpa using he⟩

/-- `INV_OBJREF` comes of a holder whose last reference is gone and that its factory still has. -/
theorem dangling_removing (hr : Run (dds hash_pjw) π s) {t : Taken Factories Call Result}
    (ht : t ∈ π) {key : HolderKey} {h : ℕ} (hdangling : .done (.dangling key h) ∈ t.out) :
    t.pre.handles h = 0 ∧ t.pre.table key = some h ∧
      ∃ x, t.pre.holders[h]? = some x ∧ x.key = key ∧ x.stage = .removing := by
  obtain ⟨π₁, π₂, rfl⟩ := List.append_of_mem ht
  obtain ⟨s₁, hrun⟩ := hr.split π₂
  obtain ⟨hpre, hstep⟩ := hrun.snoc_inv
  have hs := inv_reached hpre
  obtain ⟨act, fs, hdoes, he⟩ := registry_step hstep hdangling
  cases hdoes with
  | dangling hkey hx hzero =>
    obtain ⟨rfl, rfl⟩ : key = _ ∧ h = _ := by simpa using he
    obtain ⟨y, hy, hykey, hm⟩ := hs.found _ _ hkey
    obtain rfl : y = _ := by simpa [hx] using hy.symm
    have hcounted := hs.counted _ y hy
    rw [hzero, Registry.refs] at hcounted
    have hnot : y.stage ≠ .live := fun hlive => by
      have := (hs.live _ y hy).mp hlive
      omega
    refine ⟨by omega, hkey, y, hy, hykey, ?_⟩
    cases hstage : y.stage with
    | live => exact absurd hstage hnot
    | removing => rfl
    | dropping left => simp [Holder.Mapped, hstage] at hm
  | _ => simp at he

/-- The participant is asked for once more between the last release and its removal. -/
theorem dangling_removing_participant : ∃ π s, Run (dds List.length) π s ∧ ∃ t ∈ π,
    t.pre.handles 0 = 0 ∧ t.pre.table (.domain 7) = some 0 ∧
      ∃ x, t.pre.holders[0]? = some x ∧ x.key = .domain 7 ∧ x.stage = .removing := by
  obtain ⟨π, s, hr, hp⟩ := exists_run_of_replay (M := dds List.length)
    (p := fun (π : List (Taken Factories Call Result)) (_ : Factories) =>
      π.any fun t => decide (.done (.dangling (.domain 7) 0) ∈ t.out))
    [.create_participant 7 true, .release 0, .create_participant 7 true] (by decide)
  obtain ⟨t, ht, hout⟩ := List.any_eq_true.mp hp
  exact ⟨π, s, hr, t, ht, dangling_removing hr ht (of_decide_eq_true hout)⟩

/-- The steps of the removals. -/
def Call.Removal : Call → Prop
  | .remove_holder _ | .destroy _ => True
  | _ => False

theorem removes (hash_pjw : Text → ℕ) : Registry.Removes owner (dds hash_pjw) Call.Removal where
  inv _ _ hr := inv_reached hr
  does s call s' es hcall hstep := by
    change step hash_pjw s call = some (s', es) at hstep
    cases call with
    | remove_holder holder =>
      obtain ⟨⟨t, fs⟩, hact, hnext⟩ := Option.map_eq_some_iff.mp hstep
      cases hnext
      exact ⟨.unmap holder, fs, trivial, Registry.does_of_step hact⟩
    | destroy holder =>
      obtain ⟨⟨t, fs⟩, hact, hnext⟩ := Option.map_eq_some_iff.mp hstep
      cases hnext
      exact ⟨.drop holder, fs, trivial, Registry.does_of_step hact⟩
    | _ => exact absurd hcall (by simp [Call.Removal])
  can s act s' fs hact hstep := by
    cases act with
    | unmap holder => exact ⟨.remove_holder holder, fs.map .done, trivial, by simp [dds, step, effect, hstep]⟩
    | drop holder => exact ⟨.destroy holder, fs.map .done, trivial, by simp [dds, step, effect, hstep]⟩
    | _ => exact absurd hact (by simp [Registry.Action.Removal])

/-- Where the clients have released every handle, the removals come to an end in whatever order they go on, and
then every holder is destroyed and every factory is empty. -/
theorem released_all (hr : Run (dds hash_pjw) π s) (hreleased : ∀ h, s.handles h = 0) :
    (∀ ρ s', Run (dds hash_pjw) (π ++ ρ) s' → (∀ t ∈ ρ, t.act.Removal) →
      ρ.length ≤ Registry.work s ∧ (Registry.Quiet s' →
        (∀ (h : ℕ) (x : Holder HolderKey Entity), s'.holders[h]? = some x → x.stage = .dropping []) ∧
          ∀ key, s'.table key = none)) ∧
    ∃ ρ s', Run (dds hash_pjw) (π ++ ρ) s' ∧ (∀ t ∈ ρ, t.act.Removal) ∧ Registry.Quiet s' := by
  have hM := removes hash_pjw
  refine ⟨fun ρ s' hr' hρ => ?_, hM.exists_teardown hr⟩
  obtain ⟨hbound, hhandles⟩ := hM.bound hr hρ hr'
  exact ⟨by omega, (inv_reached hr').quiet fun h => by rw [hhandles, hreleased h]⟩

theorem released_all_topicCalls : ∃ π s, Run (dds List.length) π s ∧ (s.holders.length = 3) ∧
    ∃ ρ s', Run (dds List.length) (π ++ ρ) s' ∧ (∀ t ∈ ρ, t.act.Removal) ∧ Registry.Quiet s' := by
  obtain ⟨π, s, hr, hp⟩ := exists_run_of_replay (M := dds List.length)
    (p := fun (_ : List (Taken Factories Call Result)) (s : Factories) => decide (s.holders.length = 3 ∧
      s.handles 0 = 0 ∧ s.handles 1 = 0 ∧ s.handles 2 = 0))
    (topicCalls ++ [.release 0, .release 1, .release 2]) (by decide)
  obtain ⟨hlength, h0, h1, h2⟩ := of_decide_eq_true hp
  refine ⟨π, s, hr, hlength, (released_all hr fun h => ?_).2⟩
  match h with
  | 0 => exact h0
  | 1 => exact h1
  | 2 => exact h2
  | h + 3 => exact (inv_reached hr).fresh _ (by omega)

/-! ## What the requests get -/

/-- What is before and behind the last bar of a text. -/
theorem eq_of_bar {a b c d : Text} (hb : '|' ∉ b) (hd : '|' ∉ d) (h : a ++ '|' :: b = c ++ '|' :: d) : a = c ∧ b = d := by
  rcases List.append_eq_append_iff.mp h with ⟨e, rfl, he⟩ | ⟨e, rfl, he⟩
  · cases e with
    | nil => exact ⟨(List.append_nil a).symm, (List.cons.inj he).2⟩
    | cons x e =>
      refine absurd ?_ hb
      rw [(List.cons.inj he).2]
      simp
  · cases e with
    | nil => exact ⟨List.append_nil c, (List.cons.inj he).2.symm⟩
    | cons x e =>
      refine absurd ?_ hd
      rw [(List.cons.inj he).2]
      simp

theorem bar_notMem_printInt (z : Int) : '|' ∉ printInt none z := by
  intro hmem
  rcases mem_printInt_none hmem with h | h
  · exact absurd h (by decide)
  · exact absurd h (by decide)

theorem topicText_inj {n n' t t' : Text} {d d' : Int} (ht : '|' ∉ t) (ht' : '|' ∉ t')
    (h : topicText n t d = topicText n' t' d') : n = n' ∧ t = t' ∧ d = d' := by
  simp only [topicText, typeText, ← List.cons_append, ← List.append_assoc] at h
  obtain ⟨h, hd⟩ := eq_of_bar (bar_notMem_printInt d) (bar_notMem_printInt d') h
  obtain ⟨hn, ht⟩ := eq_of_bar ht ht' h
  exact ⟨hn, ht, printInt_none_injective hd⟩

/-- Type names with bars make the texts of two topics the same. -/
example : topicText "a|b".toList "c".toList 0 = topicText "a".toList "b|c".toList 0 := by decide

/-- What a request gets was made in the same factory for something of the same hash. -/
theorem given_holder (hr : Run (dds hash_pjw) π s) {event : Registry.Event HolderKey Entity}
    (he : .done event ∈ events π) {key : HolderKey} {entity : Entity} {h : ℕ}
    (hgiven : event.given = some (key, entity, h)) :
    ∃ x, s.holders[h]? = some x ∧ keyOf hash_pjw x.info = keyOf hash_pjw entity := by
  obtain ⟨ρ, hρ, hev, hkeyed⟩ := registry_run hr
  have hmem : event ∈ events ρ := by
    rw [hev]
    exact List.mem_filterMap.mpr ⟨_, he, rfl⟩
  obtain ⟨x, hx, -, hkey⟩ := Registry.given_made hρ hkeyed hmem hgiven
  exact ⟨x, hx, hkey⟩

/-- The holder that `create_topic` gives was made for the same participant; it is for the name and the type that
were asked for where the hash tells the two texts apart and no type name has a bar. -/
theorem given_topic (hr : Run (dds hash_pjw) π s) {event : Registry.Event HolderKey Entity}
    (he : .done event ∈ events π) {key : HolderKey} {p : ℕ} {n t : Text} {d : Int} {h : ℕ}
    (hgiven : event.given = some (key, .topic p n t d, h)) :
    ∃ x n' t' d', s.holders[h]? = some x ∧ x.info = .topic p n' t' d' ∧
      (Set.InjOn hash_pjw {topicText n t d, topicText n' t' d'} → '|' ∉ t → '|' ∉ t' → n' = n ∧ t' = t ∧ d' = d) := by
  obtain ⟨x, hx, hkey⟩ := given_holder hr he hgiven
  cases hinfo : x.info with
  | participant d' => simp [hinfo, keyOf] at hkey
  | type p' t' d' => simp [hinfo, keyOf] at hkey
  | topic p' n' t' d' =>
    rw [hinfo] at hkey
    obtain ⟨rfl, hhash⟩ : p' = p ∧ hash_pjw (topicText n' t' d') = hash_pjw (topicText n t d) := by
      simpa [keyOf] using hkey
    refine ⟨x, n', t', d', hx, hinfo, fun hinj ht ht' => ?_⟩
    have htext : topicText n' t' d' = topicText n t d := hinj (by simp) (by simp) hhash
    exact topicText_inj ht' ht htext

/-- A hash that tells the texts of the next run apart. -/
def sumOfChars (text : Text) : ℕ := (text.map Char.toNat).sum

/-- Of two topics the second one is asked for once more. -/
theorem given_topic_other : ∃ π s, Run (dds sumOfChars) π s ∧
    Set.InjOn sumOfChars {topicText "n".toList "T".toList 7, topicText "m".toList "T".toList 7} ∧
    .done (.located (keyOf sumOfChars (.topic 0 "m".toList "T".toList 7))
      (.topic 0 "m".toList "T".toList 7) 3) ∈ events π ∧
    ∃ x, s.holders[3]? = some x ∧ x.info = .topic 0 "m".toList "T".toList 7 := by
  have hinj : Set.InjOn sumOfChars {topicText "n".toList "T".toList 7, topicText "m".toList "T".toList 7} := by
    refine Set.injOn_pair.mpr fun h => ?_
    exact absurd h (by decide)
  obtain ⟨π, s, hr, hp⟩ := exists_run_of_replay (M := dds sumOfChars)
    (p := fun (π : List (Taken Factories Call Result)) (s : Factories) =>
      decide (.done (.located (keyOf sumOfChars (.topic 0 "m".toList "T".toList 7))
          (.topic 0 "m".toList "T".toList 7) 3) ∈ events π ∧
        ∀ x ∈ s.holders, x.info ∈ [.participant 7, .type 0 "T".toList 7, .topic 0 "n".toList "T".toList 7,
          .topic 0 "m".toList "T".toList 7]))
    (topicCalls ++ [.create_topic 0 1 "m".toList true, .create_topic 0 1 "m".toList true]) (by decide)
  obtain ⟨he, hmade⟩ := of_decide_eq_true hp
  obtain ⟨x, n', t', d', hx, hinfo, hsame⟩ := given_topic hr he rfl
  refine ⟨π, s, hr, hinj, he, x, hx, ?_⟩
  -- the holder is one of the two topics
  have hone : (n' = "n".toList ∨ n' = "m".toList) ∧ t' = "T".toList ∧ d' = 7 := by
    have hmem := hmade x (List.mem_of_getElem? hx)
    rw [hinfo] at hmem
    simpa [or_and_right] using hmem
  obtain ⟨hn, rfl, rfl⟩ := hone
  have hsub : Set.InjOn sumOfChars {topicText "m".toList "T".toList 7, topicText n' "T".toList 7} := by
    refine hinj.mono ?_
    rintro text (rfl | rfl)
    · exact .inr rfl
    · rcases hn with rfl | rfl
      · exact .inl rfl
      · exact .inr rfl
  obtain ⟨rfl, -, -⟩ := hsame hsub (by decide) (by decide)
  exact hinfo

end Lasagne.Taf.DDSPubSub
