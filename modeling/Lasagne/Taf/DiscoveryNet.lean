import Mathlib
import Lasagne.Taf.DiscoveryFraming
import Lasagne.Taf.IORServantRepository

/-!
# Lasagne.Taf.DiscoveryNet — clients, a service and the datagrams between them

A client sends a query to the group, the service hands a reply for every servant that is meant to a thread of its
own, and the client gathers what arrives at its port.  Datagrams get lost, come again and come in any order, and
servants are registered and unregistered at any time.

* `directory_run` : over all runs the repository is the directory that its history says;
* `sound` : whatever a client gathers was meant by a query from its port, when the service handled it;
* `round_complete` : where nothing is lost and nothing is too long, it gathers all that was meant.
-/

namespace Lasagne.Taf.DiscoveryNet

open Lasagne.Daf Lasagne.Trans Lasagne.Wire
open Lasagne.Taf.Discovery (Datagram IORReply IORQuery queryFrame replyFrame)

variable {ω : Type}

/-! ## The model -/

/-- `s.c_str()`. -/
def cStr (s : Text) : CString := CString.of (s.map fun c => UInt8.ofNat c.toNat)

/-- The `std::string` of a string of C. -/
def text (s : CString) : Text := s.bytes.map fun b => Char.ofNat b.toNat

/-- An `IORReplySender` that a thread has still to run. -/
structure Sender (ω : Type) where
  servant : IORQueryServant ω
  port : UInt16

structure Net (ω : Type) where
  repository : IORServantRepository ω
  /-- what was sent to the group -/
  queries : List Datagram
  senders : List (Sender ω)
  /-- what was sent to a port -/
  replies : List (UInt16 × Datagram)

/-- What is done at the two ends, with what it meets there. -/
inductive Act (ω : Type)
  | registerQueryService (p : Option ω) (name : Text)
  | unregisterQueryService (name : Text)
  | sendIORQuery (up : Bool) (port : UInt16) (svc_ident : Option CString)
  | handleInput (isActive after : Bool) (turns : ℕ → Turn) (d : Datagram)
  | run (opened up : Bool) (i : ℕ)
  | getIORReply (port : UInt16) (etimes : List Bool) (arrived : List Datagram)

inductive Event (ω : Type)
  | registration (r : Registration ω)
  | got (port : UInt16) (ior_seq : List (IORReply ω))
deriving DecidableEq

/-- The registrations among the events. -/
def Event.toRegistration : Event ω → Option (Registration ω)
  | .registration r => some r
  | .got .. => none

/-- What a call that returns 0 has registered. -/
def registering (r : IORServantRepository ω) (p : Option ω) (name : Text) : List (Registration ω) :=
  if (r.registerQueryService p name).2 = 0 then (p.map (.registered (trimString name ' '))).toList else []

def unregistering (r : IORServantRepository ω) (name : Text) : List (Registration ω) :=
  if (r.unregisterQueryService name).2 = 0 then [.unregistered (trimString name ' ')] else []

/-- A datagram that arrives was sent, and nothing else is known of it. -/
def step (obj : Codec ω) (s : Net ω) : Act ω → Option (Net ω × List (Event ω))
  | .registerQueryService p name =>
    some ({ s with repository := (s.repository.registerQueryService p name).1 },
      (registering s.repository p name).map .registration)
  | .unregisterQueryService name =>
    some ({ s with repository := (s.repository.unregisterQueryService name).1 },
      (unregistering s.repository name).map .registration)
  | .sendIORQuery up port svc_ident =>
    some ({ s with queries := s.queries ++ (Discovery.sendIORQuery up port svc_ident).2.toList }, [])
  | .handleInput isActive after turns d =>
    if d ∈ s.queries then
      match (Discovery.handleInput isActive true after [d]).query with
      | none => some (s, [])
      | some ior_query =>
        let (r, handed) := s.repository.query turns (text ior_query.svc_ident)
        some ({ s with repository := r, senders := s.senders ++ handed.map fun it => ⟨it, ior_query.svc_port⟩ },
          [.registration (.erased (s.repository.lost r.servants))])
    else none
  | .run opened up i =>
    (s.senders[i]?).map fun sender =>
      let sent := (Discovery.IORReplySender.run obj opened up (cStr sender.servant.ident) sender.servant.obj).2
      ({ s with senders := s.senders.eraseIdx i, replies := s.replies ++ sent.toList.map fun d => (sender.port, d) }, [])
  | .getIORReply port etimes arrived =>
    if ∀ d ∈ arrived, (port, d) ∈ s.replies then
      some (s, [.got port (Discovery.getIORReply obj etimes [] arrived).1])
    else none

def net (obj : Codec ω) : Machine (Net ω) (Act ω) (Event ω) := ⟨⟨.empty, [], [], []⟩, step obj⟩

variable {obj : Codec ω} {π : List (Taken (Net ω) (Act ω) (Event ω))} {s : Net ω}

def letterA : CString := ⟨[65], by decide⟩

/-- `B`. -/
def letterB : CString := ⟨[66], by decide⟩

/-- A servant is registered, asked for, and found. -/
def foundActs : List (Act UInt32) :=
  [.registerQueryService (some 7) "A ".toList, .sendIORQuery true 9000 (some letterA),
    .handleInput true true quietTurn (queryFrame 9000 letterA), .run true true 0,
    .getIORReply 9000 [true] [replyFrame Codec.ulong letterA 7]]

/-- What a step can do. -/
inductive Does (obj : Codec ω) (s : Net ω) : Act ω → Net ω → List (Event ω) → Prop
  | registered (p : Option ω) (name : Text) :
    Does obj s (.registerQueryService p name) { s with repository := (s.repository.registerQueryService p name).1 }
      ((registering s.repository p name).map .registration)
  | unregistered (name : Text) :
    Does obj s (.unregisterQueryService name) { s with repository := (s.repository.unregisterQueryService name).1 }
      ((unregistering s.repository name).map .registration)
  | sent (up : Bool) (port : UInt16) (svc_ident : Option CString) :
    Does obj s (.sendIORQuery up port svc_ident)
      { s with queries := s.queries ++ (Discovery.sendIORQuery up port svc_ident).2.toList } []
  | ignored (isActive after : Bool) (turns : ℕ → Turn) (d : Datagram) :
    Does obj s (.handleInput isActive after turns d) s []
  | handled {isActive after : Bool} {turns : ℕ → Turn} {d : Datagram} {ior_query : IORQuery} (hd : d ∈ s.queries)
    (hquery : (Discovery.handleInput isActive true after [d]).query = some ior_query) :
    Does obj s (.handleInput isActive after turns d)
      { s with
        repository := (s.repository.query turns (text ior_query.svc_ident)).1
        senders := s.senders ++
          (s.repository.query turns (text ior_query.svc_ident)).2.map fun it => ⟨it, ior_query.svc_port⟩ }
      [.registration (.erased (s.repository.lost (s.repository.query turns (text ior_query.svc_ident)).1.servants))]
  | ran {opened up : Bool} {i : ℕ} {sender : Sender ω} (hsender : s.senders[i]? = some sender) :
    Does obj s (.run opened up i)
      { s with
        senders := s.senders.eraseIdx i
        replies := s.replies ++
          (Discovery.IORReplySender.run obj opened up (cStr sender.servant.ident) sender.servant.obj).2.toList.map
            fun d => (sender.port, d) } []
  | gathered {port : UInt16} {etimes : List Bool} {arrived : List Datagram} (harrived : ∀ d ∈ arrived, (port, d) ∈ s.replies) :
    Does obj s (.getIORReply port etimes arrived) s [.got port (Discovery.getIORReply obj etimes [] arrived).1]

theorem does_of_step {a : Act ω} {s' : Net ω} {es : List (Event ω)} (h : step obj s a = some (s', es)) :
    Does obj s a s' es := by
  cases a with
  | registerQueryService p name =>
    obtain ⟨rfl, rfl⟩ := Prod.mk.inj (Option.some.inj h)
    exact .registered p name
  | unregisterQueryService name =>
    obtain ⟨rfl, rfl⟩ := Prod.mk.inj (Option.some.inj h)
    exact .unregistered name
  | sendIORQuery up port svc_ident =>
    obtain ⟨rfl, rfl⟩ := Prod.mk.inj (Option.some.inj h)
    exact .sent up port svc_ident
  | handleInput isActive after turns d =>
    simp only [step] at h
    split at h
    · next hd =>
      split at h
      · obtain ⟨rfl, rfl⟩ := Prod.mk.inj (Option.some.inj h)
        exact .ignored isActive after turns d
      · next ior_query hquery =>
        obtain ⟨rfl, rfl⟩ := Prod.mk.inj (Option.some.inj h)
        exact .handled hd hquery
    · cases h
  | run opened up i =>
    obtain ⟨sender, hsender, h⟩ := Option.map_eq_some_iff.mp h
    obtain ⟨rfl, rfl⟩ := Prod.mk.inj h
    exact .ran hsender
  | getIORReply port etimes arrived =>
    simp only [step] at h
    split at h
    · next harrived =>
      obtain ⟨rfl, rfl⟩ := Prod.mk.inj (Option.some.inj h)
      exact .gathered harrived
    · cases h

/-! ## The directory -/

theorem directory_registerQueryService (r : IORServantRepository ω) (p : Option ω) (name : Text) :
    (r.registerQueryService p name).1.directory = (registering r p name).foldl Directory.after r.directory := by
  unfold registering IORServantRepository.registerQueryService
  cases p with
  | none => rfl
  | some p =>
    dsimp only
    split
    · next h => exact r.directory_assign p _ ⟨h, trimString_trimString name ' '⟩
    · rfl

theorem directory_unregisterQueryService (r : IORServantRepository ω) (name : Text) :
    (r.unregisterQueryService name).1.directory = (unregistering r name).foldl Directory.after r.directory := by
  unfold unregistering IORServantRepository.unregisterQueryService
  dsimp only
  split
  · exact r.directory_remove _
  · rfl

theorem directory_query (r : IORServantRepository ω) (turns : ℕ → Turn) (ident : Text) :
    (r.query turns ident).1.directory = r.directory.after (.erased (r.lost (r.query turns ident).1.servants)) := by
  unfold IORServantRepository.query
  split
  · exact r.directory_keep _ (queryLoop_sublist turns ident 0 r.servants)
  · exact r.directory_keep r.servants (List.Sublist.refl _)

theorem toRegistration_map (l : List (Registration ω)) : (l.map Event.registration).filterMap Event.toRegistration = l := by
  simp [List.filterMap_map, Function.comp_def, Event.toRegistration]

/-- One step takes the directory where its event says. -/
theorem Does.directory {a : Act ω} {s' : Net ω} {es : List (Event ω)} (h : Does obj s a s' es) :
    s'.repository.directory = (es.filterMap Event.toRegistration).foldl Directory.after s.repository.directory := by
  cases h with
  | registered p name =>
    rw [toRegistration_map]
    exact directory_registerQueryService s.repository p name
  | unregistered name =>
    rw [toRegistration_map]
    exact directory_unregisterQueryService s.repository name
  | handled _ _ => exact directory_query s.repository _ _
  | sent | ignored | ran | gathered => rfl

/-- What is registered under a name is what was registered there last, unless it was unregistered or erased since;
whatever the order of the calls, and of the queries between them. -/
theorem directory_run (hr : Run (net obj) π s) : s.repository.directory =
    ((events π).filterMap Event.toRegistration).foldl Directory.after fun _ => none := by
  induction hr with
  | start => exact IORServantRepository.directory_empty
  | snoc _ hstep ih =>
    rw [events_snoc, List.filterMap_append, List.foldl_append, ← ih]
    exact (does_of_step hstep).directory

theorem directory_run_found : ∃ π s, Run (net Codec.ulong) π s ∧ events π ≠ [] ∧ s.repository.directory =
    ((events π).filterMap Event.toRegistration).foldl Directory.after fun _ => none := by
  obtain ⟨π, s, hr, hp⟩ := exists_run_of_replay (M := net Codec.ulong)
    (p := fun (π : List (Taken (Net UInt32) (Act UInt32) (Event UInt32))) (_ : Net UInt32) => decide (events π ≠ []))
    foundActs (by decide +kernel)
  exact ⟨π, s, hr, of_decide_eq_true hp, directory_run hr⟩

/-! ## What is gathered -/

/-- A client has asked for it, from this port. -/
def Asked (π : List (Taken (Net ω) (Act ω) (Event ω))) (port : UInt16) (svc_ident : CString) : Prop :=
  ∃ x ∈ π, ∃ up, x.act = .sendIORQuery up port (some svc_ident)

/-- The service has handled a query that was sent from the port before, when this servant was in the repository under
the name that was asked for, or was of the type. -/
def Meant (π : List (Taken (Net ω) (Act ω) (Event ω))) (port : UInt16) (servant : IORQueryServant ω) : Prop :=
  ∃ π₁ x π₂ svc_ident isActive after turns d, π = π₁ ++ x :: π₂ ∧ Asked π₁ port svc_ident ∧
    x.act = .handleInput isActive after turns d ∧
    ∃ j, x.pre.repository.servants[j]? = some servant ∧
      (text svc_ident = servant.ident ∨ (turns j).isA = some true)

theorem Asked.snoc {port : UInt16} {svc_ident : CString} (h : Asked π port svc_ident)
    (y : Taken (Net ω) (Act ω) (Event ω)) : Asked (π ++ [y]) port svc_ident := by
  obtain ⟨x, hx, hact⟩ := h
  exact ⟨x, List.mem_append_left _ hx, hact⟩

theorem Meant.append {port : UInt16} {servant : IORQueryServant ω} (h : Meant π port servant)
    (ρ : List (Taken (Net ω) (Act ω) (Event ω))) : Meant (π ++ ρ) port servant := by
  obtain ⟨π₁, x, π₂, svc_ident, isActive, after, turns, d, rfl, hx⟩ := h
  exact ⟨π₁, x, π₂ ++ ρ, svc_ident, isActive, after, turns, d, by simp, hx⟩

/-- Only the query that a frame was made of comes out of it. -/
theorem query_of_frame {isActive own after : Bool} {q q' : IORQuery}
    (hlt : (Discovery.frame (IORQuery.codec.write 4 q)).length < 2 ^ 16)
    (hq : (Discovery.handleInput isActive own after [Discovery.frame (IORQuery.codec.write 4 q)]).query = some q') :
    q' = q := by
  have hdecode := Discovery.decodeQuery_frame (lt_trans hlt (by norm_num))
  have hlen := Discovery.ioLen_frame ((Discovery.length_frame _).symm.trans_lt hlt)
  simp only [Discovery.handleInput, Discovery.ioHeader_frame, hlen, Discovery.recv_frame, hdecode, if_true] at hq
  split at hq
  · split at hq
    · split at hq
      · exact (Option.some.inj hq).symm
      · cases hq
    · cases hq
  · cases hq

/-- Only the reply that a frame was made of comes out of it. -/
theorem reply_of_frame {etime : Bool} {r r' : IORReply ω} {rest : List Datagram}
    (hlt : (Discovery.frame ((IORReply.codec obj).write 4 r)).length < 2 ^ 16)
    (hr : (Discovery.getIORReplyRound obj etime (Discovery.frame ((IORReply.codec obj).write 4 r) :: rest)).reply =
      some r') : r' = r := by
  have hdecode := Discovery.decodeReply_frame hlt
  have hlen := Discovery.ioLen_frame ((Discovery.length_frame _).symm.trans_lt hlt)
  simp only [Discovery.getIORReplyRound, Discovery.ioHeader_frame, hlen, Discovery.recv_frame, hdecode, if_true] at hr
  split at hr
  · exact (Option.some.inj hr).symm
  · cases hr

/-- What is gathered came out of a datagram that arrived. -/
theorem mem_getIORReply (etimes : List Bool) {ior_seq : List (IORReply ω)} {arrived : List Datagram} {r : IORReply ω}
    (h : r ∈ (Discovery.getIORReply obj etimes ior_seq arrived).1) :
    r ∈ ior_seq ∨ ∃ d ∈ arrived, ∃ etime rest, (Discovery.getIORReplyRound obj etime (d :: rest)).reply = some r := by
  induction etimes generalizing ior_seq arrived with
  | nil => exact .inl h
  | cons etime etimes ih =>
    have hround : r ∈ ior_seq ++ (Discovery.getIORReplyRound obj etime arrived).reply.toList →
        r ∈ ior_seq ∨ ∃ d ∈ arrived, ∃ etime rest, (Discovery.getIORReplyRound obj etime (d :: rest)).reply = some r := by
      intro hmem
      rcases List.mem_append.mp hmem with hmem | hmem
      · exact .inl hmem
      · cases arrived with
        | nil => cases hmem
        | cons d rest => exact .inr ⟨d, List.mem_cons_self .., etime, rest, Option.mem_toList.mp hmem⟩
    have hqueue : ∀ d ∈ (Discovery.getIORReplyRound obj etime arrived).queue, d ∈ arrived := by
      cases arrived with
      | nil => exact fun d hd => hd
      | cons d rest =>
        rw [Discovery.getIORReplyRound_queue]
        split
        · exact fun e he => List.mem_cons_of_mem _ he
        · exact fun e he => he
    rw [Discovery.getIORReply] at h
    split at h
    · dsimp only at h
      split at h
      · rcases ih h with h | ⟨d, hd, h⟩
        · exact hround h
        · exact .inr ⟨d, hqueue d hd, h⟩
      · exact hround h
    · exact .inl h

/-- Where the datagrams come from. -/
structure Inv (π : List (Taken (Net ω) (Act ω) (Event ω))) (obj : Codec ω) (s : Net ω) : Prop where
  queries : ∀ d ∈ s.queries, ∃ port svc_ident, Asked π port svc_ident ∧ d = queryFrame port svc_ident ∧ d.length < 2 ^ 16
  senders : ∀ sender ∈ s.senders, Meant π sender.port sender.servant
  replies : ∀ port d, (port, d) ∈ s.replies → ∃ servant svc_obj, Meant π port servant ∧ servant.obj = some svc_obj ∧
    d = replyFrame obj (cStr servant.ident) svc_obj ∧ d.length < 2 ^ 16

/-- Another step keeps what there is. -/
theorem Inv.snoc (h : Inv π obj s) (y : Taken (Net ω) (Act ω) (Event ω)) : Inv (π ++ [y]) obj s where
  queries d hd := by
    obtain ⟨port, svc_ident, hasked, hd⟩ := h.queries d hd
    exact ⟨port, svc_ident, hasked.snoc y, hd⟩
  senders sender hsender := (h.senders sender hsender).append [y]
  replies port d hd := by
    obtain ⟨servant, svc_obj, hmeant, hd⟩ := h.replies port d hd
    exact ⟨servant, svc_obj, hmeant.append [y], hd⟩

theorem eq_queryFrame {up : Bool} {port : UInt16} {svc_ident : Option CString} {d : Datagram}
    (h : (Discovery.sendIORQuery up port svc_ident).2 = some d) :
    ∃ ident, svc_ident = some ident ∧ d = queryFrame port ident ∧ d.length < 2 ^ 16 := by
  cases svc_ident with
  | none => cases h
  | some ident =>
    simp only [Discovery.sendIORQuery] at h
    split at h
    · split at h
      · next htaken =>
        obtain rfl := Option.some.inj h
        exact ⟨ident, rfl, rfl, Discovery.lt_of_taken htaken⟩
      · cases h
    · cases h

theorem eq_replyFrame {opened up : Bool} {ident : CString} {servant : Option ω} {d : Datagram}
    (h : (Discovery.IORReplySender.run obj opened up ident servant).2 = some d) :
    ∃ svc_obj, servant = some svc_obj ∧ d = replyFrame obj ident svc_obj ∧ d.length < 2 ^ 16 := by
  cases servant with
  | none => cases h
  | some svc_obj =>
    simp only [Discovery.IORReplySender.run] at h
    split at h
    · split at h
      · next htaken =>
        obtain rfl := Option.some.inj h
        exact ⟨svc_obj, rfl, rfl, Discovery.lt_of_taken htaken⟩
      · cases h
    · cases h

theorem Inv.step {a : Act ω} {s' : Net ω} {es : List (Event ω)} (h : Inv π obj s) (hdoes : Does obj s a s' es) :
    Inv (π ++ [⟨s, a, es⟩]) obj s' := by
  have hkept := h.snoc ⟨s, a, es⟩
  cases hdoes with
  | registered | unregistered | ignored | gathered => exact ⟨hkept.queries, hkept.senders, hkept.replies⟩
  | sent up port svc_ident =>
    refine ⟨fun d hd => ?_, hkept.senders, hkept.replies⟩
    rcases List.mem_append.mp hd with hd | hd
    · exact hkept.queries d hd
    · obtain ⟨ident, rfl, hframe, hlt⟩ := eq_queryFrame (Option.mem_toList.mp hd)
      exact ⟨port, ident, ⟨_, List.mem_append_right _ (List.mem_singleton_self _), up, rfl⟩, hframe, hlt⟩
  | @handled isActive after turns d ior_query hd hquery =>
    refine ⟨hkept.queries, fun sender hsender => ?_, hkept.replies⟩
    rcases List.mem_append.mp hsender with hsender | hsender
    · exact hkept.senders sender hsender
    · obtain ⟨servant, hservant, rfl⟩ := List.mem_map.mp hsender
      obtain ⟨port, ident, hasked, rfl, hlt⟩ := h.queries d hd
      obtain rfl := query_of_frame hlt hquery
      have hident : text ident ≠ [] := fun hnil => by
        simp [hnil, IORServantRepository.query] at hservant
      obtain ⟨n, -, -, -, -, -, hhanded⟩ := s.repository.query_spec turns hident
      obtain ⟨j, -, hj, hmeant⟩ := (hhanded servant).mp hservant
      exact ⟨π, _, [], ident, isActive, after, turns, _, rfl, hasked, rfl, j, hj, hmeant⟩
  | @ran opened up i sender hsender =>
    refine ⟨hkept.queries, fun x hx => hkept.senders x (List.mem_of_mem_eraseIdx hx), fun port d hd => ?_⟩
    rcases List.mem_append.mp hd with hd | hd
    · exact hkept.replies port d hd
    · obtain ⟨e, he, heq⟩ := List.mem_map.mp hd
      obtain ⟨rfl, rfl⟩ := Prod.mk.inj heq
      obtain ⟨svc_obj, hobj, hframe, hlt⟩ := eq_replyFrame (Option.mem_toList.mp he)
      exact ⟨sender.servant, svc_obj, hkept.senders sender (List.mem_of_getElem? hsender), hobj, hframe, hlt⟩

theorem inv_of_run (hr : Run (net obj) π s) : Inv π obj s := by
  induction hr with
  | start => exact ⟨by simp [net], by simp [net], by simp [net]⟩
  | snoc _ hstep ih => exact ih.step (does_of_step hstep)

/-- Whatever a client gathers, with datagrams lost, repeated and out of order, is the name and the object of a servant
that was in the repository when the service handled a query from that port, and that the query meant. -/
theorem gathered_meant (hr : Run (net obj) π s) {port : UInt16} {ior_seq : List (IORReply ω)}
    (hgot : .got port ior_seq ∈ events π) {r : IORReply ω} (hmem : r ∈ ior_seq) :
    ∃ servant, Meant π port servant ∧ servant.obj = some r.svc_obj ∧ r.svc_ident = cStr servant.ident := by
  obtain ⟨x, hx, hout⟩ := List.mem_flatMap.mp hgot
  obtain ⟨π₁, π₂, rfl⟩ := List.append_of_mem hx
  obtain ⟨s₁, hrun⟩ := hr.split π₂
  obtain ⟨hpre, hstep⟩ := hrun.snoc_inv
  have hs := inv_of_run hpre
  obtain ⟨pre, act, out⟩ := x
  have hdoes : Does obj pre act s₁ out := does_of_step hstep
  cases hdoes with
  | @gathered port' etimes arrived harrived =>
    obtain ⟨rfl, rfl⟩ : port = port' ∧ ior_seq = (Discovery.getIORReply obj etimes [] arrived).1 := by
      simpa using hout
    rcases mem_getIORReply etimes hmem with hmem | ⟨d, hd, etime, rest, hreply⟩
    · cases hmem
    · obtain ⟨servant, svc_obj, hmeant, hobj, rfl, hlt⟩ := hs.replies port d (harrived d hd)
      obtain rfl := reply_of_frame hlt hreply
      exact ⟨servant, hmeant.append _, hobj, rfl⟩
  | registered | unregistered | sent | ignored | handled | ran => simp at hout

theorem gathered_meant_found : ∃ π s, Run (net Codec.ulong) π s ∧
    ∃ servant, Meant π 9000 servant ∧ servant.obj = some 7 ∧ letterA = cStr servant.ident := by
  obtain ⟨π, s, hr, hp⟩ := exists_run_of_replay (M := net Codec.ulong)
    (p := fun (π : List (Taken (Net UInt32) (Act UInt32) (Event UInt32))) (_ : Net UInt32) =>
      decide (.got 9000 [⟨letterA, 7⟩] ∈ events π)) foundActs (by decide +kernel)
  exact ⟨π, s, hr, gathered_meant hr (of_decide_eq_true hp) (List.mem_singleton_self _)⟩

/-! ## What is not lost -/

/-- Where every frame is short enough, and there is time and room, all that arrives is gathered, in its order. -/
theorem getIORReply_frames (obj : Codec ω) (sent : List (IORReply ω)) (etimes : List Bool) (ior_seq : List (IORReply ω))
    (hshort : ∀ r ∈ sent, (replyFrame obj r.svc_ident r.svc_obj).length ≤ Discovery.maxIorReplyLength)
    (htime : sent.length ≤ etimes.length) (hroom : ior_seq.length + sent.length ≤ Discovery.maxIorqueryReplies) :
    (Discovery.getIORReply obj etimes ior_seq (sent.map fun r => replyFrame obj r.svc_ident r.svc_obj)).1 =
      ior_seq ++ sent := by
  induction sent generalizing etimes ior_seq with
  | nil =>
    rw [List.append_nil]
    cases etimes with
    | nil => rfl
    | cons etime etimes =>
      rw [Discovery.getIORReply, List.map_nil, Discovery.getIORReplyRound]
      split
      · exact List.append_nil ior_seq
      · rfl
  | cons r sent ih =>
    obtain ⟨etime, etimes, rfl⟩ := List.exists_cons_of_length_pos (lt_of_lt_of_le (Nat.succ_pos _) htime)
    have hframe : (replyFrame obj r.svc_ident r.svc_obj).length ≤ Discovery.maxIorReplyLength := hshort r (List.mem_cons_self ..)
    have hlt : (Discovery.frame ((IORReply.codec obj).write 4 r)).length < 2 ^ 16 := lt_of_le_of_lt hframe (by decide)
    have hrange : Discovery.inRange (Discovery.frame ((IORReply.codec obj).write 4 r)).length = true :=
      Discovery.inRange_iff.mpr ⟨Discovery.length_replyFrame obj r.svc_ident r.svc_obj, hframe⟩
    have hlen := Discovery.ioLen_frame ((Discovery.length_frame _).symm.trans_lt hlt)
    have hround : Discovery.getIORReplyRound obj etime
        ((r :: sent).map fun r => replyFrame obj r.svc_ident r.svc_obj) =
        ⟨sent.map fun r => replyFrame obj r.svc_ident r.svc_obj, some r, true⟩ := by
      show Discovery.getIORReplyRound obj etime (Discovery.frame ((IORReply.codec obj).write 4 r) :: _) = _
      simp only [Discovery.getIORReplyRound, Discovery.ioHeader_frame, hlen, Discovery.recv_frame, hrange,
        Discovery.decodeReply_frame hlt, if_true]
    rw [Discovery.getIORReply, if_pos (by rw [List.length_cons] at hroom; omega), hround]
    show (Discovery.getIORReply obj etimes (ior_seq ++ [r]) _).1 = _
    rw [ih etimes (ior_seq ++ [r]) (fun x hx => hshort x (List.mem_cons_of_mem _ hx)) (by simpa using htime)
      (by rw [List.length_append, List.length_singleton]; rw [List.length_cons] at hroom; omega), List.append_assoc]
    rfl

/-- The replies of the servants that are handed out. -/
def repliesOf (handed : List (IORQueryServant ω)) : List (IORReply ω) :=
  handed.filterMap fun it => it.obj.map fun svc_obj => ⟨cStr it.ident, svc_obj⟩

/-- Where the sockets take them, the frames of the replies are what is sent. -/
theorem sent_repliesOf (obj : Codec ω) (handed : List (IORQueryServant ω))
    (hshort : ∀ r ∈ repliesOf handed, (replyFrame obj r.svc_ident r.svc_obj).length ≤ Discovery.maxIorReplyLength) :
    (handed.filterMap fun it => (Discovery.IORReplySender.run obj true true (cStr it.ident) it.obj).2) =
      (repliesOf handed).map fun r => replyFrame obj r.svc_ident r.svc_obj := by
  unfold repliesOf at hshort ⊢
  rw [List.map_filterMap]
  refine List.filterMap_congr fun it hit => ?_
  cases hobj : it.obj with
  | none => rfl
  | some svc_obj =>
    have hle := hshort ⟨cStr it.ident, svc_obj⟩ (List.mem_filterMap.mpr ⟨it, hit, by rw [hobj]; rfl⟩)
    have htaken : Discovery.taken true (replyFrame obj (cStr it.ident) svc_obj) = true := by
      unfold Discovery.taken
      exact Bool.and_eq_true_iff.mpr ⟨rfl, decide_eq_true (hle.trans (by decide))⟩
    simp [Discovery.IORReplySender.run, htaken]

/-- A list in another order is the image of a list in another order. -/
theorem exists_map_of_perm {α β : Type*} {f : α → β} {l : List β} {m : List α} (h : l.Perm (m.map f)) :
    ∃ m' : List α, l = m'.map f ∧ m'.Perm m := by
  obtain ⟨m', hl, hm⟩ := List.perm_comp_forall₂ h (List.forall₂_map_left_iff.mpr (List.forall₂_same.mpr fun _ _ => rfl) :
    List.Forall₂ (fun b a => b = f a) (m.map f) m)
  refine ⟨m', ?_, hm⟩
  clear h hm
  induction hl with
  | nil => rfl
  | cons hb _ ih => rw [List.map_cons, ← hb, ← ih]

/-- A round of discovery in which nothing gets lost: a query of at most 4083 bytes that was sent is accepted, and a
service that stays active and finds threads for its replies has them sent; if no frame is longer than
`MAX_IOR_REPLY_LENGTH` and there are not more servants than `MAX_IORQUERY_REPLIES`, then in whatever order they arrive the
client gathers the name and the object of each servant that has the name or is of the type, once, and nothing else. -/
theorem round_complete (obj : Codec ω) (r : IORServantRepository ω) (up after : Bool) {port : UInt16}
    {svc_ident : CString} {d : Datagram} {turns : ℕ → Turn} {etimes : List Bool} {arrived : List Datagram}
    (hsend : Discovery.sendIORQuery up port (some svc_ident) = (0, some d)) (hident : svc_ident.bytes.length ≤ 4083)
    (hturns : ∀ i, (turns i).active = true ∧ (turns i).refused = false)
    (hshort : ∀ it ∈ r.servants, ∀ svc_obj, it.obj = some svc_obj →
      (replyFrame obj (cStr it.ident) svc_obj).length ≤ Discovery.maxIorReplyLength)
    (hroom : r.servants.length ≤ Discovery.maxIorqueryReplies) (htime : r.servants.length ≤ etimes.length)
    (harrived : arrived.Perm ((r.query turns (text svc_ident)).2.filterMap fun it =>
      (Discovery.IORReplySender.run obj true true (cStr it.ident) it.obj).2)) :
    (Discovery.handleInput true true after [d]).query = some ⟨port, 0, svc_ident⟩ ∧
    (Discovery.getIORReply obj etimes [] arrived).1.Perm ((r.servants.zipIdx.filter fun x =>
      decide (text svc_ident = x.1.ident ∨ (turns x.2).isA = some true)).filterMap fun x =>
        x.1.obj.map fun svc_obj => ⟨cStr x.1.ident, svc_obj⟩) := by
  refine ⟨(Discovery.sendIORQuery_iff after [] hsend).mpr hident, ?_⟩
  have hne : text svc_ident ≠ [] := by
    intro hnil
    have hbytes : svc_ident.bytes = [] := List.map_eq_nil_iff.mp hnil
    simp [Discovery.sendIORQuery, hbytes] at hsend
  obtain ⟨n, hn, -, hat, -, hhanded, -⟩ := r.query_spec turns hne
  -- nothing stops the query
  obtain rfl : n = r.servants.length := by
    by_contra hlt
    have hget := List.getElem?_eq_getElem (l := r.servants) (i := n) (by omega)
    rcases hat _ hget with hactive | ⟨-, hrefused⟩
    · rw [(hturns n).1] at hactive
      cases hactive
    · rw [(hturns n).2] at hrefused
      cases hrefused
  rw [List.take_length] at hhanded
  have hreplies : repliesOf (r.query turns (text svc_ident)).2 = ((r.servants.zipIdx.filter fun x =>
      decide (text svc_ident = x.1.ident ∨ (turns x.2).isA = some true)).filterMap fun x =>
        x.1.obj.map fun svc_obj => ⟨cStr x.1.ident, svc_obj⟩) := by
    rw [hhanded, repliesOf, meant, List.filterMap_map]
    congr 1
    refine List.filter_congr fun x hx => ?_
    have hmem : x.1 ∈ r.servants := List.mem_of_getElem? (List.mk_mem_zipIdx_iff_getElem?.mp (show (x.1, x.2) ∈ _ from hx))
    rw [isIdent_eq r hmem _ hne]
    by_cases h : text svc_ident = x.1.ident
    · simp [h]
    · simp [h]
  have hsub : ∀ it ∈ (r.query turns (text svc_ident)).2, it ∈ r.servants := by
    intro it hit
    rw [hhanded] at hit
    obtain ⟨j, hj, -⟩ := mem_meant.mp hit
    exact List.mem_of_getElem? hj
  have hshort' : ∀ x ∈ repliesOf (r.query turns (text svc_ident)).2,
      (replyFrame obj x.svc_ident x.svc_obj).length ≤ Discovery.maxIorReplyLength := by
    intro x hx
    obtain ⟨it, hit, hmap⟩ := List.mem_filterMap.mp hx
    obtain ⟨svc_obj, hobj, rfl⟩ := Option.map_eq_some_iff.mp hmap
    exact hshort it (hsub it hit) svc_obj hobj
  rw [sent_repliesOf obj _ hshort'] at harrived
  obtain ⟨sent, rfl, hperm⟩ := exists_map_of_perm harrived
  have hcount : sent.length ≤ r.servants.length := by
    rw [hperm.length_eq]
    refine (List.length_filterMap_le ..).trans ?_
    rw [hhanded, meant, List.length_map]
    exact (List.length_filter_le ..).trans (by simp)
  have hsent := getIORReply_frames obj sent etimes [] (fun x hx => hshort' x (hperm.subset hx)) (hcount.trans htime)
    (by rw [List.length_nil, Nat.zero_add]; exact hcount.trans hroom)
  rw [hsent, List.nil_append, ← hreplies]
  exact hperm

/-- Of four servants one has the name, one is of the type and one cannot be contacted; the replies overtake each other. -/
theorem round_complete_found :
    (Discovery.handleInput true true true [queryFrame 9000 letterA]).query = some ⟨9000, 0, letterA⟩ ∧
    (Discovery.getIORReply Codec.ulong [true, true, true, true] []
      [replyFrame Codec.ulong letterB 8, replyFrame Codec.ulong letterA 7]).1.Perm [⟨letterA, 7⟩, ⟨letterB, 8⟩] := by
  have hservants := repositoryABCD_servants
  have hsend : Discovery.sendIORQuery true 9000 (some letterA) = (0, some (queryFrame 9000 letterA)) := by decide +kernel
  have hturns : ∀ i, (mixedTurns ⟨true, some false, false⟩ i).active = true ∧
      (mixedTurns ⟨true, some false, false⟩ i).refused = false
    | 0 | 1 | 2 | _ + 3 => ⟨rfl, rfl⟩
  have hshort : ∀ it ∈ repositoryABCD.servants, ∀ svc_obj, it.obj = some svc_obj →
      (replyFrame Codec.ulong (cStr it.ident) svc_obj).length ≤ Discovery.maxIorReplyLength := by
    intro it hit svc_obj hobj
    simp only [hservants, List.mem_cons, List.not_mem_nil, or_false] at hit
    rcases hit with rfl | rfl | rfl | rfl
    all_goals
      obtain rfl := Option.some.inj hobj
      decide +kernel
  have harrived : [replyFrame Codec.ulong letterB 8, replyFrame Codec.ulong letterA 7].Perm
      ((repositoryABCD.query (mixedTurns ⟨true, some false, false⟩) (text letterA)).2.filterMap fun it =>
        (Discovery.IORReplySender.run Codec.ulong true true (cStr it.ident) it.obj).2) := by
    have hsent : ((repositoryABCD.query (mixedTurns ⟨true, some false, false⟩) (text letterA)).2.filterMap fun it =>
        (Discovery.IORReplySender.run Codec.ulong true true (cStr it.ident) it.obj).2) =
          [replyFrame Codec.ulong letterA 7, replyFrame Codec.ulong letterB 8] := by decide +kernel
    rw [hsent]
    exact .swap ..
  have hmeant : ((repositoryABCD.servants.zipIdx.filter fun x => decide (text letterA = x.1.ident ∨
      (mixedTurns ⟨true, some false, false⟩ x.2).isA = some true)).filterMap fun x =>
        x.1.obj.map fun svc_obj => (⟨cStr x.1.ident, svc_obj⟩ : Discovery.IORReply UInt32)) =
      [⟨letterA, 7⟩, ⟨letterB, 8⟩] := by decide +kernel
  have hlength : repositoryABCD.servants.length = 4 := by rw [hservants]; rfl
  rw [← hmeant]
  exact round_complete Codec.ulong repositoryABCD true true hsend (by decide) hturns hshort (by rw [hlength]; decide)
    (by rw [hlength]; decide) harrived

end Lasagne.Taf.DiscoveryNet
