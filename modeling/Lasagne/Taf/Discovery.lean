import Lasagne.Trans.Run
import Lasagne.Wire.Cdr

/-!
# Lasagne.Taf.Discovery — the two receivers of TAF discovery and their sockets

A socket is a queue of datagrams.  Both receivers first look at the header of the one in front and then take it;
`IORQueryReplyHandler::getIORReply` does so in a loop, and `DiscoveryService::handle_input` once for each call.

* `receive_cons`: which datagrams are taken.
* `drained_iff`: over whole runs, every receive takes a datagram exactly if none was too short, or had a length out
  of range.
-/

namespace Lasagne.Taf.Discovery

open Lasagne.Trans Lasagne.Wire

/-! ## Messages -/

/-- The content of a datagram. -/
abbrev Datagram := List UInt8

/-- `taf::IORQuery`. -/
structure IORQuery where
  svc_port : UInt16
  svc_flags : UInt16
  svc_ident : CString
deriving DecidableEq

/-- `taf::IORReply`, where `ω` is the type of objects. -/
structure IORReply (ω : Type) where
  svc_ident : CString
  svc_obj : ω
deriving DecidableEq

def IORQuery.codec : Codec IORQuery :=
  (Codec.ushort.prod (Codec.ushort.prod Codec.string)).map (fun x => ⟨x.1, x.2.1, x.2.2⟩)
    (fun q => (q.svc_port, q.svc_flags, q.svc_ident)) fun _ => rfl

variable {ω : Type}

/-- `obj` marshals an object. -/
def IORReply.codec (obj : Codec ω) : Codec (IORReply ω) :=
  (Codec.string.prod obj).map (fun x => ⟨x.1, x.2⟩) (fun r => (r.svc_ident, r.svc_obj)) fun _ => rfl

/-! ## Receiving -/

/-- `MIN_IOR_REPLY_LENGTH`, which is `ACE_CDR::MAX_ALIGNMENT`. -/
def minIorReplyLength : ℕ := 8

/-- `MAX_IOR_REPLY_LENGTH`. -/
def maxIorReplyLength : ℕ := 4096

/-- `MAX_IORQUERY_REPLIES`, which is `TAO_DEFAULT_OBJECT_REF_TABLE_SIZE`. -/
def maxIorqueryReplies : ℕ := 1024

/-- `ace_range(lo, hi, val)`. -/
def aceRange (lo hi val : ℕ) : ℕ := min (max lo val) hi

/-- What `recv(buf, n, ..)` copies out of a datagram. -/
def recv (n : ℕ) (d : Datagram) : List UInt8 := d.take n

/-- `io_header`, if four bytes of it are there. -/
def ioHeader (d : Datagram) : Option UInt32 := (Codec.bytes4.read 0 (recv 4 d)).map Prod.fst

/-- `io_len`. -/
def ioLen (io_header : UInt32) : ℕ := 0xFFFF &&& io_header.toNat

/-- The sanity check of both receivers. -/
def inRange (io_len : ℕ) : Bool := aceRange minIorReplyLength maxIorReplyLength io_len = io_len

/-- `getIORReply` reads the length as two numbers, and then a reply. -/
def decodeReply (obj : Codec ω) (io_len : ℕ) (iov : List UInt8) : Option (IORReply ω) := do
  let (_io_flags, iov) ← Codec.ushort.read 0 iov
  let (io_length, iov) ← Codec.ushort.read 2 iov
  if io_len = io_length.toNat then ((IORReply.codec obj).read 4 iov).map Prod.fst else none

/-- One iteration of `getIORReply`. -/
structure Round (ω : Type) where
  queue : List Datagram
  /-- what goes into the sequence of replies -/
  reply : Option (IORReply ω)
  /-- `continue`, and not `break` -/
  goesOn : Bool

/-- The body of the loop, with time left.  `etime`: after a receive that is too short, `last_error()` is `ETIME`,
as an earlier call may have left it. -/
def getIORReplyRound (obj : Codec ω) (etime : Bool) : List Datagram → Round ω
  | [] => ⟨[], none, false⟩
  | d :: rest =>
    match ioHeader d with
    | none => ⟨d :: rest, none, !etime⟩
    | some io_header =>
      let io_len := ioLen io_header
      if inRange io_len then
        if (recv io_len d).length = io_len then ⟨rest, decodeReply obj io_len (recv io_len d), true⟩
        else ⟨rest, none, !etime⟩
      else ⟨d :: rest, none, true⟩

/-- `IORQueryReplyHandler::getIORReply`: a round for every `etime` of the list, after which the time is over. -/
def getIORReply (obj : Codec ω) : List Bool → List (IORReply ω) → List Datagram →
    List (IORReply ω) × List Datagram
  | [], ior_seq, queue => (ior_seq, queue)
  | etime :: etimes, ior_seq, queue =>
    if ior_seq.length < maxIorqueryReplies then
      let r := getIORReplyRound obj etime queue
      if r.goesOn then getIORReply obj etimes (ior_seq ++ r.reply.toList) r.queue
      else (ior_seq ++ r.reply.toList, r.queue)
    else (ior_seq, queue)

/-- `handle_input` reads the length as one number, and then a query. -/
def decodeQuery (io_len : ℕ) (iov : List UInt8) : Option IORQuery := do
  let (iov_len, iov) ← Codec.ulong.read 0 iov
  if io_len = iov_len.toNat then (IORQuery.codec.read 4 iov).map Prod.fst else none

/-- What `handle_input` returns, leaves in the socket and accepts. -/
structure Handled where
  rc : ℤ
  queue : List Datagram
  query : Option IORQuery

/-- `DiscoveryService::handle_input`.  `own`: the handle is that of the service; `after`: the service is active
still when it has gone through the repository. -/
def handleInput (isActive own after : Bool) (queue : List Datagram) : Handled :=
  if isActive then
    if own then
      match queue with
      | [] => ⟨0, [], none⟩
      | d :: rest =>
        match ioHeader d with
        | none => ⟨0, d :: rest, none⟩
        | some io_header =>
          let io_len := ioLen io_header
          if inRange io_len then
            if (recv io_len d).length = io_len then
              match decodeQuery io_len (recv io_len d) with
              | none => ⟨0, rest, none⟩
              | some query => ⟨if after then 0 else -1, rest, some query⟩
            else ⟨0, rest, none⟩
          else ⟨0, d :: rest, none⟩
    else ⟨0, queue, none⟩
  else ⟨-1, queue, none⟩

/-! ## Which datagrams are taken -/

/-- A datagram that has a header, with a length in range. -/
def Readable : Datagram → Prop
  | _ :: _ :: hi :: lo :: _ =>
    minIorReplyLength ≤ hi.toNat * 256 + lo.toNat ∧ hi.toNat * 256 + lo.toNat ≤ maxIorReplyLength
  | _ => False

instance : DecidablePred Readable := fun d =>
  match d with
  | _ :: _ :: _ :: _ :: _ => inferInstanceAs (Decidable (_ ∧ _))
  | [] => inferInstanceAs (Decidable False)
  | [_] => inferInstanceAs (Decidable False)
  | [_, _] => inferInstanceAs (Decidable False)
  | [_, _, _] => inferInstanceAs (Decidable False)

theorem inRange_iff {n : ℕ} : inRange n = true ↔ minIorReplyLength ≤ n ∧ n ≤ maxIorReplyLength := by
  unfold inRange aceRange minIorReplyLength maxIorReplyLength
  rw [decide_eq_true_eq]
  omega

/-- The two high bytes are masked away. -/
theorem ioLen_ofNat (a b c e : UInt8) :
    ioLen (UInt32.ofNat (((a.toNat * 256 + b.toNat) * 256 + c.toNat) * 256 + e.toNat)) =
      c.toNat * 256 + e.toNat := by
  have ha := a.toNat_lt
  have hb := b.toNat_lt
  have hc := c.toNat_lt
  have he := e.toNat_lt
  unfold ioLen
  rw [Nat.and_comm, show (0xFFFF : ℕ) = 2 ^ 16 - 1 by rfl, Nat.and_two_pow_sub_one_eq_mod, UInt32.toNat_ofNat']
  omega

theorem ioHeader_cases (d : Datagram) :
    (ioHeader d = none ∧ ¬ Readable d) ∨
      ∃ io_header, ioHeader d = some io_header ∧ (inRange (ioLen io_header) = true ↔ Readable d) := by
  match d with
  | a :: b :: c :: e :: rest =>
    refine Or.inr ⟨_, rfl, ?_⟩
    rw [inRange_iff, ioLen_ofNat]
    exact Iff.rfl
  | [] => exact Or.inl ⟨rfl, id⟩
  | [_] => exact Or.inl ⟨rfl, id⟩
  | [_, _] => exact Or.inl ⟨rfl, id⟩
  | [_, _, _] => exact Or.inl ⟨rfl, id⟩

theorem getIORReplyRound_queue (obj : Codec ω) (etime : Bool) (d : Datagram) (rest : List Datagram) :
    (getIORReplyRound obj etime (d :: rest)).queue = if Readable d then rest else d :: rest := by
  rcases ioHeader_cases d with ⟨hnone, hnot⟩ | ⟨io_header, hsome, hiff⟩
  · rw [if_neg hnot]
    simp only [getIORReplyRound, hnone]
  · simp only [getIORReplyRound, hsome, hiff]
    split
    · split <;> rfl
    · rfl

/-- Behind a datagram that is not taken, `getIORReply` finds no reply for as long as it has time. -/
theorem getIORReply_stuck (obj : Codec ω) {d : Datagram} (hnot : ¬ Readable d) (etimes : List Bool)
    (ior_seq : List (IORReply ω)) (rest : List Datagram) :
    getIORReply obj etimes ior_seq (d :: rest) = (ior_seq, d :: rest) := by
  have hround : ∀ etime, (getIORReplyRound obj etime (d :: rest)).queue = d :: rest ∧
      (getIORReplyRound obj etime (d :: rest)).reply = none := by
    intro etime
    rcases ioHeader_cases d with ⟨hnone, -⟩ | ⟨io_header, hsome, hiff⟩
    · simp only [getIORReplyRound, hnone, and_self]
    · simp only [getIORReplyRound, hsome, hiff, hnot, if_false, and_self]
  induction etimes with
  | nil => rfl
  | cons etime etimes ih =>
    obtain ⟨hqueue, hreply⟩ := hround etime
    rw [getIORReply]
    dsimp only
    rw [hqueue, hreply, Option.toList_none, List.append_nil, ih, ite_self, ite_self]

theorem handleInput_queue (after : Bool) (d : Datagram) (rest : List Datagram) :
    (handleInput true true after (d :: rest)).queue = if Readable d then rest else d :: rest := by
  rcases ioHeader_cases d with ⟨hnone, hnot⟩ | ⟨io_header, hsome, hiff⟩
  · rw [if_neg hnot]
    simp only [handleInput, hnone, if_true]
  · simp only [handleInput, hsome, hiff, if_true]
    split
    · split
      · split <;> rfl
      · rfl
    · rfl

/-! ## Runs -/

/-- Whose socket it is. -/
inductive Receiver where
  | replyHandler
  | service
deriving DecidableEq, Repr

/-- What one iteration of `getIORReply`, or one `handle_input` of an active service, leaves in the socket; `b` is
what it finds in `last_error()`, or in `isActive()` at its end. -/
def Receiver.receive (obj : Codec ω) (b : Bool) (queue : List Datagram) : Receiver → List Datagram
  | .replyHandler => (getIORReplyRound obj b queue).queue
  | .service => (handleInput true true b queue).queue

inductive Act where
  | arrive (d : Datagram)
  | receive (b : Bool)
deriving DecidableEq, Repr

/-- One step; with nothing there a receive waits. -/
def step (obj : Codec ω) (r : Receiver) (queue : List Datagram) : Act → Option (List Datagram × List Unit)
  | .arrive d => some (queue ++ [d], [])
  | .receive b => if queue = [] then none else some (r.receive obj b queue, [])

/-- A socket, from its opening on. -/
def machine (obj : Codec ω) (r : Receiver) : Machine (List Datagram) Act Unit where
  init := []
  step := step obj r

/-- The datagram that arrives. -/
def Act.arrives : Act → Option Datagram
  | .arrive d => some d
  | .receive _ => none

/-- What has arrived, in order. -/
def arrived (π : List (Taken (List Datagram) Act Unit)) : List Datagram := π.filterMap fun x => x.act.arrives

/-- How many receives there were. -/
def receives (π : List (Taken (List Datagram) Act Unit)) : ℕ := π.countP fun x => x.act.arrives.isNone

variable {obj : Codec ω} {r : Receiver} {π : List (Taken (List Datagram) Act Unit)} {queue : List Datagram}

theorem receive_cons (obj : Codec ω) (r : Receiver) (b : Bool) (d : Datagram) (rest : List Datagram) :
    r.receive obj b (d :: rest) = if Readable d then rest else d :: rest := by
  cases r with
  | replyHandler => exact getIORReplyRound_queue obj b d rest
  | service => exact handleInput_queue b d rest

/-- The first `k` datagrams were taken, and the next one is where the receiver stays. -/
structure Stands (ds : List Datagram) (n k : ℕ) (queue : List Datagram) : Prop where
  le : k ≤ n
  le_length : k ≤ ds.length
  queue_eq : queue = ds.drop k
  taken : ∀ d ∈ ds.take k, Readable d
  stuck : k < n → ∃ d, ds[k]? = some d ∧ ¬ Readable d

theorem Stands.arrive {ds : List Datagram} {n k : ℕ} (h : Stands ds n k queue) (d : Datagram) :
    Stands (ds ++ [d]) n k (queue ++ [d]) := by
  obtain ⟨hle, hlen, hqueue, htaken, hstuck⟩ := h
  refine ⟨hle, ?_, ?_, ?_, fun hlt => ?_⟩
  · rw [List.length_append]
    omega
  · rw [List.drop_append_of_le_length hlen, hqueue]
  · rw [List.take_append_of_le_length hlen]
    exact htaken
  · obtain ⟨e, he, hnot⟩ := hstuck hlt
    exact ⟨e, by rw [List.getElem?_append_left (List.getElem?_eq_some_iff.mp he).1, he], hnot⟩

theorem Stands.receive {ds : List Datagram} {n k : ℕ} (h : Stands ds n k queue) (hne : queue ≠ []) (b : Bool) :
    ∃ k', Stands ds (n + 1) k' (r.receive obj b queue) := by
  obtain ⟨hle, hlen, hqueue, htaken, hstuck⟩ := h
  have hlt : k < ds.length := by
    by_contra hge
    rw [List.drop_eq_nil_of_le (by omega)] at hqueue
    exact hne hqueue
  rw [hqueue, List.drop_eq_getElem_cons hlt, receive_cons]
  split
  · next hread =>
    -- only where it did not stand still before
    have hkn : k = n := by
      by_contra hkn
      obtain ⟨d, hd, hnot⟩ := hstuck (by omega)
      exact hnot ((List.getElem?_eq_some_iff.mp hd).2 ▸ hread)
    refine ⟨k + 1, by omega, hlt, rfl, ?_, fun habs => by omega⟩
    intro d hd
    rw [List.take_succ_eq_append_getElem hlt, List.mem_append, List.mem_singleton] at hd
    rcases hd with hd | rfl
    · exact htaken d hd
    · exact hread
  · next hnot =>
    refine ⟨k, by omega, hlen, (List.drop_eq_getElem_cons hlt).symm, htaken, fun _ => ?_⟩
    exact ⟨_, List.getElem?_eq_getElem hlt, hnot⟩

theorem stands_of_run (hr : Run (machine obj r) π queue) : ∃ k, Stands (arrived π) (receives π) k queue := by
  induction hr with
  | start => exact ⟨0, le_rfl, le_rfl, rfl, fun d hd => (by cases hd), fun h => (by cases h)⟩
  | @snoc π q q' a es _ hstep ih =>
    obtain ⟨k, hk⟩ := ih
    unfold arrived receives at hk ⊢
    rw [List.filterMap_append, List.countP_append]
    cases a with
    | arrive d =>
      obtain ⟨rfl, -⟩ := Prod.mk.inj (Option.some.inj hstep)
      exact ⟨k, hk.arrive d⟩
    | receive b =>
      have hstep' : (if q = [] then none else some (r.receive obj b q, ([] : List Unit))) = some (q', es) := hstep
      split at hstep'
      · cases hstep'
      · next hne =>
        obtain ⟨rfl, -⟩ := Prod.mk.inj (Option.some.inj hstep')
        have hnil : List.filterMap (fun x : Taken (List Datagram) Act Unit => x.act.arrives)
            [⟨q, .receive b, es⟩] = [] := rfl
        rw [hnil, List.append_nil]
        exact hk.receive hne b

/-- **Progress.**  In every run of a socket, and for both receivers: each receive has taken the datagram in front,
exactly if none of the datagrams that they found there was shorter than a header or had a length out of range. -/
theorem drained_iff (hr : Run (machine obj r) π queue) :
    queue = (arrived π).drop (receives π) ↔ ∀ d ∈ (arrived π).take (receives π), Readable d := by
  obtain ⟨k, hle, hlen, hqueue, htaken, hstuck⟩ := stands_of_run hr
  rcases Nat.eq_or_lt_of_le hle with rfl | hlt
  · exact iff_of_true hqueue htaken
  · obtain ⟨d, hd, hnot⟩ := hstuck hlt
    obtain ⟨hk, hget⟩ := List.getElem?_eq_some_iff.mp hd
    refine iff_of_false (fun heq => ?_) fun hall => hnot (hall d ?_)
    · have hlength := congrArg List.length (hqueue.symm.trans heq)
      rw [List.length_drop, List.length_drop] at hlength
      omega
    · exact List.mem_take_iff_getElem.mpr ⟨k, by omega, hget⟩

/-- A datagram whose length is not its own, and one that is all zeros behind its length, are both taken. -/
theorem drained_iff_two : ∃ (π : List (Taken (List Datagram) Act Unit)) (queue : List Datagram),
    Run (machine Codec.ulong .replyHandler) π queue ∧ queue = [] ∧ receives π = 2 ∧
    (queue = (arrived π).drop (receives π) ↔ ∀ d ∈ (arrived π).take (receives π), Readable d) := by
  obtain ⟨π, queue, hr, hp⟩ := exists_run_of_replay (M := machine Codec.ulong .replyHandler)
    (p := fun (π : List (Taken (List Datagram) Act Unit)) (queue : List Datagram) =>
      decide (queue = [] ∧ receives π = 2))
    [.arrive [0, 0, 0, 8], .arrive [0, 0, 0, 9, 0, 0, 0, 0, 0], .receive true, .receive false] (by decide +kernel)
  obtain ⟨hnil, htwo⟩ := of_decide_eq_true hp
  exact ⟨π, queue, hr, hnil, htwo, drained_iff hr⟩

/-- An empty datagram stops the service, and one with the length zero the other receiver: whatever they do, what
came behind it is not received. -/
theorem drained_fails_two :
    (∃ (π : List (Taken (List Datagram) Act Unit)) (queue : List Datagram), Run (machine Codec.ulong .service) π queue ∧
      queue = [[], [0, 0, 0, 8, 0, 80, 0, 0]] ∧ receives π = 2 ∧ queue ≠ (arrived π).drop (receives π)) ∧
    ∃ (π : List (Taken (List Datagram) Act Unit)) (queue : List Datagram),
      Run (machine Codec.ulong .replyHandler) π queue ∧ queue = [[0, 0, 0, 0], [0, 0, 0, 9, 0, 0, 0, 0, 0]] ∧
      receives π = 2 ∧ queue ≠ (arrived π).drop (receives π) := by
  constructor
  · obtain ⟨π, queue, hr, hp⟩ := exists_run_of_replay (M := machine Codec.ulong .service)
      (p := fun (π : List (Taken (List Datagram) Act Unit)) (queue : List Datagram) =>
        decide (queue = [[], [0, 0, 0, 8, 0, 80, 0, 0]] ∧ receives π = 2 ∧ queue ≠ (arrived π).drop (receives π)))
      [.arrive [], .arrive [0, 0, 0, 8, 0, 80, 0, 0], .receive true, .receive true] (by decide +kernel)
    obtain ⟨hqueue, htwo, hne⟩ := of_decide_eq_true hp
    exact ⟨π, queue, hr, hqueue, htwo, hne⟩
  · obtain ⟨π, queue, hr, hp⟩ := exists_run_of_replay (M := machine Codec.ulong .replyHandler)
      (p := fun (π : List (Taken (List Datagram) Act Unit)) (queue : List Datagram) =>
        decide (queue = [[0, 0, 0, 0], [0, 0, 0, 9, 0, 0, 0, 0, 0]] ∧ receives π = 2 ∧
          queue ≠ (arrived π).drop (receives π)))
      [.arrive [0, 0, 0, 0], .arrive [0, 0, 0, 9, 0, 0, 0, 0, 0], .receive false, .receive false] (by decide +kernel)
    obtain ⟨hqueue, htwo, hne⟩ := of_decide_eq_true hp
    exact ⟨π, queue, hr, hqueue, htwo, hne⟩

end Lasagne.Taf.Discovery
