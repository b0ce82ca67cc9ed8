import Lasagne.Taf.Discovery

/-!
# Lasagne.Taf.DiscoveryFraming — what the senders of TAF discovery frame, and who can read it

`DiscoveryHandler::sendIORQuery` and `IORReplySender::run` put one length in front of what they marshal, and the
receivers read it as they like.

* `handleInput_frame`, `getIORReplyRound_frame`: a frame comes through if its length is at most
  `MAX_IOR_REPLY_LENGTH`, and only then.
* `framing_iff`: which queries and replies that were sent are accepted.
-/

namespace Lasagne.Taf.Discovery

open Lasagne.Wire

variable {ω : Type}

/-! ## Sending -/

/-- What an `OutputCDR` holds once the length has replaced its placeholder: `body` was marshalled behind four
bytes. -/
def frame (body : List UInt8) : Datagram := Codec.bytes4.write 0 (UInt32.ofNat (4 + body.length)) ++ body

/-- The socket takes the datagram; `up`: nothing else is wrong. -/
def taken (up : Bool) (d : Datagram) : Bool := up && decide (d.length ≤ 65507)

/-- The frame of a query. -/
def queryFrame (svc_port : UInt16) (svc_ident : CString) : Datagram :=
  frame (IORQuery.codec.write 4 ⟨svc_port, 0, svc_ident⟩)

/-- The frame of a reply. -/
def replyFrame (obj : Codec ω) (svc_ident : CString) (svc_obj : ω) : Datagram :=
  frame ((IORReply.codec obj).write 4 ⟨svc_ident, svc_obj⟩)

/-- `DiscoveryHandler::sendIORQuery`: what it returns, and what it has sent. -/
def sendIORQuery (up : Bool) (replyPort : UInt16) (svc_ident : Option CString) : ℤ × Option Datagram :=
  match svc_ident with
  | none => (-1, none)
  | some svc_ident =>
    if 0 < svc_ident.bytes.length then
      if taken up (queryFrame replyPort svc_ident) then (0, some (queryFrame replyPort svc_ident)) else (-1, none)
    else (-1, none)

/-- `IORReplySender::run`; `opened`: the socket could be opened.  A send that fails is reported, and no more. -/
def IORReplySender.run (obj : Codec ω) (opened up : Bool) (ident : CString) (servant : Option ω) :
    ℤ × Option Datagram :=
  match servant with
  | none => (-1, none)
  | some svc_obj =>
    if opened then
      (0, if taken up (replyFrame obj ident svc_obj) then some (replyFrame obj ident svc_obj) else none)
    else (-1, none)

/-! ## Receiving what was sent -/

theorem length_frame (body : List UInt8) : (frame body).length = 4 + body.length := by
  unfold frame
  rw [List.length_append]
  rfl

theorem length_queryFrame (svc_port : UInt16) (svc_ident : CString) :
    (queryFrame svc_port svc_ident).length = 13 + svc_ident.bytes.length := by
  unfold queryFrame
  rw [length_frame]
  simp [IORQuery.codec, Codec.map, Codec.prod, Codec.ushort, Codec.string, Codec.ulong, Codec.aligned, Codec.bytes2,
    Codec.bytes4, padding]
  omega

theorem length_replyFrame (obj : Codec ω) (svc_ident : CString) (svc_obj : ω) :
    minIorReplyLength ≤ (replyFrame obj svc_ident svc_obj).length := by
  unfold replyFrame
  rw [length_frame]
  simp [IORReply.codec, Codec.map, Codec.prod, Codec.string, Codec.ulong, Codec.aligned, Codec.bytes4, padding,
    minIorReplyLength]
  omega

theorem ioHeader_frame (body : List UInt8) : ioHeader (frame body) = some (UInt32.ofNat (4 + body.length)) := by
  have hread := Codec.bytes4_read_write 0 (UInt32.ofNat (4 + body.length)) []
  rw [List.append_nil] at hread
  have htake : recv 4 (frame body) = Codec.bytes4.write 0 (UInt32.ofNat (4 + body.length)) := List.take_left' rfl
  unfold ioHeader
  rw [htake, hread]
  rfl

theorem ioLen_frame {body : List UInt8} (hlt : 4 + body.length < 2 ^ 16) :
    ioLen (UInt32.ofNat (4 + body.length)) = (frame body).length := by
  rw [length_frame]
  unfold ioLen
  rw [Nat.and_comm, show (0xFFFF : ℕ) = 2 ^ 16 - 1 by rfl, Nat.and_two_pow_sub_one_eq_mod, UInt32.toNat_ofNat']
  omega

theorem recv_frame (body : List UInt8) : recv (frame body).length (frame body) = frame body := List.take_length

theorem decodeQuery_frame {q : IORQuery} (hlt : (frame (IORQuery.codec.write 4 q)).length < 2 ^ 32) :
    decodeQuery (frame (IORQuery.codec.write 4 q)).length (frame (IORQuery.codec.write 4 q)) = some q := by
  rw [length_frame] at hlt
  have hlength : (frame (IORQuery.codec.write 4 q)).length =
      (UInt32.ofNat (4 + (IORQuery.codec.write 4 q).length)).toNat := by
    rw [length_frame, UInt32.toNat_ofNat', Nat.mod_eq_of_lt hlt]
  have hulong : Codec.ulong.read 0 (frame (IORQuery.codec.write 4 q)) =
      some (UInt32.ofNat (4 + (IORQuery.codec.write 4 q).length), IORQuery.codec.write 4 q) :=
    Codec.ulong_read_write 0 _ _
  have hquery := IORQuery.codec.read_write 4 q [] (by omega)
  rw [List.append_nil] at hquery
  simp only [decodeQuery, hulong, Option.bind_eq_bind, Option.bind_some, hlength, if_true, hquery, Option.map_some]

theorem decodeReply_frame {obj : Codec ω} {r : IORReply ω}
    (hlt : (frame ((IORReply.codec obj).write 4 r)).length < 2 ^ 16) :
    decodeReply obj (frame ((IORReply.codec obj).write 4 r)).length (frame ((IORReply.codec obj).write 4 r)) =
      some r := by
  rw [length_frame] at hlt
  generalize hbody : (IORReply.codec obj).write 4 r = body at hlt ⊢
  have hlength : (frame body).length = (UInt16.ofNat (4 + body.length)).toNat := by
    rw [length_frame, UInt16.toNat_ofNat', Nat.mod_eq_of_lt hlt]
  have hsplit : frame body = Codec.ushort.write 0 (UInt16.ofNat ((4 + body.length) / 2 ^ 16)) ++
      (Codec.ushort.write 2 (UInt16.ofNat (4 + body.length)) ++ body) := by
    unfold frame
    rw [Codec.bytes4_eq, List.append_assoc]
    rfl
  have hflags := Codec.ushort_read_write 0 (UInt16.ofNat ((4 + body.length) / 2 ^ 16))
    (Codec.ushort.write 2 (UInt16.ofNat (4 + body.length)) ++ body)
  have hlen := Codec.ushort_read_write 2 (UInt16.ofNat (4 + body.length)) body
  have hreply := (IORReply.codec obj).read_write 4 r [] (by rw [hbody]; omega)
  rw [List.append_nil, hbody] at hreply
  rw [hlength, hsplit]
  simp only [decodeReply, hflags, hlen, hreply, Option.bind_eq_bind, Option.bind_some, if_true, Option.map_some]

/-- A query comes through `handle_input` if its frame is in range, and only then. -/
theorem handleInput_frame (after : Bool) {q : IORQuery} (rest : List Datagram)
    (hlt : (frame (IORQuery.codec.write 4 q)).length < 2 ^ 16) :
    (handleInput true true after (frame (IORQuery.codec.write 4 q) :: rest)).query = some q ↔
      inRange (frame (IORQuery.codec.write 4 q)).length = true := by
  have hbody : 4 + (IORQuery.codec.write 4 q).length < 2 ^ 16 := by rwa [length_frame] at hlt
  have hlen := ioLen_frame hbody
  have hdecode := decodeQuery_frame (q := q) (by omega)
  simp only [handleInput, ioHeader_frame, hlen, recv_frame, if_true]
  split
  · next hrange =>
    rw [hdecode]
    exact iff_of_true rfl hrange
  · next hrange => exact iff_of_false (fun heq => by cases heq) hrange

/-- A reply comes through `getIORReply` if its frame is in range, and only then. -/
theorem getIORReplyRound_frame (obj : Codec ω) (etime : Bool) {r : IORReply ω} (rest : List Datagram)
    (hlt : (frame ((IORReply.codec obj).write 4 r)).length < 2 ^ 16) :
    (getIORReplyRound obj etime (frame ((IORReply.codec obj).write 4 r) :: rest)).reply = some r ↔
      inRange (frame ((IORReply.codec obj).write 4 r)).length = true := by
  have hbody : 4 + ((IORReply.codec obj).write 4 r).length < 2 ^ 16 := by rwa [length_frame] at hlt
  have hlen := ioLen_frame hbody
  have hdecode := decodeReply_frame hlt
  simp only [getIORReplyRound, ioHeader_frame, hlen, recv_frame, if_true]
  split
  · next hrange => exact iff_of_true hdecode hrange
  · next hrange => exact iff_of_false (fun heq => by cases heq) hrange

/-- What was sent fits a datagram. -/
theorem lt_of_taken {up : Bool} {d : Datagram} (h : taken up d = true) : d.length < 2 ^ 16 := by
  have hle := of_decide_eq_true (Bool.and_eq_true_iff.mp h).2
  omega

/-- A query that was sent is accepted, with what it was sent with, exactly if its identifier is not too long. -/
theorem sendIORQuery_iff {up : Bool} (after : Bool) {svc_port : UInt16} {svc_ident : CString} {d : Datagram}
    (rest : List Datagram) (hsend : sendIORQuery up svc_port (some svc_ident) = (0, some d)) :
    (handleInput true true after (d :: rest)).query = some ⟨svc_port, 0, svc_ident⟩ ↔
      svc_ident.bytes.length ≤ 4083 := by
  simp only [sendIORQuery] at hsend
  split at hsend
  · next hpos =>
    split at hsend
    · next htaken =>
      obtain rfl : queryFrame svc_port svc_ident = d := by
        simpa using hsend
      have hlength := length_queryFrame svc_port svc_ident
      unfold queryFrame at htaken hlength ⊢
      rw [handleInput_frame after rest (lt_of_taken htaken), inRange_iff, hlength]
      unfold minIorReplyLength maxIorReplyLength
      omega
    · simp at hsend
  · simp at hsend

/-- A reply that was sent is accepted, with what it was sent with, exactly if its frame is not too long. -/
theorem run_iff {obj : Codec ω} {opened up : Bool} (etime : Bool) {svc_ident : CString} {svc_obj : ω} {d : Datagram}
    (rest : List Datagram) (hrun : IORReplySender.run obj opened up svc_ident (some svc_obj) = (0, some d)) :
    (getIORReplyRound obj etime (d :: rest)).reply = some ⟨svc_ident, svc_obj⟩ ↔
      4 + ((IORReply.codec obj).write 4 ⟨svc_ident, svc_obj⟩).length ≤ maxIorReplyLength := by
  simp only [IORReplySender.run] at hrun
  split at hrun
  · split at hrun
    · next htaken =>
      obtain rfl : replyFrame obj svc_ident svc_obj = d := by
        simpa using hrun
      have hmin := length_replyFrame obj svc_ident svc_obj
      unfold replyFrame at htaken hmin ⊢
      rw [getIORReplyRound_frame obj etime rest (lt_of_taken htaken), inRange_iff]
      rw [length_frame] at hmin ⊢
      exact and_iff_right hmin
    · simp at hrun
  · simp at hrun

/-- **Framing.**  A query that was sent with the return value `0` is accepted by `handle_input`, with the port and
the identifier that it was sent with, exactly if the identifier has at most 4083 bytes; a reply that was sent is
accepted by `getIORReply`, with the identifier and the object that it was sent with, exactly if its frame has at
most `MAX_IOR_REPLY_LENGTH` bytes. -/
theorem framing_iff (obj : Codec ω) :
    (∀ (up after : Bool) (svc_port : UInt16) (svc_ident : CString) (d : Datagram) (rest : List Datagram),
      sendIORQuery up svc_port (some svc_ident) = (0, some d) →
      ((handleInput true true after (d :: rest)).query = some ⟨svc_port, 0, svc_ident⟩ ↔
        svc_ident.bytes.length ≤ 4083)) ∧
    ∀ (opened up etime : Bool) (svc_ident : CString) (svc_obj : ω) (d : Datagram) (rest : List Datagram),
      IORReplySender.run obj opened up svc_ident (some svc_obj) = (0, some d) →
      ((getIORReplyRound obj etime (d :: rest)).reply = some ⟨svc_ident, svc_obj⟩ ↔
        4 + ((IORReply.codec obj).write 4 ⟨svc_ident, svc_obj⟩).length ≤ maxIorReplyLength) :=
  ⟨fun _ after _ _ _ rest hsend => sendIORQuery_iff after rest hsend,
    fun _ _ etime _ _ _ rest hrun => run_iff etime rest hrun⟩

/-- A query and a reply of one letter, where the object is a number. -/
theorem framing_iff_one :
    (handleInput true true true [queryFrame 9000 ⟨[65], by decide⟩]).query = some ⟨9000, 0, ⟨[65], by decide⟩⟩ ∧
    (getIORReplyRound Codec.ulong true [replyFrame Codec.ulong ⟨[65], by decide⟩ 7]).reply =
      some ⟨⟨[65], by decide⟩, 7⟩ := by
  have h := framing_iff Codec.ulong
  constructor
  · exact (h.1 true true 9000 ⟨[65], by decide⟩ _ [] (by decide)).mpr (by decide)
  · exact (h.2 true true true ⟨[65], by decide⟩ 7 _ [] (by decide)).mpr (by decide)

/-- An identifier of 4084 letters is sent, and not accepted. -/
theorem framing_fails_4084 : ∃ (svc_ident : CString) (d : Datagram), svc_ident.bytes = List.replicate 4084 65 ∧
    sendIORQuery true 9000 (some svc_ident) = (0, some d) ∧
    (handleInput true true true [d]).query ≠ some ⟨9000, 0, svc_ident⟩ := by
  have hnul : (0 : UInt8) ∉ List.replicate 4084 65 := by
    rw [List.mem_replicate]
    decide
  have hlength : (⟨List.replicate 4084 65, hnul⟩ : CString).bytes.length = 4084 := List.length_replicate
  have hsend : sendIORQuery true 9000 (some ⟨List.replicate 4084 65, hnul⟩) =
      (0, some (queryFrame 9000 ⟨List.replicate 4084 65, hnul⟩)) := by
    unfold sendIORQuery taken
    dsimp only
    rw [length_queryFrame, hlength]
    rfl
  refine ⟨⟨List.replicate 4084 65, hnul⟩, _, rfl, hsend, fun hquery => ?_⟩
  have hle := (sendIORQuery_iff true [] hsend).mp hquery
  omega

end Lasagne.Taf.Discovery
