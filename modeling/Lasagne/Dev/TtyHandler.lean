import Lasagne.Trans.Run
import Lasagne.Dev.TtyDevice

/-!
# Lasagne.Dev.TtyHandler — `DEV::TTY_Handler`, and the I/O permits of its streams

The handler starts a transfer of a stream with the permit of that stream in hand, and its four completion
members are where the permit is to be given back.  The steps are those of the application and of the device at
either stream, the completions in any order, successful or failed, and what opens and closes the handler.

* `permits_of_run`: every permit is there, in a transfer, or was lost in a completion that did nothing.
* `permit_iff`: a stream without a transfer has its permit unless a completion failed, or found the handler
  inactive.
-/

namespace Lasagne.Dev.TtyHandler

open Lasagne.Trans TtyDevice

/-- `TTY_Stream::DEFAULT_TXSTREAM_SIZE`. -/
def defaultTxstreamSize : ℕ := 512

/-- `TTY_Stream::DEFAULT_RXSTREAM_SIZE`. -/
def defaultRxstreamSize : ℕ := defaultTxstreamSize * 4

/-- The handler: `read_stream` is the stream `.rx` and `write_stream` the stream `.tx`, each with the transfers
that are outstanding. -/
structure Handler where
  isAvailable : Bool
  handler_active : Bool
  stream : Dir → World
  stream_active_ : Dir → Bool

/-- `TTY_Handler::is_active`. -/
def Handler.isActive (h : Handler) : Bool := h.isAvailable && h.handler_active

/-- What `process_input` or `process_output` of a derived handler does. -/
structure Hook where
  /-- its calls of `get`, `get_bump`, `put` and `put_bump` -/
  calls : List TtyDevice.Act
  throws : Bool

/-- A step that a hook can take. -/
def byHook : TtyDevice.Act → Bool
  | .get .. => true
  | .put .. => true
  | _ => false

/-- The calls of a hook, in order. -/
def runHook (dir : Dir) : List TtyDevice.Act → World → Option World
  | [], w => some w
  | a :: calls, w => if byHook a then (TtyDevice.step dir w a).bind fun r => runHook dir calls r.1 else none

/-- The result of an asynchronous operation. -/
structure Result where
  success : Bool
  bytes_transferred : ℕ

/-- `recv_notify`, `process_input` and `signal_reader`, or their siblings; an exception of the hook is caught
after the permit has been given back.  `device`: the device takes the next transfer. -/
def notified (dir : Dir) (live device : Bool) (hook : Hook) (n : ℕ) (w : World) : Option World :=
  (runHook dir hook.calls { w with stream := dir.notify w.stream n }).map fun w' =>
    if hook.throws then w' else w'.started (dir.signal live device w'.stream)

/-- The body of the four completion members. -/
def handle (dir : Dir) (h : Handler) (result : Result) (hook : Hook) (device : Bool) : Option Handler :=
  if result.success && h.isActive then
    (notified dir (h.stream_active_ dir) device hook result.bytes_transferred (h.stream dir)).map fun w =>
      { h with stream := Function.update h.stream dir w }
  else some h

/-- `TTY_Handler::handle_read_stream`. -/
def handleReadStream := handle .rx

/-- `TTY_Handler::handle_read_file`. -/
def handleReadFile := handle .rx

/-- `TTY_Handler::handle_write_stream`. -/
def handleWriteStream := handle .tx

/-- `TTY_Handler::handle_write_file`. -/
def handleWriteFile := handle .tx

/-- The member that a completion comes to. -/
inductive Member where
  | readStream
  | readFile
  | writeStream
  | writeFile
deriving DecidableEq, Repr

/-- The stream that it is about. -/
def Member.dir : Member → Dir
  | .readStream => .rx
  | .readFile => .rx
  | .writeStream => .tx
  | .writeFile => .tx

def Member.run : Member → Handler → Result → Hook → Bool → Option Handler
  | .readStream => handleReadStream
  | .readFile => handleReadFile
  | .writeStream => handleWriteStream
  | .writeFile => handleWriteFile

inductive Act where
  /-- a step of `open_stream`, `read_data` or `write_data`, or of the device -/
  | use (dir : Dir) (a : TtyDevice.Act)
  /-- the transfer number `i` of the stream ends -/
  | complete (m : Member) (i : ℕ) (result : Result) (hook : Hook) (device : Bool)
  /-- `handler_active = true`, in `open` and in `svc` -/
  | activate
  /-- `handler_active = false`, at the end of `svc` -/
  | deactivate
  /-- `close` of the handler and of its streams -/
  | close
  /-- the executor becomes available or stops to be -/
  | setAvailable (b : Bool)

/-- A `signal` member asks its stream whether it is active; completions come to the handler only. -/
def usable (live : Bool) : TtyDevice.Act → Bool
  | .signal live' _ => live' == live
  | .complete .. => false
  | _ => true

/-- A transfer is no longer outstanding. -/
def Handler.ended (h : Handler) (dir : Dir) (i : ℕ) : Handler :=
  { h with
    stream := Function.update h.stream dir { h.stream dir with pending := (h.stream dir).pending.eraseIdx i } }

/-- One step. -/
def step (h : Handler) : Act → Option (Handler × List Unit)
  | .use dir a =>
    if usable (h.stream_active_ dir) a then
      (TtyDevice.step dir (h.stream dir) a).map fun r => ({ h with stream := Function.update h.stream dir r.1 }, [])
    else none
  | .complete m i result hook device =>
    match (h.stream m.dir).pending[i]? with
    | none => none
    | some t =>
      if result.bytes_transferred ≤ t.len then
        (m.run (h.ended m.dir i) result hook device).map fun h' => (h', [])
      else none
  | .activate => some ({ h with handler_active := true }, [])
  | .deactivate => some ({ h with handler_active := false }, [])
  | .close => some ({ h with handler_active := false, stream_active_ := fun _ => false }, [])
  | .setAvailable b => some ({ h with isAvailable := b }, [])

/-- The size that the constructor gives a stream. -/
def defaultSize : Dir → ℕ
  | .rx => defaultRxstreamSize
  | .tx => defaultTxstreamSize

/-- `TTY_Handler::TTY_Handler`. -/
def new (junk : Dir → ℕ → UInt8) : Handler where
  isAvailable := true
  handler_active := false
  stream dir := ⟨TtyStream.new (defaultSize dir) (junk dir), []⟩
  stream_active_ _ := true

def machine (junk : Dir → ℕ → UInt8) : Machine Handler Act Unit where
  init := new junk
  step := step

/-! ## What a step of a stream leaves alone -/

/-- The permits of a stream: those in the semaphore and those that its transfers hold. -/
def permits (w : World) : ℕ := w.stream.b_sema_ + w.pending.length

/-- Two states of a stream have the same size and the same permits. -/
structure Frame (w w' : World) : Prop where
  size_eq : w'.stream.size_ = w.stream.size_
  permits_eq : permits w' = permits w

variable {dir : Dir} {w w' : World} {h h' : Handler} {es : List Unit}

theorem Frame.refl (w : World) : Frame w w := ⟨rfl, rfl⟩

theorem Frame.trans {w'' : World} (h₁ : Frame w w') (h₂ : Frame w' w'') : Frame w w'' :=
  ⟨h₂.size_eq.trans h₁.size_eq, h₂.permits_eq.trans h₁.permits_eq⟩

theorem putBump_frame (n : ℕ) (s : TtyStream) :
    (TtyStream.putBump n s).2.size_ = s.size_ ∧ (TtyStream.putBump n s).2.b_sema_ = s.b_sema_ := by
  induction n generalizing s with
  | zero => exact ⟨rfl, rfl⟩
  | succ n ih =>
    rw [TtyStream.putBump]
    split
    · exact ⟨rfl, rfl⟩
    · exact ih { s with head_ := (s.head_ + 1) % s.size_ }

theorem getBump_frame (n : ℕ) (s : TtyStream) :
    (TtyStream.getBump n s).2.size_ = s.size_ ∧ (TtyStream.getBump n s).2.b_sema_ = s.b_sema_ := by
  induction n generalizing s with
  | zero => exact ⟨rfl, rfl⟩
  | succ n ih =>
    rw [TtyStream.getBump]
    split
    · exact ⟨rfl, rfl⟩
    · exact ih { s with tail_ := (s.tail_ + 1) % s.size_ }

theorem put_frame {fuel n : ℕ} {s s' : TtyStream} {iov_buf : Option (ℕ → UInt8)} {iov_len : ℤ}
    (hput : s.put fuel iov_buf iov_len = some (n, s')) : s'.size_ = s.size_ ∧ s'.b_sema_ = s.b_sema_ := by
  unfold TtyStream.put at hput
  split at hput
  · obtain ⟨-, rfl⟩ := Prod.mk.inj (Option.some.inj hput)
    exact ⟨rfl, rfl⟩
  · split at hput
    · obtain ⟨r, -, hr⟩ := Option.map_eq_some_iff.mp hput
      obtain ⟨-, rfl⟩ := Prod.mk.inj hr
      exact ⟨rfl, rfl⟩
    · obtain ⟨-, rfl⟩ := Prod.mk.inj (Option.some.inj hput)
      exact ⟨rfl, rfl⟩

theorem rewind_frame (s : TtyStream) : s.rewind.size_ = s.size_ ∧ s.rewind.b_sema_ = s.b_sema_ - 1 := by
  unfold TtyStream.rewind
  dsimp only
  split <;> exact ⟨rfl, rfl⟩

/-- `start` gives its permit to a transfer, or back. -/
theorem started_frame {s : TtyStream} (hsize : s.size_ = w.stream.size_) (hsema : s.b_sema_ = w.stream.b_sema_ - 1)
    (hne : w.stream.b_sema_ ≠ 0) (live device : Bool) (i : ℕ) (io_len : ℤ) :
    Frame w (w.started (TtyStream.start live device i io_len s)) := by
  rcases start_cases live device i io_len s with ⟨len, heq, -⟩ | heq
  · rw [heq]
    refine ⟨hsize, ?_⟩
    simp only [permits, World.started, Option.map_some, Option.toList_some, List.length_append,
      List.length_singleton]
    omega
  · rw [heq]
    refine ⟨hsize, ?_⟩
    simp only [permits, World.started, Option.map_none, Option.toList_none, List.append_nil]
    omega

theorem signal_frame (dir : Dir) (live device : Bool) (w : World) :
    Frame w (w.started (dir.signal live device w.stream)) := by
  have hnone : Frame w (w.started (w.stream, none)) := by
    simpa [World.started] using Frame.refl w
  have hrewind := rewind_frame w.stream
  cases dir with
  | rx =>
    simp only [Dir.signal, TtyStream.signalReader]
    split
    · exact hnone
    · next hfree => exact started_frame hrewind.1 hrewind.2 (not_or.mp hfree).2 _ _ _ _
  | tx =>
    simp only [Dir.signal, TtyStream.signalWriter]
    split
    · exact hnone
    · next hfree => exact started_frame hrewind.1 hrewind.2 (not_or.mp hfree).2 _ _ _ _

/-- Only a completion can lose a permit. -/
theorem step_frame {live : Bool} {a : TtyDevice.Act} (ha : usable live a = true)
    (hs : TtyDevice.step dir w a = some (w', es)) : Frame w w' := by
  cases a with
  | get fuel iov_buf iov_len =>
    simp only [TtyDevice.step] at hs
    split at hs
    · obtain ⟨⟨n, out⟩, -, heq⟩ := Option.map_eq_some_iff.mp hs
      obtain ⟨rfl, -⟩ := Prod.mk.inj heq
      obtain ⟨hsize, hsema⟩ := getBump_frame n w.stream
      exact ⟨hsize, congrArg (· + w.pending.length) hsema⟩
    · cases hs
  | put fuel iov_buf iov_len =>
    simp only [TtyDevice.step] at hs
    split at hs
    · obtain ⟨⟨n, s⟩, hput, heq⟩ := Option.map_eq_some_iff.mp hs
      obtain ⟨rfl, -⟩ := Prod.mk.inj heq
      obtain ⟨hsize, hsema⟩ := putBump_frame n s
      obtain ⟨hsize', hsema'⟩ := put_frame hput
      exact ⟨hsize.trans hsize', congrArg (· + w.pending.length) (hsema.trans hsema')⟩
    · cases hs
  | signal live' device =>
    obtain ⟨rfl, -⟩ := Prod.mk.inj (Option.some.inj hs)
    exact signal_frame dir live' device w
  | store i j byte =>
    simp only [TtyDevice.step] at hs
    split at hs
    · cases hs
    · split at hs
      · obtain ⟨rfl, -⟩ := Prod.mk.inj (Option.some.inj hs)
        exact ⟨rfl, rfl⟩
      · cases hs
  | complete i n => cases ha

theorem runHook_frame (calls : List TtyDevice.Act) (hrun : runHook dir calls w = some w') : Frame w w' := by
  induction calls generalizing w with
  | nil =>
    obtain rfl := Option.some.inj hrun
    exact Frame.refl w
  | cons a calls ih =>
    rw [runHook] at hrun
    split at hrun
    · next ha =>
      obtain ⟨⟨w₁, es⟩, hstep, hrest⟩ := Option.bind_eq_some_iff.mp hrun
      have husable : usable true a = true := by
        cases a <;> first | rfl | cases ha
      exact (step_frame husable hstep).trans (ih hrest)
    · cases hrun

theorem notify_frame (dir : Dir) (s : TtyStream) (n : ℕ) :
    (dir.notify s n).size_ = s.size_ ∧ (dir.notify s n).b_sema_ = s.b_sema_ + 1 := by
  cases dir with
  | rx =>
    obtain ⟨hsize, hsema⟩ := putBump_frame n s
    simp only [Dir.notify, TtyStream.recvNotify]
    split
    · exact ⟨hsize, congrArg (· + 1) hsema⟩
    · exact ⟨rfl, rfl⟩
  | tx =>
    obtain ⟨hsize, hsema⟩ := getBump_frame n s
    simp only [Dir.notify, TtyStream.sendNotify]
    split
    · exact ⟨hsize, congrArg (· + 1) hsema⟩
    · exact ⟨rfl, rfl⟩

/-- A completion that is acted on gives its permit back. -/
theorem notified_frame {live device : Bool} {hook : Hook} {n : ℕ}
    (hs : notified dir live device hook n w = some w') :
    w'.stream.size_ = w.stream.size_ ∧ permits w' = permits w + 1 := by
  obtain ⟨w₁, hrun, heq⟩ := Option.map_eq_some_iff.mp hs
  obtain ⟨hsize, hsema⟩ := notify_frame dir w.stream n
  have hframe : Frame w₁ w' := by
    rw [← heq]
    split
    · exact Frame.refl w₁
    · exact signal_frame dir live device w₁
  have hall := (runHook_frame hook.calls hrun).trans hframe
  refine ⟨hall.size_eq.trans hsize, hall.permits_eq.trans ?_⟩
  simp only [permits, hsema]
  omega

/-! ## What a step of the handler does to a stream -/

/-- A completion for the stream `dir` is acted on. -/
def Acted (dir : Dir) (h : Handler) : Act → Prop
  | .complete m _ result _ _ => m.dir = dir → result.success = true ∧ h.isActive = true
  | _ => True

/-- What the step `a` does to the stream `dir`. -/
inductive Move (dir : Dir) (h : Handler) : Act → World → Prop
  | stay {a : Act} : Acted dir h a → Move dir h a (h.stream dir)
  | use {a : TtyDevice.Act} {live : Bool} {w : World} {es : List Unit} : usable live a = true →
      TtyDevice.step dir (h.stream dir) a = some (w, es) → Move dir h (.use dir a) w
  | ignored {m : Member} {i : ℕ} {result : Result} {hook : Hook} {device : Bool} {t : Transfer} : m.dir = dir →
      ¬ (result.success = true ∧ h.isActive = true) → (h.stream dir).pending[i]? = some t →
      Move dir h (.complete m i result hook device) ⟨(h.stream dir).stream, (h.stream dir).pending.eraseIdx i⟩
  | notified {m : Member} {i : ℕ} {result : Result} {hook : Hook} {device live : Bool} {t : Transfer} {w : World} :
      m.dir = dir → result.success = true ∧ h.isActive = true → (h.stream dir).pending[i]? = some t →
      result.bytes_transferred ≤ t.len →
      notified dir live device hook result.bytes_transferred
        ⟨(h.stream dir).stream, (h.stream dir).pending.eraseIdx i⟩ = some w →
      Move dir h (.complete m i result hook device) w

theorem Member.run_eq (m : Member) : m.run = handle m.dir := by
  cases m <;> rfl

/-- One step, as one stream sees it. -/
theorem step_move {a : Act} (hs : step h a = some (h', es)) (dir : Dir) : Move dir h a (h'.stream dir) := by
  cases a with
  | use d a =>
    simp only [step] at hs
    split at hs
    · next ha =>
      obtain ⟨⟨w, es'⟩, hstep, heq⟩ := Option.map_eq_some_iff.mp hs
      obtain ⟨rfl, -⟩ := Prod.mk.inj heq
      by_cases hd : dir = d
      · subst hd
        show Move dir h (.use dir a) (Function.update h.stream dir w dir)
        rw [Function.update_self]
        exact .use ha hstep
      · show Move dir h (.use d a) (Function.update h.stream d w dir)
        rw [Function.update_of_ne hd]
        exact .stay trivial
    · cases hs
  | complete m i result hook device =>
    simp only [step] at hs
    split at hs
    · cases hs
    · next t ht =>
      split at hs
      · next hn =>
        rw [Member.run_eq] at hs
        obtain ⟨h₁, hhandle, heq⟩ := Option.map_eq_some_iff.mp hs
        obtain ⟨rfl, -⟩ := Prod.mk.inj heq
        unfold handle at hhandle
        by_cases hd : dir = m.dir
        · subst hd
          split at hhandle
          · next hacted =>
            obtain ⟨w, hw, rfl⟩ := Option.map_eq_some_iff.mp hhandle
            simp only [Handler.ended, Function.update_self] at hw ⊢
            exact .notified rfl (Bool.and_eq_true_iff.mp hacted) ht hn hw
          · next hacted =>
            obtain rfl := Option.some.inj hhandle
            simp only [Handler.ended, Function.update_self]
            exact .ignored rfl (fun hboth => hacted (Bool.and_eq_true_iff.mpr hboth)) ht
        · have hstay : h₁.stream dir = h.stream dir := by
            split at hhandle
            · obtain ⟨w, -, rfl⟩ := Option.map_eq_some_iff.mp hhandle
              simp only [Handler.ended, Function.update_of_ne hd]
            · obtain rfl := Option.some.inj hhandle
              simp only [Handler.ended, Function.update_of_ne hd]
          rw [hstay]
          exact .stay fun heq => absurd heq.symm hd
      · cases hs
  | activate | deactivate | close | setAvailable b =>
    obtain ⟨rfl, -⟩ := Prod.mk.inj (Option.some.inj hs)
    exact .stay trivial

theorem permits_ended {i : ℕ} {t : Transfer} (ht : w.pending[i]? = some t) :
    permits ⟨w.stream, w.pending.eraseIdx i⟩ + 1 = permits w := by
  have hlt : i < w.pending.length := (List.getElem?_eq_some_iff.mp ht).1
  simp only [permits, List.length_eraseIdx_of_lt hlt]
  omega

namespace Move

variable {a : Act}

theorem size_eq (hm : Move dir h a w) : w.stream.size_ = (h.stream dir).stream.size_ := by
  cases hm with
  | stay _ => rfl
  | use ha hs => exact (step_frame ha hs).size_eq
  | ignored _ _ _ => rfl
  | notified _ _ _ _ hs => exact (notified_frame hs).1

/-- Only a completion that is not acted on loses a permit, and it had one to lose. -/
theorem permits_eq (hm : Move dir h a w) :
    (Acted dir h a ∧ permits w = permits (h.stream dir)) ∨
      (¬ Acted dir h a ∧ permits w + 1 = permits (h.stream dir)) := by
  cases hm with
  | stay hacted => exact Or.inl ⟨hacted, rfl⟩
  | use ha hs => exact Or.inl ⟨trivial, (step_frame ha hs).permits_eq⟩
  | ignored hdir hnot ht => exact Or.inr ⟨fun hacted => hnot (hacted hdir), permits_ended ht⟩
  | notified _ hboth ht _ hs =>
    exact Or.inl ⟨fun _ => hboth, (notified_frame hs).2.trans (permits_ended ht)⟩

end Move

/-! ## The stream works on -/

theorem runHook_inv {q : List UInt8} (calls : List TtyDevice.Act) (hinv : Inv dir w q)
    (hrun : runHook dir calls w = some w') : ∃ q', Inv dir w' q' := by
  induction calls generalizing w q with
  | nil =>
    obtain rfl := Option.some.inj hrun
    exact ⟨q, hinv⟩
  | cons a calls ih =>
    rw [runHook] at hrun
    split at hrun
    · obtain ⟨⟨w₁, es⟩, hstep, hrest⟩ := Option.bind_eq_some_iff.mp hrun
      obtain ⟨q₁, hinv₁⟩ := (hinv.step hstep).1
      exact ih hinv₁ hrest
    · cases hrun

/-- What the device is promised holds on, as long as completions are acted on. -/
theorem Move.inv {a : Act} {q : List UInt8} (hm : Move dir h a w) (hacted : Acted dir h a)
    (hinv : Inv dir (h.stream dir) q) : ∃ q', Inv dir w q' := by
  cases hm with
  | stay _ => exact ⟨q, hinv⟩
  | use _ hs => exact (hinv.step hs).1
  | ignored hdir hnot _ => exact absurd (hacted hdir) hnot
  | @notified m i result hook device live t w _ _ ht hn hs =>
    obtain ⟨q₁, hinv₁⟩ := (hinv.complete ht hn).1
    obtain ⟨w₁, hrun, heq⟩ := Option.map_eq_some_iff.mp hs
    obtain ⟨q₂, hinv₂⟩ := runHook_inv hook.calls hinv₁ hrun
    rw [← heq]
    split
    · exact ⟨q₂, hinv₂⟩
    · exact (hinv₂.step (a := .signal live device) rfl).1

/-- There is something for the device to do. -/
def Ready : Dir → TtyStream → Prop
  | .rx, s => s.isFull = false
  | .tx, s => s.isEmpty = false

/-- A `signal` starts a transfer, where there is something to do and the device takes it. -/
def CanStart (dir : Dir) (s : TtyStream) : Prop := Ready dir s → (dir.signal true true s).2.isSome = true

theorem ioLen_pos {N a : ℕ} (hN : N < 2 ^ 31) {z : ℤ} (ha : z = a ∨ (z < 0 ∧ z + N = a)) (hpos : 0 < a)
    (hlt : a < N) : 0 < TtyStream.ioLen N z := by
  unfold TtyStream.ioLen
  rw [TtyStream.toInt_toSize]
  unfold Daf.toInt Int.bmod
  dsimp only
  split <;> omega

theorem start_isSome {s : TtyStream} {i : ℕ} {io_len : ℤ} (hio : 0 < io_len) (hlt : io_len < 2 ^ 31)
    (hi : i < s.size_) (hsize : 2 ≤ s.size) : (TtyStream.start true true i io_len s).2.isSome = true := by
  have hlen := TtyStream.toSize_of_nonneg hio.le hlt
  have hne : min (min (Daf.toSize io_len) (s.size_ - i)) (s.size / 2) ≠ 0 := by omega
  unfold TtyStream.start
  rw [if_pos ⟨rfl, hio⟩]
  dsimp only
  rw [if_pos ⟨hne, rfl⟩]
  rfl

theorem canStart {q : List UInt8} (hinv : Inv dir w q) (hsema : w.stream.b_sema_ = 1) (hsize : 3 ≤ w.stream.size_)
    (hlt : w.stream.size_ < 2 ^ 31) : CanStart dir w.stream := by
  intro hready
  obtain ⟨hh, hsize', -, -⟩ := holds_rewind hinv.holds hinv.fit
  have hroom := hh.room
  have htail := hh.tail_lt
  have hhead := hh.head_lt
  have hcases := hh.head_cases
  cases dir with
  | rx =>
    have hfull : ¬ w.stream.isFull = true := by
      simpa [Ready] using hready
    have hnotfull : q.length ≠ w.stream.size_ - 1 := fun heq => hfull (hinv.holds.isFull_iff.mpr heq)
    simp only [Dir.signal, TtyStream.signalReader]
    rw [if_neg (not_or.mpr ⟨hfull, by omega⟩)]
    refine start_isSome (ioLen_pos (a := w.stream.size_ - 1 - q.length) ?_ ?_ ?_ ?_) (TtyStream.ioLen_lt _ _) hhead ?_
    all_goals first | omega | (unfold TtyStream.size; omega)
  | tx =>
    have hempty : ¬ w.stream.isEmpty = true := by
      simpa [Ready] using hready
    have hne : q.length ≠ 0 := fun heq => hempty (hinv.holds.isEmpty_iff.mpr heq)
    simp only [Dir.signal, TtyStream.signalWriter]
    rw [if_neg (not_or.mpr ⟨hempty, by omega⟩)]
    refine start_isSome (ioLen_pos (a := q.length) ?_ ?_ ?_ ?_) (TtyStream.ioLen_lt _ _) htail ?_
    all_goals first | omega | (unfold TtyStream.size; omega)

/-! ## Runs -/

variable {π : List (Taken Handler Act Unit)} {junk : Dir → ℕ → UInt8}

/-- A permit is lost at most once, for then no transfer can be started any more. -/
theorem permits_of_run (hr : Run (machine junk) π h) (dir : Dir) :
    (Meets (Acted dir) π ∧ permits (h.stream dir) = 1) ∨ (¬ Meets (Acted dir) π ∧ permits (h.stream dir) = 0) := by
  induction hr with
  | start => exact Or.inl ⟨meets_nil _, rfl⟩
  | snoc _ hstep ih =>
    have hmove := (step_move hstep dir).permits_eq
    rw [meets_snoc]
    rcases ih with ⟨hmeets, hone⟩ | ⟨hnot, hzero⟩
    · rcases hmove with ⟨hacted, heq⟩ | ⟨hnacted, heq⟩
      · exact Or.inl ⟨⟨hmeets, hacted⟩, heq.trans hone⟩
      · exact Or.inr ⟨fun hboth => hnacted hboth.2, by omega⟩
    · exact Or.inr ⟨fun hboth => hnot hboth.1, by omega⟩

theorem size_of_run (hr : Run (machine junk) π h) (dir : Dir) : (h.stream dir).stream.size_ = defaultSize dir + 1 := by
  induction hr with
  | start => rfl
  | snoc _ hstep ih => exact (step_move hstep dir).size_eq.trans ih

theorem inv_of_run (hr : Run (machine junk) π h) (hmeets : Meets (Acted dir) π) : ∃ q, Inv dir (h.stream dir) q := by
  induction hr with
  | start => exact ⟨[], inv_new dir _ _⟩
  | snoc _ hstep ih =>
    obtain ⟨hπ, hacted⟩ := meets_snoc.mp hmeets
    obtain ⟨q, hinv⟩ := ih hπ
    exact (step_move hstep dir).inv hacted hinv

/-- With no transfer outstanding the stream has its one permit, and can start the next transfer. -/
def Restored (dir : Dir) (h : Handler) : Prop :=
  (h.stream dir).pending = [] → (h.stream dir).stream.b_sema_ = 1 ∧ CanStart dir (h.stream dir).stream

/-- **Permits.**  In every run of the handler, a stream with nothing outstanding has its permit, and can go on,
exactly if none of its completions failed or found the handler inactive. -/
theorem permit_iff (hr : Run (machine junk) π h) (dir : Dir) : Restored dir h ↔ Meets (Acted dir) π := by
  rcases permits_of_run hr dir with ⟨hmeets, hone⟩ | ⟨hnot, hzero⟩
  · refine iff_of_true (fun hnil => ?_) hmeets
    have hsema : (h.stream dir).stream.b_sema_ = 1 := by
      simpa [permits, hnil] using hone
    have hsize := size_of_run hr dir
    obtain ⟨q, hinv⟩ := inv_of_run hr hmeets
    refine ⟨hsema, canStart hinv hsema ?_ ?_⟩
    all_goals
      rw [hsize]
      cases dir <;> decide
  · refine iff_of_false (fun hrestored => ?_) hnot
    unfold permits at hzero
    have hnil : (h.stream dir).pending = [] := List.length_eq_zero_iff.mp (by omega)
    have hsema := (hrestored hnil).1
    omega

/-- Two transfers end, the first with an exception out of `process_input` and the second with one that cannot be
started again: the permit is there. -/
theorem permit_iff_two : ∃ (π : List (Taken Handler Act Unit)) (h : Handler), Run (machine fun _ _ => 0) π h ∧
    π.length = 7 ∧ (h.stream .rx).pending = [] ∧ (h.stream .rx).stream.b_sema_ = 1 ∧
    (Restored .rx h ↔ Meets (Acted .rx) π) := by
  obtain ⟨π, h, hr, hp⟩ := exists_run_of_replay (M := machine fun _ _ => 0)
    (p := fun (π : List (Taken Handler Act Unit)) (h : Handler) => decide (π.length = 7 ∧
      (h.stream .rx).pending = [] ∧ (h.stream .rx).stream.b_sema_ = 1))
    [.activate, .use .rx (.signal true true), .use .rx (.store 0 0 7),
      .complete .readStream 0 ⟨true, 1⟩ ⟨[.get 9 (some fun _ => 0) 1], true⟩ true, .use .rx (.signal true true),
      .use .rx (.store 0 0 8), .complete .readFile 0 ⟨true, 1⟩ ⟨[], false⟩ false] (by decide +kernel)
  obtain ⟨hlength, hpend, hsema⟩ := of_decide_eq_true hp
  exact ⟨π, h, hr, hlength, hpend, hsema, permit_iff hr .rx⟩

/-- A completion comes to the handler. -/
def Act.isCompletion : Act → Bool
  | .complete .. => true
  | _ => false

/-- One read fails, while the handler is active: nothing is outstanding, and there is no permit. -/
theorem permit_lost : ∃ (π : List (Taken Handler Act Unit)) (h : Handler), Run (machine fun _ _ => 0) π h ∧
    Meets (fun h a => a.isCompletion = true → h.isActive = true) π ∧ h.isActive = true ∧
    (h.stream .rx).pending = [] ∧ (h.stream .rx).stream.b_sema_ = 0 ∧ ¬ Restored .rx h := by
  obtain ⟨π, h, hr, hp⟩ := exists_run_of_replay (M := machine fun _ _ => 0)
    (p := fun (π : List (Taken Handler Act Unit)) (h : Handler) => decide (
      Meets (fun (h : Handler) (a : Act) => a.isCompletion = true → h.isActive = true) π ∧ h.isActive = true ∧
      (h.stream .rx).pending = [] ∧ (h.stream .rx).stream.b_sema_ = 0))
    [.activate, .use .rx (.signal true true), .complete .readStream 0 ⟨false, 0⟩ ⟨[], false⟩ true]
    (by decide +kernel)
  obtain ⟨hactive, hnow, hpend, hsema⟩ := of_decide_eq_true hp
  refine ⟨π, h, hr, hactive, hnow, hpend, hsema, fun hrestored => ?_⟩
  have hone := (hrestored hpend).1
  omega

end Lasagne.Dev.TtyHandler
