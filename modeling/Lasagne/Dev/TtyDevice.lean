import Lasagne.Trans.Run
import Lasagne.Dev.TtyStream

/-!
# Lasagne.Dev.TtyDevice — the part of the buffer that belongs to the device

An asynchronous transfer works in the buffer itself while the application goes on to get (from a stream that
receives) or to put (into one that sends).  The steps are those two, `signal_reader` and `signal_writer` with
the device taking the transfer or not, the bytes that the device stores, and its completions in any order.

* `Sound`: where the transfers under way are, what the application leaves alone and what a completion moves.
* `device_sound`: it holds in every run, whatever the size.
-/

namespace Lasagne.Dev

open Lasagne.Trans Lasagne.Daf

namespace TtyDevice

/-- A stream receives (`TTY_ReadStream`) or sends (`TTY_WriteStream`). -/
inductive Dir where
  | rx
  | tx
deriving DecidableEq, Repr

/-- A transfer under way, of `len` bytes from the cell `start` on. -/
structure Transfer where
  start : ℕ
  len : ℕ
deriving DecidableEq, Repr

/-- A stream and its transfers. -/
structure World where
  stream : TtyStream
  pending : List Transfer

inductive Act where
  /-- `n = get(buf, len); get_bump(n)`, in `read_data` -/
  | get (fuel : ℕ) (iov_buf : Option (ℕ → UInt8)) (iov_len : ℤ)
  /-- `n = put(buf, len); put_bump(n)`, in `write_data` -/
  | put (fuel : ℕ) (iov_buf : Option (ℕ → UInt8)) (iov_len : ℤ)
  /-- `signal_reader()` or `signal_writer()` -/
  | signal (live device : Bool)
  /-- the device stores a byte at the place `j` of the transfer number `i` -/
  | store (i j : ℕ) (byte : UInt8)
  /-- the transfer number `i` ends, with `n` bytes: `recv_notify(n)` or `send_notify(n)` -/
  | complete (i n : ℕ)

/-- A step of the application, and not of the device. -/
def Act.byApplication : Act → Bool
  | .get .. => true
  | .put .. => true
  | .signal .. => true
  | .store .. => false
  | .complete .. => false

/-- A `signal` member may start a transfer. -/
def World.started (w : World) (r : TtyStream × Option (ℕ × ℕ)) : World :=
  ⟨r.1, w.pending ++ (r.2.map fun t => ⟨t.1, t.2⟩).toList⟩

/-- The signal member of the stream. -/
def Dir.signal : Dir → Bool → Bool → TtyStream → TtyStream × Option (ℕ × ℕ)
  | .rx => TtyStream.signalReader
  | .tx => TtyStream.signalWriter

/-- What a completion calls. -/
def Dir.notify : Dir → TtyStream → ℕ → TtyStream
  | .rx => TtyStream.recvNotify
  | .tx => TtyStream.sendNotify

/-- One step. -/
def step (dir : Dir) (w : World) : Act → Option (World × List Unit)
  | .get fuel iov_buf iov_len =>
    if dir = .rx then
      (w.stream.get fuel iov_buf iov_len).map fun r => ({ w with stream := (TtyStream.getBump r.1 w.stream).2 }, [])
    else none
  | .put fuel iov_buf iov_len =>
    if dir = .tx then
      (w.stream.put fuel iov_buf iov_len).map fun r => ({ w with stream := (TtyStream.putBump r.1 r.2).2 }, [])
    else none
  | .signal live device => some (w.started (dir.signal live device w.stream), [])
  | .store i j byte =>
    match w.pending[i]? with
    | none => none
    | some t =>
      if dir = .rx ∧ j < t.len then
        some ({ w with
          stream := { w.stream with buffer_ := Function.update w.stream.buffer_ (t.start + j) byte } }, [])
      else none
  | .complete i n =>
    match w.pending[i]? with
    | none => none
    | some t => if n ≤ t.len then some (⟨dir.notify w.stream n, w.pending.eraseIdx i⟩, []) else none

/-- The steps, from a new stream on. -/
def machine (dir : Dir) (size : ℕ) (junk : ℕ → UInt8) : Machine World Act Unit where
  init := ⟨TtyStream.new size junk, []⟩
  step := step dir

/-- The position that the completions move. -/
def Dir.pos : Dir → TtyStream → ℕ
  | .rx, s => s.head_
  | .tx, s => s.tail_

/-- The position that the application moves. -/
def Dir.other : Dir → TtyStream → ℕ
  | .rx, s => s.tail_
  | .tx, s => s.head_

/-- The transfers of `w` are under way in `w'` too, where they were and with the bytes they had. -/
def Keeps (dir : Dir) (w w' : World) : Prop :=
  ∀ t ∈ w.pending, t ∈ w'.pending ∧ dir.pos w'.stream = dir.pos w.stream ∧
    ∀ i < t.len, w'.stream.buffer_ (t.start + i) = w.stream.buffer_ (t.start + i)

/-- The transfers of a stream are safe. -/
structure Sound (dir : Dir) (w : World) : Prop where
  /-- at most one is under way -/
  one : w.pending.length ≤ 1
  inside : ∀ t ∈ w.pending, t.start + t.len ≤ w.stream.size_
  at_pos : ∀ t ∈ w.pending, t.start = dir.pos w.stream
  /-- what is received goes where no unread byte is -/
  free : dir = .rx → ∀ t ∈ w.pending, ∀ i < t.len, ∀ j < w.stream.length,
    t.start + i ≠ (w.stream.tail_ + j) % w.stream.size_
  /-- what is sent is unread, and in order -/
  filled : dir = .tx → ∀ t ∈ w.pending, t.len ≤ w.stream.length ∧
    ∀ i < t.len, (w.stream.tail_ + i) % w.stream.size_ = t.start + i
  /-- the application neither ends nor moves a transfer, and does not write where it is -/
  kept : ∀ a w' es, a.byApplication = true → step dir w a = some (w', es) → Keeps dir w w'
  /-- a completion moves its position, and only that -/
  moved : ∀ i n w' es, step dir w (.complete i n) = some (w', es) →
    dir.pos w'.stream = (dir.pos w.stream + n) % w.stream.size_ ∧ dir.other w'.stream = dir.other w.stream

/-! ## The invariant -/

/-- How many bytes the device may receive or send. -/
def Dir.available : Dir → TtyStream → List UInt8 → ℕ
  | .rx, s, q => s.size_ - 1 - q.length
  | .tx, _, q => q.length

/-- Where a transfer is, while the bytes `q` are unread. -/
structure Region (dir : Dir) (s : TtyStream) (q : List UInt8) (t : Transfer) : Prop where
  size_nonneg : 0 ≤ toInt s.size_
  start_eq : t.start = dir.pos s
  inside : t.start + t.len ≤ s.size_
  len_le : t.len ≤ dir.available s q

/-- A permit or a transfer, and the bytes `q` unread. -/
structure Inv (dir : Dir) (w : World) (q : List UInt8) : Prop where
  holds : w.stream.Holds q
  fit : TtyStream.Fit w.stream.size_ q (dir.other w.stream)
  permit : w.stream.b_sema_ + w.pending.length = 1
  region : ∀ t ∈ w.pending, Region dir w.stream q t

variable {dir : Dir} {w w' : World} {q : List UInt8} {s : TtyStream} {live device : Bool} {es : List Unit}

theorem start_cases (live device : Bool) (i : ℕ) (io_len : ℤ) (s : TtyStream) :
    (∃ len, TtyStream.start live device i io_len s = (s, some (i, len)) ∧ 0 < io_len ∧ len ≤ toSize io_len ∧
        len ≤ s.size_ - i) ∨
      TtyStream.start live device i io_len s = ({ s with b_sema_ := s.b_sema_ + 1 }, none) := by
  unfold TtyStream.start
  split
  · next hlive =>
    dsimp only
    split
    · exact Or.inl ⟨_, rfl, hlive.2, (min_le_left _ _).trans (min_le_left _ _),
        (min_le_left _ _).trans (min_le_right _ _)⟩
    · exact Or.inr rfl
  · exact Or.inr rfl

/-- With the permit in hand a transfer is started, or the permit given back. -/
theorem inv_start (hh : s.Holds q) (hfit : TtyStream.Fit s.size_ q (dir.other s)) (hsema : s.b_sema_ = 0)
    {io_len : ℤ} (hlt : io_len < 2 ^ 31) (hio : 0 < io_len → 0 ≤ toInt s.size_ ∧ io_len ≤ dir.available s q)
    (hw : w.pending = []) :
    Inv dir (w.started (TtyStream.start live device (dir.pos s) io_len s)) q := by
  have hpos : dir.pos s < s.size_ := by
    cases dir with
    | rx => exact hh.head_lt
    | tx => exact hh.tail_lt
  rcases start_cases live device (dir.pos s) io_len s with ⟨len, heq, hlen, hle, hend⟩ | heq
  · rw [heq]
    have havail := hio hlen
    have hsize := TtyStream.toSize_of_nonneg hlen.le hlt
    refine ⟨hh, hfit, ?_, ?_⟩
    · simp [World.started, hw, hsema]
    · intro t ht
      obtain rfl : t = ⟨dir.pos s, len⟩ := by simpa [World.started, hw] using ht
      have hinside : dir.pos s + len ≤ s.size_ := by omega
      have havail' : len ≤ dir.available s q := by omega
      exact ⟨havail.1, rfl, hinside, havail'⟩
  · rw [heq]
    refine ⟨⟨hh.tail_lt, hh.room, hh.head_eq, hh.bytes⟩, ?_, ?_, ?_⟩
    · cases dir <;> exact hfit
    · simp [World.started, hw, hsema]
    · intro t ht
      simp [World.started, hw] at ht

/-- An empty buffer may be rewound. -/
theorem holds_rewind (h : s.Holds q) (hfit : TtyStream.Fit s.size_ q (dir.other s)) :
    s.rewind.Holds q ∧ s.rewind.size_ = s.size_ ∧ s.rewind.b_sema_ = s.b_sema_ - 1 ∧
      TtyStream.Fit s.size_ q (dir.other s.rewind) := by
  unfold TtyStream.rewind
  dsimp only
  split
  · next hempty =>
    obtain rfl : q = [] := List.length_eq_zero_iff.mp (h.isEmpty_iff.mp hempty)
    have hpos : 0 < s.size_ := (Nat.zero_le _).trans_lt h.tail_lt
    refine ⟨⟨hpos, hpos, (Nat.zero_mod _).symm, rfl⟩, rfl, rfl, ?_⟩
    have hzero : TtyStream.Fit s.size_ [] 0 := hfit.imp (fun hnear => ⟨hnear.1, hnear.1⟩) id
    cases dir <;> exact hzero
  · refine ⟨⟨h.tail_lt, h.room, h.head_eq, h.bytes⟩, rfl, rfl, ?_⟩
    cases dir <;> exact hfit

theorem step_complete {i n : ℕ} (hs : step dir w (.complete i n) = some (w', es)) :
    ∃ t, w.pending[i]? = some t ∧ n ≤ t.len ∧ w' = ⟨dir.notify w.stream n, w.pending.eraseIdx i⟩ := by
  simp only [step] at hs
  split at hs
  · cases hs
  · next t ht =>
    split at hs
    · next hn => exact ⟨t, ht, hn, (Prod.mk.inj (Option.some.inj hs)).1.symm⟩
    · cases hs

namespace Inv

/-- Nothing is under way when the permit is there. -/
theorem pending_nil (h : Inv dir w q) (hsema : w.stream.b_sema_ ≠ 0) :
    w.pending = [] ∧ w.stream.b_sema_ - 1 = 0 := by
  have := h.permit
  exact ⟨List.length_eq_zero_iff.mp (by omega), by omega⟩

theorem signalReader (h : Inv .rx w q) : Inv .rx (w.started (w.stream.signalReader live device)) q := by
  unfold TtyStream.signalReader
  split
  · simpa [World.started] using h
  · next hfree =>
    obtain ⟨hfull, hsema⟩ := not_or.mp hfree
    obtain ⟨hpend, hzero⟩ := h.pending_nil hsema
    obtain ⟨hh, hsize, hb, hfit⟩ := holds_rewind h.holds h.fit
    rw [← hsize] at hfit
    refine inv_start hh hfit (hb.trans hzero) (TtyStream.ioLen_lt _ _) (fun hpos => ?_) hpend
    have hroom := hh.room
    have hcases := hh.head_cases
    have hnotfull : q.length ≠ w.stream.size_ - 1 := fun heq => hfull (h.holds.isFull_iff.mpr heq)
    rcases hfit with hnear | ⟨hneg, rfl⟩
    · refine ⟨hnear.1, TtyStream.ioLen_le hnear.1 (by omega) ?_⟩
      simp only [Dir.available]
      omega
    · rw [hh.head_eq_tail, sub_self, zero_sub] at hpos
      exact absurd hpos (TtyStream.ioLen_stuck hneg).not_gt

theorem signalWriter (h : Inv .tx w q) : Inv .tx (w.started (w.stream.signalWriter live device)) q := by
  unfold TtyStream.signalWriter
  split
  · simpa [World.started] using h
  · next hfree =>
    obtain ⟨hempty, hsema⟩ := not_or.mp hfree
    obtain ⟨hpend, hzero⟩ := h.pending_nil hsema
    obtain ⟨hh, hsize, hb, hfit⟩ := holds_rewind h.holds h.fit
    rw [← hsize] at hfit
    have hne : q.length ≠ 0 := fun heq => hempty (h.holds.isEmpty_iff.mpr heq)
    refine inv_start hh hfit (hb.trans hzero) (TtyStream.ioLen_lt _ _) (fun hpos => ?_) hpend
    have hroom := hh.room
    have htail := hh.tail_lt
    have hcases := hh.head_cases
    rcases hfit with hnear | ⟨hneg, rfl⟩
    · refine ⟨hnear.1, TtyStream.ioLen_le hnear.1 (by omega) ?_⟩
      simp only [Dir.available]
      omega
    · exact absurd rfl hne

/-- The application gets bytes: there is more room for the device. -/
theorem get (h : Inv .rx w q) {fuel n : ℕ} {iov_buf out : Option (ℕ → UInt8)} {iov_len : ℤ}
    (hget : w.stream.get fuel iov_buf iov_len = some (n, out)) :
    Inv .rx { w with stream := (TtyStream.getBump n w.stream).2 } (q.drop n) ∧
      Keeps .rx w { w with stream := (TtyStream.getBump n w.stream).2 } := by
  obtain ⟨hle, -, hfit⟩ := h.holds.get h.fit hget
  rw [h.holds.getBump hle]
  refine ⟨⟨h.holds.drop hle, hfit, h.permit, fun t ht => ?_⟩, fun t ht => ⟨ht, rfl, fun _ _ => rfl⟩⟩
  obtain ⟨hnonneg, hstart, hinside, hlen⟩ := h.region t ht
  refine ⟨hnonneg, hstart, hinside, ?_⟩
  simp only [Dir.available, List.length_drop] at hlen ⊢
  omega

/-- The application puts bytes: there is more for the device to send, behind what it is sending. -/
theorem put (h : Inv .tx w q) {fuel n : ℕ} {s : TtyStream} {iov_buf : Option (ℕ → UInt8)} {iov_len : ℤ}
    (hput : w.stream.put fuel iov_buf iov_len = some (n, s)) :
    Inv .tx { w with stream := (TtyStream.putBump n s).2 } (q ++ TtyStream.callerBytes iov_buf n) ∧
      Keeps .tx w { w with stream := (TtyStream.putBump n s).2 } := by
  obtain ⟨mem, p, rfl, hp, rfl, hacc⟩ := h.holds.put h.fit hput
  rw [hacc.putBump, hp]
  refine ⟨⟨hacc.after, hacc.fit, h.permit, fun t htp => ?_⟩, fun t htp => ⟨htp, rfl, fun i hi => ?_⟩⟩
  · obtain ⟨hnonneg, hstart, hinside, hle⟩ := h.region t htp
    refine ⟨hnonneg, hstart, hinside, ?_⟩
    simp only [Dir.available, List.length_append] at hle ⊢
    omega
  · -- both buffers hold the byte number `i` of `q` there
    obtain ⟨-, hstart, hinside, hle⟩ := h.region t htp
    simp only [Dir.available, Dir.pos] at hle hstart
    have hcell : (w.stream.tail_ + i) % w.stream.size_ = t.start + i := by
      rw [hstart, Nat.mod_eq_of_lt (by omega)]
    have hnew := hacc.before.cell (i := i) (by omega)
    have hold := h.holds.cell (i := i) (by omega)
    rw [hcell] at hnew hold
    exact Option.some.inj (hnew.symm.trans hold)

/-- No cell of a transfer that receives is unread. -/
theorem ne_of_region (h : Inv .rx w q) {t : Transfer} (ht : t ∈ w.pending) {i j : ℕ} (hi : i < t.len)
    (hj : j < q.length) : t.start + i ≠ (w.stream.tail_ + j) % w.stream.size_ := by
  obtain ⟨-, hstart, hinside, hlen⟩ := h.region t ht
  have hroom := h.holds.room
  have htail := h.holds.tail_lt
  have hcases := h.holds.head_cases
  have hmod := mod_cases (a := w.stream.tail_ + j) (N := w.stream.size_) (by omega)
  simp only [Dir.available, Dir.pos] at hstart hlen
  omega

/-- The device stores a byte. -/
theorem store (h : Inv .rx w q) {t : Transfer} (ht : t ∈ w.pending) {j : ℕ} (hj : j < t.len) (byte : UInt8) :
    Inv .rx { w with stream := { w.stream with buffer_ := Function.update w.stream.buffer_ (t.start + j) byte } }
      q := by
  have hwindow : window (Function.update w.stream.buffer_ (t.start + j) byte) w.stream.size_ w.stream.tail_
      q.length = window w.stream.buffer_ w.stream.size_ w.stream.tail_ q.length :=
    window_congr fun k hk => Function.update_of_ne (h.ne_of_region ht hj hk).symm _ _
  refine ⟨⟨h.holds.tail_lt, h.holds.room, h.holds.head_eq, ?_⟩, h.fit, h.permit, fun t' ht' => ?_⟩
  · exact hwindow.trans h.holds.bytes
  · obtain ⟨hnonneg, hstart, hinside, hlen⟩ := h.region t' ht'
    exact ⟨hnonneg, hstart, hinside, hlen⟩

/-- The transfer that ends is the only one. -/
theorem eraseIdx (h : Inv dir w q) {i : ℕ} {t : Transfer} (ht : w.pending[i]? = some t) :
    w.pending.eraseIdx i = [] ∧ w.stream.b_sema_ = 0 := by
  have hpermit := h.permit
  have hlt : i < w.pending.length := (List.getElem?_eq_some_iff.mp ht).1
  refine ⟨List.length_eq_zero_iff.mp ?_, by omega⟩
  rw [List.length_eraseIdx_of_lt hlt]
  omega

/-- A transfer ends, with `n` bytes. -/
theorem complete (h : Inv dir w q) {i n : ℕ} {t : Transfer} (ht : w.pending[i]? = some t) (hn : n ≤ t.len) :
    (∃ q', Inv dir ⟨dir.notify w.stream n, w.pending.eraseIdx i⟩ q') ∧
      dir.pos (dir.notify w.stream n) = (dir.pos w.stream + n) % w.stream.size_ ∧
      dir.other (dir.notify w.stream n) = dir.other w.stream := by
  obtain ⟨hnil, hsema⟩ := h.eraseIdx ht
  obtain ⟨hnonneg, hstart, hinside, hlen⟩ := h.region t (List.mem_of_getElem? ht)
  rw [hnil]
  cases dir with
  | rx =>
    simp only [Dir.available, Dir.pos] at hlen hstart
    have hroom := h.holds.room
    have hnotify := h.holds.recvNotify (n := n) (by omega)
    simp only [Dir.notify, Dir.pos, Dir.other]
    rw [hnotify]
    have hkeep := h.holds.keep (k := n) (by omega) (by omega)
    refine ⟨⟨_, ⟨hkeep.tail_lt, hkeep.room, hkeep.head_eq, hkeep.bytes⟩, ?_, ?_, fun t ht => (by cases ht)⟩,
      rfl, rfl⟩
    · rcases h.fit with hnear | ⟨hneg, -⟩
      · exact Or.inl hnear
      · exact absurd hnonneg (not_le.mpr hneg)
    · simp [hsema]
  | tx =>
    simp only [Dir.available] at hlen
    have hnotify := h.holds.sendNotify (n := n) (by omega)
    simp only [Dir.notify, Dir.pos, Dir.other]
    rw [hnotify]
    have hdrop := h.holds.drop (k := n) (by omega)
    refine ⟨⟨_, ⟨hdrop.tail_lt, hdrop.room, hdrop.head_eq, hdrop.bytes⟩, ?_, ?_, fun t ht => (by cases ht)⟩,
      rfl, rfl⟩
    · rcases h.fit with hnear | ⟨hneg, -⟩
      · exact Or.inl hnear
      · exact absurd hnonneg (not_le.mpr hneg)
    · simp [hsema]

/-- A signal does nothing while a transfer is under way. -/
theorem keeps_signal (h : Inv dir w q) (live device : Bool) :
    Keeps dir w (w.started (dir.signal live device w.stream)) := by
  intro t ht
  have hsema : w.stream.b_sema_ = 0 := by
    have := h.permit
    have := List.length_pos_of_mem ht
    omega
  have hbusy : dir.signal live device w.stream = (w.stream, none) := by
    cases dir with
    | rx => exact if_pos (Or.inr hsema)
    | tx => exact if_pos (Or.inr hsema)
  rw [hbusy]
  exact ⟨List.mem_append_left _ ht, rfl, fun _ _ => rfl⟩

/-- The invariant is kept by every step, and what the device has by every step of the application. -/
theorem step (h : Inv dir w q) {a : Act} (hs : TtyDevice.step dir w a = some (w', es)) :
    (∃ q', Inv dir w' q') ∧ (a.byApplication = true → Keeps dir w w') := by
  cases a with
  | get fuel iov_buf iov_len =>
    simp only [TtyDevice.step] at hs
    split at hs
    · next hdir =>
      subst hdir
      obtain ⟨⟨n, out⟩, hget, heq⟩ := Option.map_eq_some_iff.mp hs
      obtain ⟨rfl, -⟩ := Prod.mk.inj heq
      obtain ⟨hinv, hkeeps⟩ := h.get hget
      exact ⟨⟨_, hinv⟩, fun _ => hkeeps⟩
    · cases hs
  | put fuel iov_buf iov_len =>
    simp only [TtyDevice.step] at hs
    split at hs
    · next hdir =>
      subst hdir
      obtain ⟨⟨n, s⟩, hput, heq⟩ := Option.map_eq_some_iff.mp hs
      obtain ⟨rfl, -⟩ := Prod.mk.inj heq
      obtain ⟨hinv, hkeeps⟩ := h.put hput
      exact ⟨⟨_, hinv⟩, fun _ => hkeeps⟩
    · cases hs
  | signal live device =>
    obtain ⟨rfl, -⟩ := Prod.mk.inj (Option.some.inj hs)
    refine ⟨⟨q, ?_⟩, fun _ => h.keeps_signal live device⟩
    cases dir with
    | rx => exact h.signalReader
    | tx => exact h.signalWriter
  | store i j byte =>
    refine ⟨?_, fun happ => (by cases happ)⟩
    simp only [TtyDevice.step] at hs
    split at hs
    · cases hs
    · next t ht =>
      split at hs
      · next hj =>
        obtain ⟨rfl, hj⟩ := hj
        obtain ⟨rfl, -⟩ := Prod.mk.inj (Option.some.inj hs)
        exact ⟨q, h.store (List.mem_of_getElem? ht) hj byte⟩
      · cases hs
  | complete i n =>
    refine ⟨?_, fun happ => (by cases happ)⟩
    obtain ⟨t, ht, hn, rfl⟩ := step_complete hs
    exact (h.complete ht hn).1

theorem sound (h : Inv dir w q) : Sound dir w := by
  have hlength := h.holds.length_eq
  refine ⟨?_, fun t ht => (h.region t ht).inside, fun t ht => (h.region t ht).start_eq, ?_, ?_, ?_, ?_⟩
  · have := h.permit
    omega
  · rintro rfl t ht i hi j hj
    exact h.ne_of_region ht hi (hlength ▸ hj)
  · rintro rfl t ht
    obtain ⟨-, hstart, hinside, hlen⟩ := h.region t ht
    simp only [Dir.available, Dir.pos] at hlen hstart
    refine ⟨hlength ▸ hlen, fun i hi => ?_⟩
    rw [hstart, Nat.mod_eq_of_lt (by omega)]
  · exact fun a w' es happ hs => (h.step hs).2 happ
  · intro i n w' es hs
    obtain ⟨t, ht, hn, rfl⟩ := step_complete hs
    exact (h.complete ht hn).2

end Inv

/-! ## Runs -/

variable {π : List (Taken World Act Unit)} {size : ℕ} {junk : ℕ → UInt8}

theorem inv_new (dir : Dir) (size : ℕ) (junk : ℕ → UInt8) : Inv dir ⟨TtyStream.new size junk, []⟩ [] := by
  have hfit : TtyStream.Fit (size + 1) [] 0 := TtyStream.fit_new size
  refine ⟨TtyStream.holds_new size junk, ?_, rfl, fun t ht => (by cases ht)⟩
  cases dir <;> exact hfit

/-- **Device regions.**  Whatever the size, in every run of a stream and its device there is at most one transfer
under way; it lies in the buffer at the position that its completion will move by exactly the bytes transferred;
what it receives goes where no unread byte is, and what it sends are the first unread bytes; and the application
neither moves it nor writes there. -/
theorem device_sound (hr : Run (machine dir size junk) π w) : Sound dir w := by
  have h : ∃ q, Inv dir w q := by
    induction hr with
    | start => exact ⟨[], inv_new dir size junk⟩
    | snoc _ hstep ih =>
      obtain ⟨q, hq⟩ := ih
      exact (hq.step hstep).1
  obtain ⟨q, hq⟩ := h
  exact hq.sound

/-- The application has got all there is while the next bytes are being received: the empty buffer is not
rewound. -/
theorem device_sound_four : ∃ (π : List (Taken World Act Unit)) (w : World), Run (machine .rx 4 fun _ => 0) π w ∧
    w.pending = [⟨2, 2⟩] ∧ w.stream.head_ = 2 ∧ w.stream.tail_ = 2 ∧ Sound .rx w := by
  obtain ⟨π, w, hr, hp⟩ := exists_run_of_replay (M := machine .rx 4 fun _ => 0)
    (p := fun (_ : List (Taken World Act Unit)) (w : World) =>
      decide (w.pending = [⟨2, 2⟩] ∧ w.stream.head_ = 2 ∧ w.stream.tail_ = 2))
    [.signal true true, .store 0 0 7, .store 0 1 8, .complete 0 2, .signal true true, .get 9 (some fun _ => 0) 2,
      .signal true true] (by decide +kernel)
  obtain ⟨hpend, hhead, htail⟩ := of_decide_eq_true hp
  exact ⟨π, w, hr, hpend, hhead, htail, device_sound hr⟩

end TtyDevice

end Lasagne.Dev
