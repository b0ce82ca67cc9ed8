import Lasagne.Trans.Window
import Lasagne.Daf.Semaphore

/-!
# Lasagne.Dev.TtyStream — `DEV::TTY_Stream`, a ring buffer of bytes

The members of the stream as functions of its state.  A memory is a function from addresses to bytes, so a
pointer into it is an address, and a caller's buffer is the memory from that buffer on.

The loop of `put` can run for ever.  `fuel` bounds the rounds of a loop, and `none` says that there are more; a
call that ends is one that ends for some `fuel`.

* `Holds s q`: the unread bytes of `s` are `q`.
* `Holds.put`, `Holds.get`, `Holds.putBump`, `Holds.getBump`, `Holds.find`: what the members do with them.
-/

namespace Lasagne.Dev

open Lasagne.Trans Lasagne.Daf

/-- The state of a stream; `b_sema_` is the number of its permits. -/
structure TtyStream where
  buffer_ : ℕ → UInt8
  size_ : ℕ
  head_ : ℕ
  tail_ : ℕ
  b_sema_ : ℕ

namespace TtyStream

/-- `TTY_Stream::TTY_Stream`, where the new buffer has the content `junk`. -/
def new (size : ℕ) (junk : ℕ → UInt8) : TtyStream := ⟨junk, size + 1, 0, 0, 1⟩

/-- `TTY_Stream::is_full`. -/
def isFull (s : TtyStream) : Bool := (s.head_ + s.size_ + 1) % s.size_ = s.tail_

/-- `TTY_Stream::is_empty`. -/
def isEmpty (s : TtyStream) : Bool := s.head_ = s.tail_

/-- `TTY_Stream::size`. -/
def size (s : TtyStream) : ℕ := s.size_ - 1

/-- `TTY_Stream::length`. -/
def length (s : TtyStream) : ℕ := if s.isEmpty then 0 else ((s.size_ + s.head_) - s.tail_) % s.size_

/-- `TTY_Stream::put_bump`. -/
def putBump : ℕ → TtyStream → ℕ × TtyStream
  | 0, s => (0, s)
  | len + 1, s =>
    if s.isFull then (0, s)
    else
      let r := putBump len { s with head_ := (s.head_ + 1) % s.size_ }
      (r.1 + 1, r.2)

/-- `TTY_Stream::get_bump`. -/
def getBump : ℕ → TtyStream → ℕ × TtyStream
  | 0, s => (0, s)
  | len + 1, s =>
    if s.isEmpty then (0, s)
    else
      let r := getBump len { s with tail_ := (s.tail_ + 1) % s.size_ }
      (r.1 + 1, r.2)

/-- The loop of `find`. -/
def findLoop (s : TtyStream) (c : UInt8) : (fuel tail : ℕ) → (pos off : ℤ) → Option ℤ
  | 0, _, _, _ => none
  | fuel + 1, tail, pos, off =>
    if tail = s.head_ then some (-1)
    else if 0 < off then findLoop s c fuel ((tail + 1) % s.size_) (pos + 1) (off - 1)
    else if s.buffer_ tail = c then some pos
    else findLoop s c fuel ((tail + 1) % s.size_) (pos + 1) off

/-- `TTY_Stream::find`: a round for every unread byte, and one to see that there are no more. -/
def find (s : TtyStream) (c : UInt8) (off : ℤ) : Option ℤ := findLoop s c s.size_ s.tail_ 0 off

/-- `io_len`, as `put`, `get` and the `signal` members find it from a difference of two positions. -/
def ioLen (size_ : ℕ) (diff : ℤ) : ℤ :=
  if 0 < toInt (toSize diff) then toInt (toSize diff) else toInt (toSize diff) + toInt size_

/-- The loop of `put`. -/
def putLoop (iov_buf : ℕ → UInt8) : (fuel : ℕ) → (iov_len : ℤ) → (put_len : ℕ) → TtyStream →
    Option (ℕ × TtyStream)
  | 0, _, _, _ => none
  | fuel + 1, iov_len, put_len, s =>
    if 0 < iov_len then
      let blen := toInt (s.size_ - s.head_)
      let diff : ℤ := s.tail_ - s.head_ - 1
      if toInt (toSize diff) = 0 then some (put_len, s)
      else if 0 < ioLen s.size_ diff then
        let io_len := min (min iov_len (ioLen s.size_ diff)) blen
        -- both the body and the head of the loop take `io_len` off
        putLoop iov_buf fuel (iov_len - io_len - io_len) (put_len + toSize io_len)
          { s with
            buffer_ := copyTo s.buffer_ s.head_ iov_buf put_len (toSize io_len)
            head_ := (s.head_ + toSize io_len) % s.size_ }
      else putLoop iov_buf fuel (iov_len - ioLen s.size_ diff) put_len s
    else some (put_len, s)

/-- `TTY_Stream::put`.  It moves a copy of `head_` along, and not `head_`. -/
def put (fuel : ℕ) (s : TtyStream) (iov_buf : Option (ℕ → UInt8)) (iov_len : ℤ) : Option (ℕ × TtyStream) :=
  match iov_buf with
  | none => some (0, s)
  | some iov_buf =>
    if 0 < iov_len then
      (putLoop iov_buf fuel iov_len 0 s).map fun r => (r.1, { s with buffer_ := r.2.buffer_ })
    else some (0, s)

/-- The loop of `get`. -/
def getLoop : (fuel : ℕ) → (iov_len : ℤ) → (get_len : ℕ) → (iov_buf : ℕ → UInt8) → TtyStream →
    Option (ℕ × (ℕ → UInt8))
  | 0, _, _, _, _ => none
  | fuel + 1, iov_len, get_len, iov_buf, s =>
    if 0 < iov_len then
      let blen := toInt (s.size_ - s.tail_)
      let diff : ℤ := s.head_ - s.tail_
      if toInt (toSize diff) = 0 then some (get_len, iov_buf)
      else if 0 < ioLen s.size_ diff then
        let io_len := min (min iov_len (ioLen s.size_ diff)) blen
        getLoop fuel (iov_len - io_len - io_len) (get_len + toSize io_len)
          (copyTo iov_buf get_len s.buffer_ s.tail_ (toSize io_len))
          { s with tail_ := (s.tail_ + toSize io_len) % s.size_ }
      else getLoop fuel (iov_len - ioLen s.size_ diff) get_len iov_buf s
    else some (get_len, iov_buf)

/-- `TTY_Stream::get`: the length, and the caller's buffer with the bytes. -/
def get (fuel : ℕ) (s : TtyStream) (iov_buf : Option (ℕ → UInt8)) (iov_len : ℤ) :
    Option (ℕ × Option (ℕ → UInt8)) :=
  match iov_buf with
  | none => some (0, none)
  | some iov_buf =>
    if 0 < iov_len then (getLoop fuel iov_len 0 iov_buf s).map fun r => (r.1, some r.2)
    else some (0, some iov_buf)

/-- `TTY_Stream::recv_notify`. -/
def recvNotify (s : TtyStream) (len : ℕ) : TtyStream :=
  let s' := if len ≠ 0 then (putBump len s).2 else s
  { s' with b_sema_ := s'.b_sema_ + 1 }

/-- `TTY_Stream::send_notify`. -/
def sendNotify (s : TtyStream) (len : ℕ) : TtyStream :=
  let s' := if len ≠ 0 then (getBump len s).2 else s
  { s' with b_sema_ := s'.b_sema_ + 1 }

/-- `signal_reader` and `signal_writer` once they have their permit: the transfer, by its first cell and its
length, of at most `io_len` bytes at the position `i`.  `live`: the stream is active; `device`: the device takes
the transfer. -/
def start (live device : Bool) (i : ℕ) (io_len : ℤ) (s : TtyStream) : TtyStream × Option (ℕ × ℕ) :=
  if live ∧ 0 < io_len then
    let len := min (min (toSize io_len) (s.size_ - i)) (s.size / 2)
    if len ≠ 0 ∧ device then (s, some (i, len)) else ({ s with b_sema_ := s.b_sema_ + 1 }, none)
  else ({ s with b_sema_ := s.b_sema_ + 1 }, none)

/-- The permit taken, and an empty buffer rewound. -/
def rewind (s : TtyStream) : TtyStream :=
  let s' := { s with b_sema_ := s.b_sema_ - 1 }
  if s'.isEmpty then { s' with head_ := 0, tail_ := 0 } else s'

/-- `TTY_Stream::signal_writer`. -/
def signalWriter (live device : Bool) (s : TtyStream) : TtyStream × Option (ℕ × ℕ) :=
  if s.isEmpty ∨ s.b_sema_ = 0 then (s, none)
  else
    let s' := s.rewind
    start live device s'.tail_ (ioLen s'.size_ (s'.head_ - s'.tail_)) s'

/-- `TTY_Stream::signal_reader`. -/
def signalReader (live device : Bool) (s : TtyStream) : TtyStream × Option (ℕ × ℕ) :=
  if s.isFull ∨ s.b_sema_ = 0 then (s, none)
  else
    let s' := s.rewind
    start live device s'.head_ (ioLen s'.size_ (s'.tail_ - s'.head_ - 1)) s'

/-! ## The unread bytes -/

/-- The unread bytes, as the positions give them. -/
def unread (s : TtyStream) : List UInt8 := window s.buffer_ s.size_ s.tail_ s.length

/-- The unread bytes of `s` are `q`. -/
structure Holds (s : TtyStream) (q : List UInt8) : Prop where
  tail_lt : s.tail_ < s.size_
  /-- one cell is always free -/
  room : q.length < s.size_
  head_eq : s.head_ = (s.tail_ + q.length) % s.size_
  bytes : window s.buffer_ s.size_ s.tail_ q.length = q

variable {s s' : TtyStream} {q : List UInt8}

theorem holds_new (size : ℕ) (junk : ℕ → UInt8) : Holds (new size junk) [] :=
  ⟨Nat.succ_pos _, Nat.succ_pos _, (Nat.zero_mod _).symm, rfl⟩

namespace Holds

theorem head_lt (h : Holds s q) : s.head_ < s.size_ := by
  rw [h.head_eq]
  exact Nat.mod_lt _ (by have := h.tail_lt; omega)

/-- The head is as far from the tail as there are bytes, or a round less. -/
theorem head_cases (h : Holds s q) :
    s.head_ = s.tail_ + q.length ∨ s.head_ + s.size_ = s.tail_ + q.length := by
  have hcases := mod_cases (a := s.tail_ + q.length) (N := s.size_) (by have := h.tail_lt; have := h.room; omega)
  rw [← h.head_eq] at hcases
  omega

theorem isEmpty_iff (h : Holds s q) : s.isEmpty = true ↔ q.length = 0 := by
  have hcases := h.head_cases
  have hroom := h.room
  have htail := h.tail_lt
  rw [isEmpty, decide_eq_true_eq]
  omega

theorem isFull_iff (h : Holds s q) : s.isFull = true ↔ q.length = s.size := by
  have hcases := h.head_cases
  have hroom := h.room
  have htail := h.tail_lt
  have hhead := h.head_lt
  have hmod := mod_cases (a := s.head_ + 1) (N := s.size_) (by omega)
  have hround : (s.head_ + s.size_ + 1) % s.size_ = (s.head_ + 1) % s.size_ := by
    rw [Nat.add_right_comm, Nat.add_mod_right]
  rw [isFull, decide_eq_true_eq, hround, size]
  omega

theorem length_eq (h : Holds s q) : s.length = q.length := by
  have hcases := h.head_cases
  have hroom := h.room
  have htail := h.tail_lt
  have hempty := h.isEmpty_iff
  unfold length
  split
  · next he => exact (hempty.mp he).symm
  · next he =>
    have hmod := mod_cases (a := s.size_ + s.head_ - s.tail_) (N := s.size_) (by omega)
    omega

theorem unread_eq (h : Holds s q) : s.unread = q := by
  unfold unread
  rw [h.length_eq]
  exact h.bytes

theorem cell (h : Holds s q) {i : ℕ} (hi : i < q.length) :
    q[i]? = some (s.buffer_ ((s.tail_ + i) % s.size_)) := by
  have hget := congrArg (fun l : List UInt8 => l[i]?) h.bytes
  simpa [window, hi] using hget.symm

/-- Bytes are copied to the head. -/
theorem store (h : Holds s q) (src : ℕ → UInt8) (i : ℕ) {k : ℕ} (hfree : q.length + k < s.size_)
    (hend : s.head_ + k ≤ s.size_) :
    Holds { s with buffer_ := copyTo s.buffer_ s.head_ src i k, head_ := (s.head_ + k) % s.size_ }
      (q ++ firstCells (fun j => src (i + j)) k) := by
  refine ⟨h.tail_lt, ?_, ?_, ?_⟩
  · rw [List.length_append, length_firstCells]
    exact hfree
  · rw [List.length_append, length_firstCells]
    show (s.head_ + k) % s.size_ = (s.tail_ + (q.length + k)) % s.size_
    rw [h.head_eq, Nat.mod_add_mod, Nat.add_assoc]
  · rw [List.length_append, length_firstCells]
    show window (copyTo s.buffer_ s.head_ src i k) s.size_ s.tail_ (q.length + k) = _
    rw [h.head_eq] at hend ⊢
    rw [window_copyTo h.tail_lt hfree.le hend, h.bytes]

/-- The head is moved past bytes that are there already. -/
theorem keep (h : Holds s q) {k : ℕ} (hfree : q.length + k < s.size_) (hend : s.head_ + k ≤ s.size_) :
    Holds { s with head_ := (s.head_ + k) % s.size_ } (q ++ firstCells (fun j => s.buffer_ (s.head_ + j)) k) := by
  have hstore := h.store s.buffer_ s.head_ hfree hend
  rwa [copyTo_self] at hstore

/-- Bytes are taken from the tail. -/
theorem drop (h : Holds s q) {k : ℕ} (hk : k ≤ q.length) :
    Holds { s with tail_ := (s.tail_ + k) % s.size_ } (q.drop k) := by
  have hpos : 0 < s.size_ := (Nat.zero_le _).trans_lt h.tail_lt
  have hbytes := h.bytes
  rw [show q.length = k + (q.length - k) by omega, window_add] at hbytes
  refine ⟨Nat.mod_lt _ hpos, ?_, ?_, ?_⟩
  · rw [List.length_drop]
    exact (Nat.sub_le _ _).trans_lt h.room
  · rw [List.length_drop]
    show s.head_ = ((s.tail_ + k) % s.size_ + (q.length - k)) % s.size_
    rw [Nat.mod_add_mod, h.head_eq, Nat.add_assoc, Nat.add_sub_cancel' hk]
  · rw [List.length_drop]
    show window s.buffer_ s.size_ ((s.tail_ + k) % s.size_) (q.length - k) = _
    rw [window_mod]
    have hdrop := congrArg (List.drop k) hbytes
    rwa [List.drop_left' (length_window _ _ _ _)] at hdrop

/-- What they are. -/
theorem take (h : Holds s q) {k : ℕ} (hk : k ≤ q.length) (hend : s.tail_ + k ≤ s.size_) :
    firstCells (fun j => s.buffer_ (s.tail_ + j)) k = q.take k := by
  have hbytes := h.bytes
  rw [show q.length = k + (q.length - k) by omega, window_add] at hbytes
  have htake := congrArg (List.take k) hbytes
  rwa [List.take_left' (length_window _ _ _ _), window_eq_firstCells _ hend] at htake

/-- The bytes before the last ones, with the head that belongs to them. -/
theorem of_append {p : List UInt8} {j : ℕ} (h : Holds { s with head_ := j } (q ++ p))
    (hhead : s.head_ = (s.tail_ + q.length) % s.size_) : Holds s q := by
  obtain ⟨htail, hroom, -, hbytes⟩ := h
  rw [List.length_append] at hroom hbytes
  refine ⟨htail, (Nat.le_add_right _ _).trans_lt hroom, hhead, ?_⟩
  rw [window_add] at hbytes
  exact (List.append_inj hbytes (length_window _ _ _ _)).1

/-- As far as there is room, `put_bump` moves the head. -/
theorem putBump (h : Holds s q) {n : ℕ} (hn : q.length + n < s.size_) :
    TtyStream.putBump n s = (n, { s with head_ := (s.head_ + n) % s.size_ }) := by
  induction n generalizing s q with
  | zero => rw [TtyStream.putBump, Nat.add_zero, Nat.mod_eq_of_lt h.head_lt]
  | succ n ih =>
    have hfull : ¬ s.isFull = true := by
      rw [h.isFull_iff, size]
      omega
    have hnext := h.keep (k := 1) (by omega) (by have := h.head_lt; omega)
    rw [TtyStream.putBump, if_neg hfull, ih hnext (by simp only [List.length_append, length_firstCells]; omega)]
    simp only [Nat.mod_add_mod, Nat.add_assoc, Nat.add_comm 1 n]

/-- As far as there are bytes, `get_bump` moves the tail. -/
theorem getBump (h : Holds s q) {n : ℕ} (hn : n ≤ q.length) :
    TtyStream.getBump n s = (n, { s with tail_ := (s.tail_ + n) % s.size_ }) := by
  induction n generalizing s q with
  | zero => rw [TtyStream.getBump, Nat.add_zero, Nat.mod_eq_of_lt h.tail_lt]
  | succ n ih =>
    have hempty : ¬ s.isEmpty = true := by
      rw [h.isEmpty_iff]
      omega
    rw [TtyStream.getBump, if_neg hempty, ih (h.drop (k := 1) (by omega)) (by rw [List.length_drop]; omega)]
    simp only [Nat.mod_add_mod, Nat.add_assoc, Nat.add_comm 1 n]

theorem recvNotify (h : Holds s q) {n : ℕ} (hn : q.length + n < s.size_) :
    s.recvNotify n = { s with head_ := (s.head_ + n) % s.size_, b_sema_ := s.b_sema_ + 1 } := by
  unfold TtyStream.recvNotify
  split
  · rw [h.putBump hn]
  · next hzero => rw [not_not.mp hzero, Nat.add_zero, Nat.mod_eq_of_lt h.head_lt]

theorem sendNotify (h : Holds s q) {n : ℕ} (hn : n ≤ q.length) :
    s.sendNotify n = { s with tail_ := (s.tail_ + n) % s.size_, b_sema_ := s.b_sema_ + 1 } := by
  unfold TtyStream.sendNotify
  split
  · rw [h.getBump hn]
  · next hzero => rw [not_not.mp hzero, Nat.add_zero, Nat.mod_eq_of_lt h.tail_lt]

end Holds

/-! ## Differences of positions as `int`s -/

theorem toInt_toSize (z : ℤ) : toInt (toSize z) = Int.bmod z (2 ^ 32) := by
  unfold toInt toSize Int.bmod
  dsimp only
  rw [Int.toNat_of_nonneg (by omega)]
  split <;> split <;> omega

/-- `io_len` is never more than there is, also where the positions do not fit an `int`. -/
theorem ioLen_le {N : ℕ} (hN : 0 ≤ toInt N) {z : ℤ} (hz : z ≠ 0) {a : ℕ} (ha : z = a ∨ (z < 0 ∧ z + N = a)) :
    ioLen N z ≤ a := by
  unfold ioLen
  rw [toInt_toSize]
  unfold toInt at hN ⊢
  unfold Int.bmod at hN ⊢
  dsimp only at hN ⊢
  split <;> omega

theorem ioLen_lt (N : ℕ) (z : ℤ) : ioLen N z < 2 ^ 31 := by
  have hz := toInt_lt (toSize z)
  have hN := toInt_lt N
  unfold ioLen
  split <;> omega

/-- In an empty buffer whose size looks negative there seems to be no room. -/
theorem ioLen_stuck {N : ℕ} (hN : toInt N < 0) : ioLen N (-1) < 0 := by
  have hint : toInt (toSize (-1)) = -1 := rfl
  unfold ioLen
  rw [hint]
  split <;> omega

/-- A position from which the bytes up to the end of the buffer fit an `int`, in a buffer whose size does not
look negative.  Of a buffer of at most `INT_MAX` bytes this is every position. -/
def Near (N i : ℕ) : Prop := 0 ≤ toInt N ∧ 0 ≤ toInt (N - i)

theorem Near.add {N i k : ℕ} (h : Near N i) (hk : (k : ℤ) ≤ toInt (N - i)) (hi : i < N) :
    Near N ((i + k) % N) := by
  obtain ⟨hN, hi'⟩ := h
  have hle := toInt_le (N - i)
  refine ⟨hN, ?_⟩
  by_cases hlt : i + k < N
  · rw [Nat.mod_eq_of_lt hlt]
    unfold toInt Int.bmod at hi' hk ⊢
    dsimp only at hi' hk ⊢
    split at hk <;> split <;> omega
  · rw [show i + k = N by omega, Nat.mod_self]
    exact hN

theorem toSize_of_nonneg {z : ℤ} (h : 0 ≤ z) (hlt : z < 2 ^ 31) : (toSize z : ℤ) = z := by
  unfold toSize
  omega

/-- What one round of a copy loop copies, out of `a` bytes and up to the end of the buffer. -/
theorem chunk_le {N i : ℕ} (h : Near N i) {z : ℤ} (hz : z ≠ 0) {a : ℕ} (ha : z = a ∨ (z < 0 ∧ z + N = a))
    (hpos : 0 < ioLen N z) {iov_len : ℤ} (hlen : 0 < iov_len) :
    toSize (min (min iov_len (ioLen N z)) (toInt (N - i))) ≤ a ∧
      (toSize (min (min iov_len (ioLen N z)) (toInt (N - i))) : ℤ) ≤ toInt (N - i) := by
  have hle := ioLen_le h.1 hz ha
  have hnear := h.2
  have hlt := toInt_lt (N - i)
  have hsize := toSize_of_nonneg (z := min (min iov_len (ioLen N z)) (toInt (N - i))) (by omega) (by omega)
  omega

theorem ne_zero_of_toInt {z : ℤ} (h : toInt (toSize z) ≠ 0) : z ≠ 0 := by
  rintro rfl
  exact h rfl

namespace Holds

variable {iov_buf : ℕ → UInt8} {fuel n : ℕ} {iov_len : ℤ}

/-- `put` copies to the head what the caller's buffer starts with. -/
theorem putLoop (h : Holds s q) (hnear : Near s.size_ s.head_) {put_len : ℕ}
    (hs : TtyStream.putLoop iov_buf fuel iov_len put_len s = some (n, s')) :
    ∃ k, n = put_len + k ∧ Holds s' (q ++ firstCells (fun i => iov_buf (put_len + i)) k) ∧
      Near s.size_ s'.head_ ∧ s' = { s with buffer_ := s'.buffer_, head_ := (s.head_ + k) % s.size_ } := by
  induction fuel generalizing s q iov_len put_len with
  | zero => cases hs
  | succ fuel ih =>
    have hstop : n = put_len → s' = s → ∃ k, n = put_len + k ∧
        Holds s' (q ++ firstCells (fun i => iov_buf (put_len + i)) k) ∧ Near s.size_ s'.head_ ∧
        s' = { s with buffer_ := s'.buffer_, head_ := (s.head_ + k) % s.size_ } := by
      rintro rfl rfl
      refine ⟨0, rfl, ?_, hnear, ?_⟩
      · simpa [firstCells] using h
      · rw [Nat.add_zero, Nat.mod_eq_of_lt h.head_lt]
    rw [TtyStream.putLoop] at hs
    split at hs
    · next hlen =>
      dsimp only at hs
      split at hs
      · obtain ⟨rfl, rfl⟩ := Prod.mk.inj (Option.some.inj hs)
        exact hstop rfl rfl
      · next hne =>
        split at hs
        · next hpos =>
          have hroom := h.room
          have hcases := h.head_cases
          obtain ⟨hle, hend⟩ := chunk_le hnear (ne_zero_of_toInt hne) (a := s.size_ - 1 - q.length) (by omega) hpos
            hlen
          generalize toSize (min (min iov_len (ioLen s.size_ (s.tail_ - s.head_ - 1)))
            (toInt (s.size_ - s.head_))) = k at hs hle hend
          have hblen := toInt_le (s.size_ - s.head_)
          have hhead := h.head_lt
          have hstore := h.store iov_buf put_len (k := k) (by omega) (by omega)
          obtain ⟨m, rfl, hholds, hnear', hframe⟩ := ih hstore (hnear.add hend hhead) hs
          refine ⟨k + m, Nat.add_assoc _ _ _, ?_, hnear', ?_⟩
          · rw [firstCells_add, ← List.append_assoc]
            simpa only [Nat.add_assoc] using hholds
          · rw [hframe]
            simp only [Nat.mod_add_mod, Nat.add_assoc]
        · exact ih h hnear hs
    · obtain ⟨rfl, rfl⟩ := Prod.mk.inj (Option.some.inj hs)
      exact hstop rfl rfl

/-- `get` copies the first unread bytes behind what is in the caller's buffer already. -/
theorem getLoop (h : Holds s q) (hnear : Near s.size_ s.tail_) {get_len : ℕ} {out : ℕ → UInt8}
    (hs : TtyStream.getLoop fuel iov_len get_len iov_buf s = some (n, out)) :
    ∃ k, n = get_len + k ∧ k ≤ q.length ∧ firstCells out n = firstCells iov_buf get_len ++ q.take k ∧
      Near s.size_ ((s.tail_ + k) % s.size_) := by
  induction fuel generalizing s q iov_len get_len iov_buf with
  | zero => cases hs
  | succ fuel ih =>
    have hstop : n = get_len → out = iov_buf → ∃ k, n = get_len + k ∧ k ≤ q.length ∧
        firstCells out n = firstCells iov_buf get_len ++ q.take k ∧ Near s.size_ ((s.tail_ + k) % s.size_) := by
      rintro rfl rfl
      refine ⟨0, rfl, Nat.zero_le _, by simp, ?_⟩
      rwa [Nat.add_zero, Nat.mod_eq_of_lt h.tail_lt]
    rw [TtyStream.getLoop] at hs
    split at hs
    · next hlen =>
      dsimp only at hs
      split at hs
      · obtain ⟨rfl, rfl⟩ := Prod.mk.inj (Option.some.inj hs)
        exact hstop rfl rfl
      · next hne =>
        split at hs
        · next hpos =>
          have hroom := h.room
          have hcases := h.head_cases
          obtain ⟨hle, hend⟩ := chunk_le hnear (ne_zero_of_toInt hne) (a := q.length) (by omega) hpos hlen
          generalize toSize (min (min iov_len (ioLen s.size_ (s.head_ - s.tail_)))
            (toInt (s.size_ - s.tail_))) = k at hs hle hend
          have hblen := toInt_le (s.size_ - s.tail_)
          have htail := h.tail_lt
          obtain ⟨m, rfl, hm, hcells, hnear'⟩ := ih (h.drop hle) (hnear.add hend htail) hs
          rw [List.length_drop] at hm
          refine ⟨k + m, Nat.add_assoc _ _ _, by omega, ?_, ?_⟩
          · rw [hcells, firstCells_copyTo, h.take hle (by omega), List.append_assoc, List.take_add]
          · simpa only [Nat.mod_add_mod, Nat.add_assoc] using hnear'
        · exact ih h hnear hs
    · obtain ⟨rfl, rfl⟩ := Prod.mk.inj (Option.some.inj hs)
      exact hstop rfl rfl

end Holds

/-- There a `put` copies nothing. -/
theorem putLoop_stuck {iov_buf : ℕ → UInt8} {fuel n : ℕ} {iov_len : ℤ} {put_len : ℕ} (hN : toInt s.size_ < 0)
    (he : s.head_ = s.tail_) (hs : putLoop iov_buf fuel iov_len put_len s = some (n, s')) :
    n = put_len ∧ s' = s := by
  have hint : toInt (toSize ((s.tail_ : ℤ) - s.head_ - 1)) = -1 := by
    rw [he, sub_self, zero_sub]
    rfl
  have hio : ioLen s.size_ ((s.tail_ : ℤ) - s.head_ - 1) < 0 := by
    rw [he, sub_self, zero_sub]
    exact ioLen_stuck hN
  induction fuel generalizing iov_len with
  | zero => cases hs
  | succ fuel ih =>
    rw [putLoop] at hs
    split at hs
    · dsimp only at hs
      rw [if_neg (by omega), if_neg (by omega)] at hs
      exact ih hs
    · obtain ⟨rfl, rfl⟩ := Prod.mk.inj (Option.some.inj hs)
      exact ⟨rfl, rfl⟩

theorem getLoop_stuck {iov_buf out : ℕ → UInt8} {fuel n : ℕ} {iov_len : ℤ} {get_len : ℕ} (he : s.head_ = s.tail_)
    (hs : getLoop fuel iov_len get_len iov_buf s = some (n, out)) : n = get_len ∧ out = iov_buf := by
  have hint : toInt (toSize ((s.head_ : ℤ) - s.tail_)) = 0 := by
    rw [he, sub_self]
    rfl
  cases fuel with
  | zero => cases hs
  | succ fuel =>
    rw [getLoop] at hs
    split at hs
    · dsimp only at hs
      rw [if_pos hint] at hs
      obtain ⟨rfl, rfl⟩ := Prod.mk.inj (Option.some.inj hs)
      exact ⟨rfl, rfl⟩
    · obtain ⟨rfl, rfl⟩ := Prod.mk.inj (Option.some.inj hs)
      exact ⟨rfl, rfl⟩

/-! ## `put` and `get` -/

/-- `put` and `get` may copy at the position `i`, or nothing is ever copied. -/
def Fit (N : ℕ) (q : List UInt8) (i : ℕ) : Prop := Near N i ∨ (toInt N < 0 ∧ q = [])

theorem fit_new (size : ℕ) : Fit (size + 1) [] 0 := by
  by_cases h : 0 ≤ toInt (size + 1)
  · exact Or.inl ⟨h, h⟩
  · exact Or.inr ⟨not_le.mp h, rfl⟩

/-- The first bytes of a caller's buffer, of which a null pointer has none. -/
def callerBytes (iov_buf : Option (ℕ → UInt8)) (n : ℕ) : List UInt8 := iov_buf.elim [] (firstCells · n)

theorem Holds.head_eq_tail (h : Holds s []) : s.head_ = s.tail_ := by
  simpa [isEmpty] using h.isEmpty_iff.mpr rfl

/-- What a `put` of the bytes `p` leaves in the buffer, before and after the head is moved past them. -/
structure Accepted (s : TtyStream) (mem : ℕ → UInt8) (q p : List UInt8) : Prop where
  before : Holds { s with buffer_ := mem } q
  after : Holds { s with buffer_ := mem, head_ := (s.head_ + p.length) % s.size_ } (q ++ p)
  fit : Fit s.size_ (q ++ p) ((s.head_ + p.length) % s.size_)
  stuck : toInt s.size_ < 0 → p = []

theorem accepted_nil (h : Holds s q) (hfit : Fit s.size_ q s.head_) : Accepted s s.buffer_ q [] := by
  have hhead : (s.head_ + ([] : List UInt8).length) % s.size_ = s.head_ := Nat.mod_eq_of_lt h.head_lt
  refine ⟨h, ?_, ?_, fun _ => rfl⟩
  · rw [hhead, List.append_nil]
    exact h
  · rwa [hhead, List.append_nil]

/-- The loop of `put`, wherever it may copy. -/
theorem Holds.accepted (h : Holds s q) (hfit : Fit s.size_ q s.head_) {iov_buf : ℕ → UInt8} {fuel n : ℕ}
    {iov_len : ℤ} (hs : TtyStream.putLoop iov_buf fuel iov_len 0 s = some (n, s')) :
    Accepted s s'.buffer_ q (firstCells iov_buf n) := by
  rcases hfit with hnear | ⟨hneg, rfl⟩
  · obtain ⟨k, rfl, hholds, hnear', hframe⟩ := h.putLoop hnear hs
    simp only [Nat.zero_add] at hholds ⊢
    have hhead : s'.head_ = (s.head_ + k) % s.size_ := congrArg head_ hframe
    have hafter : Holds { s with buffer_ := s'.buffer_, head_ := (s.head_ + k) % s.size_ }
        (q ++ firstCells iov_buf k) := by
      rw [hframe] at hholds
      exact hholds
    refine ⟨Holds.of_append (s := { s with buffer_ := s'.buffer_ }) hafter h.head_eq, ?_, ?_,
      fun hneg => absurd hnear.1 (not_le.mpr hneg)⟩
    · rw [length_firstCells]
      exact hafter
    · rw [length_firstCells, ← hhead]
      exact Or.inl hnear'
  · obtain ⟨rfl, rfl⟩ := putLoop_stuck hneg h.head_eq_tail hs
    exact accepted_nil h (Or.inr ⟨hneg, rfl⟩)

/-- A `put` that ends with `n` has copied the first `n` bytes of the caller's buffer. -/
theorem Holds.put (h : Holds s q) (hfit : Fit s.size_ q s.head_) {fuel n : ℕ} {iov_buf : Option (ℕ → UInt8)}
    {iov_len : ℤ} (hs : TtyStream.put fuel s iov_buf iov_len = some (n, s')) :
    ∃ mem p, s' = { s with buffer_ := mem } ∧ callerBytes iov_buf n = p ∧ p.length = n ∧ Accepted s mem q p := by
  unfold TtyStream.put at hs
  split at hs
  · obtain ⟨rfl, rfl⟩ := Prod.mk.inj (Option.some.inj hs)
    exact ⟨_, _, rfl, rfl, rfl, accepted_nil h hfit⟩
  · split at hs
    · obtain ⟨⟨m, t⟩, hloop, heq⟩ := Option.map_eq_some_iff.mp hs
      obtain ⟨rfl, rfl⟩ := Prod.mk.inj heq
      exact ⟨_, _, rfl, rfl, length_firstCells _ _, h.accepted hfit hloop⟩
    · obtain ⟨rfl, rfl⟩ := Prod.mk.inj (Option.some.inj hs)
      exact ⟨_, _, rfl, rfl, rfl, accepted_nil h hfit⟩

/-- `put_bump` then moves the head past them all. -/
theorem Accepted.putBump {mem : ℕ → UInt8} {p : List UInt8} (h : Accepted s mem q p) :
    TtyStream.putBump p.length { s with buffer_ := mem } =
      (p.length, { s with buffer_ := mem, head_ := (s.head_ + p.length) % s.size_ }) := by
  have hroom := h.after.room
  rw [List.length_append] at hroom
  exact h.before.putBump hroom

/-- What a `get` of `n` bytes has copied, and where the tail goes. -/
structure Delivered (s : TtyStream) (q : List UInt8) (n : ℕ) (p : List UInt8) : Prop where
  le : n ≤ q.length
  bytes : p = q.take n
  fit : Fit s.size_ (q.drop n) ((s.tail_ + n) % s.size_)

theorem delivered_nil (h : Holds s q) (hfit : Fit s.size_ q s.tail_) : Delivered s q 0 [] := by
  refine ⟨Nat.zero_le _, rfl, ?_⟩
  rwa [Nat.add_zero, Nat.mod_eq_of_lt h.tail_lt]

/-- The loop of `get`, wherever it may copy. -/
theorem Holds.delivered (h : Holds s q) (hfit : Fit s.size_ q s.tail_) {iov_buf out : ℕ → UInt8} {fuel n : ℕ}
    {iov_len : ℤ} (hs : TtyStream.getLoop fuel iov_len 0 iov_buf s = some (n, out)) :
    Delivered s q n (firstCells out n) := by
  rcases hfit with hnear | ⟨hneg, rfl⟩
  · obtain ⟨k, rfl, hle, hcells, hnear'⟩ := h.getLoop hnear hs
    rw [Nat.zero_add] at hcells ⊢
    exact ⟨hle, hcells, Or.inl hnear'⟩
  · obtain ⟨rfl, rfl⟩ := getLoop_stuck h.head_eq_tail hs
    exact delivered_nil h (Or.inr ⟨hneg, rfl⟩)

/-- A `get` that ends with `n` has copied the first `n` unread bytes. -/
theorem Holds.get (h : Holds s q) (hfit : Fit s.size_ q s.tail_) {fuel n : ℕ} {iov_buf out : Option (ℕ → UInt8)}
    {iov_len : ℤ} (hs : TtyStream.get fuel s iov_buf iov_len = some (n, out)) :
    Delivered s q n (callerBytes out n) := by
  unfold TtyStream.get at hs
  split at hs
  · obtain ⟨rfl, rfl⟩ := Prod.mk.inj (Option.some.inj hs)
    exact delivered_nil h hfit
  · split at hs
    · obtain ⟨⟨m, t⟩, hloop, heq⟩ := Option.map_eq_some_iff.mp hs
      obtain ⟨rfl, rfl⟩ := Prod.mk.inj heq
      exact h.delivered hfit hloop
    · obtain ⟨rfl, rfl⟩ := Prod.mk.inj (Option.some.inj hs)
      exact delivered_nil h hfit

/-! ## `find` -/

/-- Where the first `c` from `off` on is in `q`. -/
def Found (q : List UInt8) (c : UInt8) (off : ℤ) : Option ℕ → Prop
  | some i => off ≤ i ∧ q[i]? = some c ∧ ∀ j : ℕ, off ≤ j → j < i → q[j]? ≠ some c
  | none => ∀ j : ℕ, off ≤ j → q[j]? ≠ some c

/-- A byte before them: one that is skipped, or one that is not `c`. -/
theorem Found.cons {c x : UInt8} {off off' : ℤ} {r : Option ℕ} (h : Found q c off r)
    (hoff : ∀ j : ℕ, off' ≤ (j + 1 : ℕ) ↔ off ≤ j) (hx : off' ≤ 0 → x ≠ c) :
    Found (x :: q) c off' (r.map (· + 1)) := by
  have hother : ∀ j : ℕ, off' ≤ j → (∀ i : ℕ, j = i + 1 → q[i]? ≠ some c) → (x :: q)[j]? ≠ some c := by
    intro j hj hq
    cases j with
    | zero => simpa using hx hj
    | succ i => simpa using hq i rfl
  cases r with
  | none =>
    intro j hj
    refine hother j hj fun i hi => h i ((hoff i).mp ?_)
    rwa [← hi]
  | some i =>
    obtain ⟨hle, hc, hfirst⟩ := h
    refine ⟨(hoff i).mpr hle, by simpa using hc, fun j hj hlt => ?_⟩
    refine hother j hj fun k hk => hfirst k ((hoff k).mp ?_) ?_
    · rwa [← hk]
    · dsimp only at hlt
      omega

theorem findLoop_tail (s : TtyStream) (t : ℕ) (c : UInt8) (fuel tail : ℕ) (pos off : ℤ) :
    findLoop { s with tail_ := t } c fuel tail pos off = findLoop s c fuel tail pos off := by
  induction fuel generalizing tail pos off with
  | zero => rfl
  | succ fuel ih => simp only [findLoop, ih]

theorem Holds.findLoop (h : Holds s q) {fuel : ℕ} (hfuel : q.length < fuel) (c : UInt8) (pos off : ℤ) :
    ∃ r : Option ℕ, TtyStream.findLoop s c fuel s.tail_ pos off = some (r.elim (-1) (pos + ·)) ∧
      Found q c off r := by
  induction q generalizing s fuel pos off with
  | nil =>
    obtain ⟨fuel, rfl⟩ := Nat.exists_eq_add_one_of_ne_zero (by omega : fuel ≠ 0)
    refine ⟨none, ?_, fun j _ => by simp⟩
    rw [TtyStream.findLoop, if_pos h.head_eq_tail.symm]
    rfl
  | cons x q ih =>
    obtain ⟨fuel, rfl⟩ := Nat.exists_eq_add_one_of_ne_zero (by omega : fuel ≠ 0)
    rw [List.length_cons] at hfuel
    have hne : s.tail_ ≠ s.head_ := by
      intro heq
      have hempty := h.isEmpty_iff.mp (by rw [isEmpty, decide_eq_true_eq, heq])
      simp at hempty
    have hx : s.buffer_ s.tail_ = x := by
      have htake := h.take (k := 1) (by simp) h.tail_lt
      simpa [firstCells] using htake
    have hnext := h.drop (k := 1) (by simp)
    have helim : ∀ r : Option ℕ, (r.elim (-1) fun i => pos + 1 + (i : ℤ)) =
        (r.map fun i : ℕ => i + 1).elim (-1) fun i => pos + (i : ℤ) := by
      rintro (_ | i)
      · rfl
      · simp only [Option.elim, Option.map]
        push_cast
        ring
    by_cases hpos : 0 < off
    · obtain ⟨r, hr, hfound⟩ := ih hnext (by omega : q.length < fuel) (pos + 1) (off - 1)
      rw [findLoop_tail] at hr
      refine ⟨r.map fun i => i + 1, ?_, hfound.cons (fun j => by push_cast; omega) (fun hle => by omega)⟩
      rw [TtyStream.findLoop, if_neg hne, if_pos hpos, hr, helim]
    · by_cases hc : s.buffer_ s.tail_ = c
      · refine ⟨some 0, ?_, by push_cast; omega, by rw [← hx, hc]; rfl, fun j _ hj => absurd hj (by omega)⟩
        rw [TtyStream.findLoop, if_neg hne, if_neg hpos, if_pos hc]
        simp
      · obtain ⟨r, hr, hfound⟩ := ih hnext (by omega : q.length < fuel) (pos + 1) off
        rw [findLoop_tail] at hr
        refine ⟨r.map fun i => i + 1, ?_, hfound.cons (fun j => by push_cast; omega) (fun _ => hx ▸ hc)⟩
        rw [TtyStream.findLoop, if_neg hne, if_neg hpos, if_neg hc, hr, helim]

/-- `find` ends, with the first place from `off` on or with `-1`. -/
theorem Holds.find (h : Holds s q) (c : UInt8) (off : ℤ) :
    ∃ r : Option ℕ, TtyStream.find s c off = some (r.elim (-1) Nat.cast) ∧ Found q c off r := by
  obtain ⟨r, hr, hfound⟩ := h.findLoop h.room c 0 off
  refine ⟨r, ?_, hfound⟩
  unfold TtyStream.find
  rw [hr]
  cases r <;> simp

end TtyStream

end Lasagne.Dev
