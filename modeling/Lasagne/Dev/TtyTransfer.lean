import Lasagne.Trans.Fuel
import Lasagne.Dev.TtyStream

/-!
# Lasagne.Dev.TtyTransfer — how much `put` and `get` copy, and whether `put` ends

What is free or unread in the buffer is one block of cells, or two: up to the end of the buffer, and from its start
on.  Each block takes a round of the copy loop, and each round takes what it copied off the length twice: in the body
of the loop and in its head.

* `put_ends_iff`: `put` runs for ever where the tail is at the first cell and the length is more than twice the room.
* `transfer_iff`: both copy what they should where one block is enough, or where the length is so long that the second
  reduction does not matter.
-/

namespace Lasagne.Dev.TtyStream

open Lasagne.Trans Lasagne.Daf

/-! ## Rooms -/

/-- The positions are in the buffer, and its size fits an `int`. -/
structure Sized (s : TtyStream) : Prop where
  head_lt : s.head_ < s.size_
  tail_lt : s.tail_ < s.size_
  fits : s.size_ < 2 ^ 31

/-- How many bytes there is room for. -/
def room (s : TtyStream) : ℕ := s.size - s.length

/-- What a loop of two rounds copies, where `first` bytes go in the first and `rest` in the second one. -/
def moved (first rest len : ℕ) : ℕ := min len first + min (len - 2 * first) rest

theorem moved_of_le {first rest len : ℕ} (h : len ≤ 2 * first) : moved first rest len = min len first := by
  rw [moved, Nat.sub_eq_zero_of_le h, Nat.zero_min, Nat.add_zero]

theorem moved_zero (first len : ℕ) : moved first 0 len = min len first := by
  rw [moved, Nat.min_zero, Nat.add_zero]

variable {s s' : TtyStream} {iov_buf : ℕ → UInt8} {fuel len n : ℕ}

namespace Sized

theorem length_eq (h : Sized s) :
    s.length = if s.tail_ ≤ s.head_ then s.head_ - s.tail_ else s.size_ + s.head_ - s.tail_ := by
  obtain ⟨hhead, htail, -⟩ := h
  have hmod := mod_cases (a := s.size_ + s.head_ - s.tail_) (N := s.size_) (by omega)
  unfold length isEmpty
  by_cases he : s.head_ = s.tail_
  · rw [if_pos (decide_eq_true he), if_pos (by omega)]
    omega
  · rw [if_neg (by simpa using he)]
    split <;> omega

theorem length_lt (h : Sized s) : s.length < s.size_ := by
  have hlength := h.length_eq
  obtain ⟨hhead, htail, -⟩ := h
  split at hlength <;> omega

theorem room_eq (h : Sized s) :
    s.room = if s.tail_ ≤ s.head_ then s.size_ + s.tail_ - s.head_ - 1 else s.tail_ - s.head_ - 1 := by
  have hlength := h.length_eq
  obtain ⟨hhead, htail, -⟩ := h
  unfold room size
  split_ifs at hlength ⊢ <;> omega

theorem room_pos_iff (h : Sized s) : 0 < s.room ↔ s.isFull = false := by
  have hroom := h.room_eq
  obtain ⟨hhead, htail, -⟩ := h
  have hround : (s.head_ + s.size_ + 1) % s.size_ = (s.head_ + 1) % s.size_ := by
    rw [Nat.add_right_comm, Nat.add_mod_right]
  have hmod := mod_cases (a := s.head_ + 1) (N := s.size_) (by omega)
  rw [isFull, decide_eq_false_iff_not, hround]
  split at hroom <;> omega

/-- Positions in the buffer hold the bytes between them. -/
theorem holds (h : Sized s) : Holds s s.unread := by
  have hlength := h.length_eq
  have hlt := h.length_lt
  obtain ⟨hhead, htail, -⟩ := h
  have hunread : s.unread.length = s.length := length_window _ _ _ _
  refine ⟨htail, by rwa [hunread], ?_, by rw [hunread, unread]⟩
  have hmod := mod_cases (a := s.tail_ + s.length) (N := s.size_) (by omega)
  rw [hunread]
  split at hlength <;> omega

theorem fit (h : Sized s) {q : List UInt8} {i : ℕ} : Fit s.size_ q i := by
  have hsize := h.fits
  have hN := toInt_eq_iff.mpr hsize
  have hi := toInt_eq_iff.mpr (show s.size_ - i < 2 ^ 31 by omega)
  exact Or.inl ⟨by omega, by omega⟩

/-- After `m` bytes the head is still in the buffer. -/
theorem advance (h : Sized s) (mem : ℕ → UInt8) (m : ℕ) :
    Sized { s with buffer_ := mem, head_ := (s.head_ + m) % s.size_ } :=
  ⟨Nat.mod_lt _ ((Nat.zero_le _).trans_lt h.head_lt), h.tail_lt, h.fits⟩

theorem take (h : Sized s) (m : ℕ) : Sized { s with tail_ := (s.tail_ + m) % s.size_ } :=
  ⟨h.head_lt, Nat.mod_lt _ ((Nat.zero_le _).trans_lt h.head_lt), h.fits⟩

end Sized

/-! ## Rounds -/

/-- `io_len` is what there is, where everything fits an `int`. -/
theorem ioLen_eq {N a : ℕ} {z : ℤ} (hN : N < 2 ^ 31) (ha : a ≤ N) (hz : z ≠ 0)
    (h : z = a ∨ (z < 0 ∧ z + N = a)) : toInt (toSize z) ≠ 0 ∧ ioLen N z = a := by
  have hNat := toInt_eq_iff.mpr hN
  have hint : toInt (toSize z) = z := by
    rw [toInt_toSize]
    unfold Int.bmod
    dsimp only
    split <;> omega
  unfold ioLen
  rw [hint, hNat]
  refine ⟨hz, ?_⟩
  split <;> omega

theorem chunk_eq {len a b : ℕ} (hlen : len < 2 ^ 31) (hb : b < 2 ^ 31) :
    min (min (len : ℤ) a) (toInt b) = (min (min len a) b : ℕ) ∧
      toSize ((min (min len a) b : ℕ) : ℤ) = min (min len a) b := by
  rw [toInt_eq_iff.mpr hb]
  refine ⟨by push_cast; rfl, ?_⟩
  unfold toSize
  omega

/-- The loop stops where nothing is left to copy, and where the head comes to the cell before the tail. -/
theorem putLoop_stop {iov_len : ℤ} (h : iov_len ≤ 0 ∨ s.tail_ = s.head_ + 1) :
    putLoop iov_buf (fuel + 1) iov_len n s = some (n, s) := by
  rw [putLoop]
  split
  · have hdiff : (s.tail_ : ℤ) - s.head_ - 1 = 0 := by omega
    rw [hdiff]
    exact if_pos rfl
  · rfl

/-- A round that copies. -/
theorem putLoop_copy (h : Sized s) (hroom : 0 < s.room) (hpos : 0 < len) (hlen : len < 2 ^ 31) :
    putLoop iov_buf (fuel + 1) len n s =
      putLoop iov_buf fuel (len - 2 * (min (min len s.room) (s.size_ - s.head_) : ℕ))
        (n + min (min len s.room) (s.size_ - s.head_))
        { s with
          buffer_ := copyTo s.buffer_ s.head_ iov_buf n (min (min len s.room) (s.size_ - s.head_))
          head_ := (s.head_ + min (min len s.room) (s.size_ - s.head_)) % s.size_ } := by
  have hfree := h.room_eq
  obtain ⟨hhead, htail, hfits⟩ := h
  have hio := ioLen_eq (N := s.size_) (a := s.room) (z := (s.tail_ : ℤ) - s.head_ - 1) hfits
    (by split at hfree <;> omega) (by split at hfree <;> omega) (by split at hfree <;> omega)
  have hchunk := chunk_eq (a := s.room) (b := s.size_ - s.head_) hlen (by omega)
  rw [putLoop, if_pos (by omega)]
  dsimp only
  rw [if_neg hio.1, hio.2, if_pos (by omega), hchunk.1, hchunk.2]
  congr 1
  ring

/-- With the tail at the first cell and the head at the last one, `io_len` comes out as 0, and the loop does not see
that this means full. -/
theorem putLoop_stall (h : Sized s) (htail : s.tail_ = 0) (hhead : s.head_ + 1 = s.size_) {iov_len : ℤ}
    (hpos : 0 < iov_len) : putLoop iov_buf fuel iov_len n s = none := by
  have hfits := h.fits
  have hio := ioLen_eq (N := s.size_) (a := 0) (z := (s.tail_ : ℤ) - s.head_ - 1) hfits (Nat.zero_le _) (by omega)
    (by omega)
  induction fuel with
  | zero => rfl
  | succ fuel ih =>
    rw [putLoop, if_pos hpos]
    dsimp only
    rw [if_neg hio.1, hio.2, if_neg (by omega), Nat.cast_zero, sub_zero]
    exact ih

/-- More rounds than the loop needs change nothing. -/
theorem putLoop_steady (iov_buf : ℕ → UInt8) (iov_len : ℤ) (n : ℕ) (s : TtyStream) :
    Steady fun fuel => putLoop iov_buf fuel iov_len n s := by
  refine .of_succ fun fuel r h => ?_
  induction fuel generalizing iov_len n s with
  | zero => cases h
  | succ fuel ih =>
    rw [putLoop] at h ⊢
    dsimp only at h ⊢
    split_ifs at h ⊢
    · exact h
    · exact ih _ _ _ h
    · exact ih _ _ _ h
    · exact h

/-! ## `put` -/

/-- The free cells from the head to the end of the buffer, or to the cell before the tail. -/
def freeBlock (s : TtyStream) : ℕ := min s.room (s.size_ - s.head_)

/-- The second block: the head is at the first cell again. -/
theorem putLoop_again (iov_buf : ℕ → UInt8) (n : ℕ) (h : Sized s) (hhead : s.head_ = 0) (htail : 1 < s.tail_)
    (hpos : 0 < len) (hlen : len < 2 ^ 31) : ∃ s', putLoop iov_buf 2 len n s = some (n + min len (s.tail_ - 1), s') := by
  have hroom : s.room = s.tail_ - 1 := by
    rw [h.room_eq, if_neg (by omega), hhead]
    omega
  have hlt := h.tail_lt
  have hmin : min (min len s.room) (s.size_ - s.head_) = min len (s.tail_ - 1) := by omega
  rw [putLoop_copy h (by omega) hpos hlen, hmin]
  refine ⟨_, putLoop_stop ?_⟩
  show (len : ℤ) - 2 * (min len (s.tail_ - 1) : ℕ) ≤ 0 ∨ s.tail_ = (s.head_ + min len (s.tail_ - 1)) % s.size_ + 1
  rw [hhead, Nat.mod_eq_of_lt (by omega)]
  omega

/-- `put` ends unless the tail is at the first cell and too much is left after the one block that is free. -/
theorem putLoop_run (iov_buf : ℕ → UInt8) (h : Sized s) (hroom : 0 < s.room) (hpos : 0 < len) (hlen : len < 2 ^ 31)
    (hends : ¬ (s.tail_ = 0 ∧ 2 * s.room < len)) :
    ∃ s', putLoop iov_buf 3 len 0 s = some (moved s.freeBlock (s.room - s.freeBlock) len, s') := by
  have hfree := h.room_eq
  have hhead := h.head_lt
  have htail := h.tail_lt
  unfold freeBlock
  rw [putLoop_copy h hroom hpos hlen, Nat.zero_add]
  generalize copyTo s.buffer_ s.head_ iov_buf 0 (min (min len s.room) (s.size_ - s.head_)) = mem
  by_cases hshort : len ≤ 2 * min s.room (s.size_ - s.head_)
  · -- the reduced length is used up
    rw [moved_of_le hshort, ← min_assoc, putLoop_stop (by omega)]
    exact ⟨_, rfl⟩
  · by_cases hwrap : s.room ≤ s.size_ - s.head_
    · -- one block, and the head is now before the tail
      have hlong : s.room ≤ len := by omega
      have hmod := mod_cases (a := s.head_ + s.room) (N := s.size_) (by omega)
      rw [min_eq_right hlong, min_eq_left hwrap, Nat.sub_self, moved_zero, min_eq_right hlong,
        putLoop_stop (Or.inr ?_)]
      · exact ⟨_, rfl⟩
      · show s.tail_ = (s.head_ + s.room) % s.size_ + 1
        split at hfree <;> omega
    · have hmin : min (min len s.room) (s.size_ - s.head_) = s.size_ - s.head_ := by omega
      have hstart : (s.head_ + (s.size_ - s.head_)) % s.size_ = 0 := by
        rw [Nat.add_sub_cancel' hhead.le, Nat.mod_self]
      have hrest : s.room - (s.size_ - s.head_) = s.tail_ - 1 ∧ 1 < s.tail_ := by
        split at hfree <;> omega
      have hleft : 0 < len - 2 * (s.size_ - s.head_) := by omega
      obtain ⟨s', hs'⟩ := putLoop_again iov_buf (s.size_ - s.head_) (h.advance mem (s.size_ - s.head_)) hstart
        hrest.2 hleft (by omega)
      refine ⟨s', ?_⟩
      unfold moved
      rw [hmin, show (len : ℤ) - 2 * (s.size_ - s.head_ : ℕ) = (len - 2 * (s.size_ - s.head_) : ℕ) by omega, hs',
        show min s.room (s.size_ - s.head_) = s.size_ - s.head_ by omega, hrest.1]
      exact congrArg some (Prod.ext (by dsimp only; omega) rfl)

/-- Otherwise it never does. -/
theorem putLoop_hang (h : Sized s) (hroom : 0 < s.room) (hlen : len < 2 ^ 31) (htail : s.tail_ = 0)
    (hlong : 2 * s.room < len) : putLoop iov_buf fuel len n s = none := by
  have hfree := h.room_eq
  have hhead := h.head_lt
  rw [htail, if_pos (Nat.zero_le _)] at hfree
  cases fuel with
  | zero => rfl
  | succ fuel =>
    have hmin : min (min len s.room) (s.size_ - s.head_) = s.room := by omega
    rw [putLoop_copy h hroom (by omega) hlen, hmin]
    refine putLoop_stall (h.advance _ _) htail ?_ (by omega)
    show (s.head_ + s.room) % s.size_ + 1 = s.size_
    rw [Nat.mod_eq_of_lt (by omega)]
    omega

theorem put_eq (s : TtyStream) (iov_buf : ℕ → UInt8) (fuel : ℕ) (hpos : 0 < len) :
    put fuel s (some iov_buf) len =
      (putLoop iov_buf fuel len 0 s).map fun r => (r.1, { s with buffer_ := r.2.buffer_ }) :=
  if_pos (by omega)

/-- **When `put` ends.**  With the tail at the first cell and more than twice as much to copy as there is room for,
its loop runs for ever, and else it ends. -/
theorem put_ends_iff (h : Sized s) (hfull : s.isFull = false) (iov_buf : ℕ → UInt8) (hpos : 0 < len)
    (hlen : len < 2 ^ 31) :
    (∃ fuel r, put fuel s (some iov_buf) len = some r) ↔ ¬ (s.tail_ = 0 ∧ 2 * s.room < len) := by
  have hroom := h.room_pos_iff.mpr hfull
  constructor
  · rintro ⟨fuel, r, hr⟩ ⟨htail, hlong⟩
    rw [put_eq _ _ _ hpos, putLoop_hang h hroom hlen htail hlong] at hr
    cases hr
  · intro hends
    obtain ⟨s', hs'⟩ := putLoop_run iov_buf h hroom hpos hlen hends
    exact ⟨3, _, by rw [put_eq _ _ _ hpos, hs']; rfl⟩

/-- A new stream for 512 bytes, and 1024 to put. -/
theorem put_ends_iff_new : (∃ fuel r, put fuel (new 512 fun _ => 0) (some fun _ => 1) 1024 = some r) ↔
    ¬ ((new 512 fun _ => 0).tail_ = 0 ∧ 2 * (new 512 fun _ => 0).room < 1024) :=
  put_ends_iff ⟨by decide, by decide, by decide⟩ (by decide) (fun _ => 1) (show 0 < 1024 by decide) (by decide)

/-- With one byte more it runs for ever. -/
theorem put_hangs : ¬ ∀ s : TtyStream, Sized s → s.isFull = false → ∀ (iov_buf : ℕ → UInt8) (len : ℕ), 0 < len →
    len < 2 ^ 31 → ∃ fuel r, put fuel s (some iov_buf) len = some r := by
  intro hall
  have hsized : Sized (new 512 fun _ => 0) := ⟨by decide, by decide, by decide⟩
  obtain ⟨fuel, r, hr⟩ := hall (new 512 fun _ => 0) hsized (by decide) (fun _ => 1) 1025 (by decide) (by decide)
  have hloop : putLoop (fun _ => 1) fuel (1025 : ℕ) 0 (new 512 fun _ => 0) = none :=
    putLoop_hang hsized (by decide) (by decide) rfl (by decide)
  rw [put_eq _ _ _ (by decide), hloop] at hr
  cases hr

/-! ## `get` -/

/-- The unread cells from the tail to the end of the buffer, or to the head. -/
def unreadBlock (s : TtyStream) : ℕ := min s.length (s.size_ - s.tail_)

theorem getLoop_stop {iov_len : ℤ} (h : iov_len ≤ 0 ∨ s.head_ = s.tail_) :
    getLoop (fuel + 1) iov_len n iov_buf s = some (n, iov_buf) := by
  rw [getLoop]
  split
  · have hdiff : (s.head_ : ℤ) - s.tail_ = 0 := by omega
    rw [hdiff]
    exact if_pos rfl
  · rfl

theorem getLoop_copy (h : Sized s) (hlength : 0 < s.length) (hpos : 0 < len) (hlen : len < 2 ^ 31) :
    getLoop (fuel + 1) len n iov_buf s =
      getLoop fuel (len - 2 * (min (min len s.length) (s.size_ - s.tail_) : ℕ))
        (n + min (min len s.length) (s.size_ - s.tail_))
        (copyTo iov_buf n s.buffer_ s.tail_ (min (min len s.length) (s.size_ - s.tail_)))
        { s with tail_ := (s.tail_ + min (min len s.length) (s.size_ - s.tail_)) % s.size_ } := by
  have hunread := h.length_eq
  obtain ⟨hhead, htail, hfits⟩ := h
  have hio := ioLen_eq (N := s.size_) (a := s.length) (z := (s.head_ : ℤ) - s.tail_) hfits
    (by split at hunread <;> omega) (by split at hunread <;> omega) (by split at hunread <;> omega)
  have hchunk := chunk_eq (a := s.length) (b := s.size_ - s.tail_) hlen (by omega)
  rw [getLoop, if_pos (by omega)]
  dsimp only
  rw [if_neg hio.1, hio.2, if_pos (by omega), hchunk.1, hchunk.2]
  congr 1
  ring

theorem getLoop_steady (iov_len : ℤ) (n : ℕ) (iov_buf : ℕ → UInt8) (s : TtyStream) :
    Steady fun fuel => getLoop fuel iov_len n iov_buf s := by
  refine .of_succ fun fuel r h => ?_
  induction fuel generalizing iov_len n iov_buf s with
  | zero => cases h
  | succ fuel ih =>
    rw [getLoop] at h ⊢
    dsimp only at h ⊢
    split_ifs at h ⊢
    · exact h
    · exact ih _ _ _ _ h
    · exact ih _ _ _ _ h
    · exact h

/-- The cells of the caller's buffer that the loop writes. -/
theorem getLoop_frame {iov_len : ℤ} {m : ℕ} {out : ℕ → UInt8}
    (h : getLoop fuel iov_len n iov_buf s = some (m, out)) : n ≤ m ∧ ∀ i, m ≤ i → out i = iov_buf i := by
  induction fuel generalizing iov_len n iov_buf s with
  | zero => cases h
  | succ fuel ih =>
    rw [getLoop] at h
    dsimp only at h
    split_ifs at h
    · obtain ⟨rfl, rfl⟩ := Prod.mk.inj (Option.some.inj h)
      exact ⟨le_rfl, fun _ _ => rfl⟩
    · obtain ⟨hle, hframe⟩ := ih h
      refine ⟨(Nat.le_add_right _ _).trans hle, fun i hi => (hframe i hi).trans ?_⟩
      unfold copyTo
      rw [if_neg (by omega)]
    · exact ih h
    · obtain ⟨rfl, rfl⟩ := Prod.mk.inj (Option.some.inj h)
      exact ⟨le_rfl, fun _ _ => rfl⟩

/-- `get` always ends. -/
theorem getLoop_run (iov_buf : ℕ → UInt8) (h : Sized s) (hpos : 0 < len) (hlen : len < 2 ^ 31) :
    ∃ out, getLoop 3 len 0 iov_buf s = some (moved s.unreadBlock (s.length - s.unreadBlock) len, out) := by
  have hunread := h.length_eq
  have hhead := h.head_lt
  have htail := h.tail_lt
  unfold unreadBlock
  by_cases hempty : s.length = 0
  · rw [getLoop_stop (Or.inr (by split at hunread <;> omega)), hempty, Nat.zero_min, Nat.sub_self, moved_zero,
      Nat.min_zero]
    exact ⟨_, rfl⟩
  rw [getLoop_copy h (by omega) hpos hlen, Nat.zero_add]
  generalize copyTo iov_buf 0 s.buffer_ s.tail_ (min (min len s.length) (s.size_ - s.tail_)) = mem
  by_cases hshort : len ≤ 2 * min s.length (s.size_ - s.tail_)
  · rw [moved_of_le hshort, ← min_assoc, getLoop_stop (by omega)]
    exact ⟨_, rfl⟩
  · by_cases hwrap : s.length ≤ s.size_ - s.tail_
    · have hlong : s.length ≤ len := by omega
      have hmod := mod_cases (a := s.tail_ + s.length) (N := s.size_) (by omega)
      rw [min_eq_right hlong, min_eq_left hwrap, Nat.sub_self, moved_zero, min_eq_right hlong,
        getLoop_stop (Or.inr ?_)]
      · exact ⟨_, rfl⟩
      · show s.head_ = (s.tail_ + s.length) % s.size_
        split at hunread <;> omega
    · -- the second block, from the start of the buffer to the head
      have hmin : min (min len s.length) (s.size_ - s.tail_) = s.size_ - s.tail_ := by omega
      have hrest : s.length - (s.size_ - s.tail_) = s.head_ ∧ 0 < s.head_ := by
        split at hunread <;> omega
      have hstart : (s.tail_ + (s.size_ - s.tail_)) % s.size_ = 0 := by
        rw [Nat.add_sub_cancel' htail.le, Nat.mod_self]
      have hnext := h.take (s.size_ - s.tail_)
      have hlength := hnext.length_eq
      rw [hstart] at hnext hlength
      dsimp only at hlength
      rw [if_pos (Nat.zero_le _), Nat.sub_zero] at hlength
      unfold moved
      rw [hmin, hstart, show (len : ℤ) - 2 * (s.size_ - s.tail_ : ℕ) = (len - 2 * (s.size_ - s.tail_) : ℕ) by omega,
        getLoop_copy hnext (by omega) (by omega) (by omega), hlength]
      dsimp only
      rw [show min (min (len - 2 * (s.size_ - s.tail_)) s.head_) (s.size_ - 0) =
        min (len - 2 * (s.size_ - s.tail_)) s.head_ by omega, getLoop_stop ?_]
      · exact ⟨_, congrArg some (Prod.ext (by dsimp only; omega) rfl)⟩
      · dsimp only
        rw [Nat.zero_add, Nat.mod_eq_of_lt (by omega)]
        omega

/-! ## What they transfer -/

/-- `get` copies as many bytes as there are and are asked for, the oldest ones first, and writes nothing behind
them. -/
def GetExact (s : TtyStream) (len : ℕ) : Prop :=
  ∀ iov_buf : ℕ → UInt8, ∃ fuel out, get fuel s (some iov_buf) len = some (min len s.length, some out) ∧
    firstCells out (min len s.length) = s.unread.take len ∧ ∀ i, min len s.length ≤ i → out i = iov_buf i

/-- A `put` that ends copies as many bytes as there is room for and are given, and they are unread once the head is
moved past them. -/
def PutExact (s : TtyStream) (len : ℕ) : Prop :=
  ∀ (iov_buf : ℕ → UInt8) (fuel n : ℕ) (s' : TtyStream), put fuel s (some iov_buf) len = some (n, s') →
    n = min len s.room ∧ s' = { s with buffer_ := s'.buffer_ } ∧
      unread { s' with head_ := (s.head_ + n) % s.size_ } = s.unread ++ firstCells iov_buf n

theorem get_eq (s : TtyStream) (iov_buf : ℕ → UInt8) (fuel : ℕ) (hpos : 0 < len) :
    get fuel s (some iov_buf) len = (getLoop fuel len 0 iov_buf s).map fun r => (r.1, some r.2) :=
  if_pos (by omega)

/-- `get` is exact where the amount is. -/
theorem getExact_iff (h : Sized s) (hpos : 0 < len) (hlen : len < 2 ^ 31) :
    GetExact s len ↔ moved s.unreadBlock (s.length - s.unreadBlock) len = min len s.length := by
  have hlength : s.unread.length = s.length := length_window _ _ _ _
  constructor
  · intro hexact
    obtain ⟨fuel, out, hget, -⟩ := hexact s.buffer_
    obtain ⟨out', hrun⟩ := getLoop_run s.buffer_ h hpos hlen
    rw [get_eq _ _ _ hpos] at hget
    obtain ⟨r, hr, heq⟩ := Option.map_eq_some_iff.mp hget
    rw [(getLoop_steady _ _ _ _).unique hr hrun] at heq
    exact (Prod.mk.inj heq).1
  · intro hamount iov_buf
    obtain ⟨out, hrun⟩ := getLoop_run iov_buf h hpos hlen
    rw [hamount] at hrun
    have hbytes := (h.holds.delivered h.fit hrun).bytes
    refine ⟨3, out, by rw [get_eq _ _ _ hpos, hrun]; rfl, ?_, (getLoop_frame hrun).2⟩
    rw [hbytes, ← hlength, List.take_eq_take_iff]
    omega

/-- How much a `put` copies that ends. -/
theorem putLoop_amount (h : Sized s) (hpos : 0 < len) (hlen : len < 2 ^ 31)
    (hs : putLoop iov_buf fuel len 0 s = some (n, s')) : n = moved s.freeBlock (s.room - s.freeBlock) len := by
  rcases Nat.eq_zero_or_pos s.room with hfull | hroom
  · have hfree := h.room_eq
    have hhead := h.head_lt
    have hzero : moved s.freeBlock (s.room - s.freeBlock) len = 0 := by
      unfold moved freeBlock
      omega
    by_cases htail : s.tail_ = 0
    · rw [putLoop_stall h htail (by split at hfree <;> omega) (by omega)] at hs
      cases hs
    · have hstop : putLoop iov_buf (0 + 1) len 0 s = some (0, s) :=
        putLoop_stop (Or.inr (by split at hfree <;> omega))
      rw [hzero]
      exact (Prod.mk.inj ((putLoop_steady _ _ _ _).unique hs hstop)).1
  · by_cases hhang : s.tail_ = 0 ∧ 2 * s.room < len
    · rw [putLoop_hang h hroom hlen hhang.1 hhang.2] at hs
      cases hs
    · obtain ⟨s'', hrun⟩ := putLoop_run iov_buf h hroom hpos hlen hhang
      exact (Prod.mk.inj ((putLoop_steady _ _ _ _).unique hs hrun)).1

/-- `put` is exact where the amount is. -/
theorem putExact_iff (h : Sized s) (hpos : 0 < len) (hlen : len < 2 ^ 31) :
    PutExact s len ↔ moved s.freeBlock (s.room - s.freeBlock) len = min len s.room := by
  constructor
  · intro hexact
    have hfree := h.room_eq
    have hhead := h.head_lt
    rcases Nat.eq_zero_or_pos s.room with hfull | hroom
    · unfold moved freeBlock
      omega
    · by_cases hhang : s.tail_ = 0 ∧ 2 * s.room < len
      · rw [hhang.1, if_pos (Nat.zero_le _)] at hfree
        unfold moved freeBlock
        omega
      · obtain ⟨s', hrun⟩ := putLoop_run s.buffer_ h hroom hpos hlen hhang
        exact (hexact s.buffer_ 3 _ { s with buffer_ := s'.buffer_ } (by rw [put_eq _ _ _ hpos, hrun]; rfl)).1
  · intro hamount iov_buf fuel n s' hs
    obtain ⟨mem, p, rfl, rfl, hn, hacc⟩ := h.holds.put h.fit hs
    have hafter := hacc.after.unread_eq
    rw [hn] at hafter
    rw [put_eq _ _ _ hpos] at hs
    obtain ⟨r, hr, heq⟩ := Option.map_eq_some_iff.mp hs
    obtain ⟨rfl, -⟩ := Prod.mk.inj heq
    exact ⟨(putLoop_amount h hpos hlen hr).trans hamount, rfl, hafter⟩

/-- **How much is transferred.**  `get` transfers what it should where the unread bytes do not go round the end of
the buffer, where not more than those before the end are asked for, or so many that the length is enough also with
those taken off twice; and `put` does so likewise with the free cells. -/
theorem transfer_iff (h : Sized s) (hpos : 0 < len) (hlen : len < 2 ^ 31) :
    (GetExact s len ↔ s.length ≤ s.size_ - s.tail_ ∨ len ≤ s.size_ - s.tail_ ∨
        s.length + (s.size_ - s.tail_) ≤ len) ∧
      (PutExact s len ↔ s.room ≤ s.size_ - s.head_ ∨ len ≤ s.size_ - s.head_ ∨
        s.room + (s.size_ - s.head_) ≤ len) := by
  have hhead := h.head_lt
  have htail := h.tail_lt
  rw [getExact_iff h hpos hlen, putExact_iff h hpos hlen]
  unfold moved unreadBlock freeBlock
  constructor <;> omega

/-- A stream for 2048 bytes, of which twelve are unread: two before the end and ten behind. -/
def wrapped : TtyStream := ⟨fun _ => 0, 2049, 10, 2047, 1⟩

theorem wrapped_sized : Sized wrapped := ⟨by decide, by decide, by decide⟩

/-- All that is unread can be taken with two bytes more in the length. -/
theorem transfer_iff_wrapped : (GetExact wrapped 14 ↔ wrapped.length ≤ wrapped.size_ - wrapped.tail_ ∨
      14 ≤ wrapped.size_ - wrapped.tail_ ∨ wrapped.length + (wrapped.size_ - wrapped.tail_) ≤ 14) ∧
    (PutExact wrapped 14 ↔ wrapped.room ≤ wrapped.size_ - wrapped.head_ ∨ 14 ≤ wrapped.size_ - wrapped.head_ ∨
      wrapped.room + (wrapped.size_ - wrapped.head_) ≤ 14) :=
  transfer_iff wrapped_sized (by decide) (by decide)

/-- With just their number in the length two of them are left. -/
theorem transfer_short : ¬ ∀ s : TtyStream, Sized s → ∀ len : ℕ, 0 < len → len < 2 ^ 31 →
    GetExact s len ∧ PutExact s len := by
  intro hall
  have hexact := (getExact_iff wrapped_sized (by decide) (by decide)).mp
    (hall wrapped wrapped_sized 12 (by decide) (by decide)).1
  exact absurd hexact (by decide)

end Lasagne.Dev.TtyStream
