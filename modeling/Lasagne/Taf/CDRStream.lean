import Mathlib
import Lasagne.Wire.Cdr
import Lasagne.Wire.ByteOrder

/-!
# Lasagne.Taf.CDRStream — values of a fixed size in a CDR stream

`OutputCDR::write` puts a value in the stream as the host has it and turns its bytes round there, if another byte order is
asked for.  `InputCDR::read` takes the bytes out and turns them round in the value.

* `swapLoop_eq` : the loop of exclusive-ors turns the bytes round;
* `write_eq`, `read_eq` : one value, and `writeAll_eq`, `readAll_eq`, one after the other;
* `copyBuffer_eq` : the message blocks in one buffer.
-/

namespace Lasagne.Taf

open Lasagne.Wire

/-! ## The model -/

/-- What `sizeof(T)` is. -/
inductive CDRSize
  | one
  | two
  | four
  | eight
  deriving DecidableEq, Repr

def CDRSize.sizeof : CDRSize → ℕ
  | one => 1
  | two => 2
  | four => 4
  | eight => 8

structure CDRValue where
  size : CDRSize
  val : BitVec (8 * size.sizeof)
  deriving DecidableEq, Repr

/-- `s[i] ^= s[j]`, of bytes in memory. -/
def xorByte (mem : List UInt8) (i j : ℕ) : List UInt8 := mem.set i (mem.getD i 0 ^^^ mem.getD j 0)

/-- `for (size_t i = 0; j > i; i++, j--)`, entered with `i` and `j`: behind `adjust(j--, s)` that is `sizeof(T) - 1`. -/
def swapLoop (s : ℕ) : ℕ → ℕ → List UInt8 → List UInt8
  | _, 0, mem => mem
  | i, j + 1, mem =>
    if j + 1 > i then
      let mem := xorByte mem (s + i) (s + (j + 1))
      let mem := xorByte mem (s + (j + 1)) (s + i)
      let mem := xorByte mem (s + i) (s + (j + 1))
      swapLoop s (i + 1) j mem
    else mem

/-- The message blocks of a stream, `current` being the last one. -/
structure OutputCDR where
  blocks : List (List UInt8)
  current : List UInt8
  good_bit : Bool
  do_byte_swap : Bool
  deriving DecidableEq, Repr

namespace OutputCDR

def new (host byte_order : ByteOrder) : OutputCDR := ⟨[], [], true, byte_order ≠ host⟩

/-- What has been written. -/
def bytes (out : OutputCDR) : List UInt8 := out.blocks.flatten ++ out.current

def size (out : OutputCDR) : ℕ := out.bytes.length

/-- `adjust` of an output stream makes place for a value in the current block or in a new one, aligned from the start of the
stream. -/
structure Adjust where
  adjust : OutputCDR → CDRSize → OutputCDR × Option ℕ
  adjust_some : ∀ {out out' : OutputCDR} {size : CDRSize} {s : ℕ}, adjust out size = (out', some s) →
    out'.do_byte_swap = out.do_byte_swap ∧ ∃ pad before place : List UInt8,
      pad.length = padding size.sizeof out.bytes.length ∧ place.length = size.sizeof ∧
      out'.bytes = out.bytes ++ (pad ++ place) ∧ out'.current = before ++ place ∧ before.length = s

/-- `OutputCDR::write`. -/
def write (A : Adjust) (host : ByteOrder) (out : OutputCDR) (t : CDRValue) : Bool × OutputCDR :=
  if out.good_bit then
    match A.adjust out t.size with
    | (out, some s) =>
      let mem := out.current.take s ++ (host.bytes t.size.sizeof t.val ++ out.current.drop (s + t.size.sizeof))
      (true, { out with current := if out.do_byte_swap then swapLoop s 0 (t.size.sizeof - 1) mem else mem })
    | (out, none) => (false, out)
  else (false, out)

/-- One `write` after the other, if each returns true. -/
def writeAll (A : Adjust) (host : ByteOrder) : List CDRValue → OutputCDR → Option OutputCDR
  | [], out => some out
  | t :: ts, out =>
    match write A host out t with
    | (true, out) => writeAll A host ts out
    | (false, _) => none

/-- The loop of `copy_buffer`, `total_len` bytes into the buffer: none if `IndexOutOfRange` is thrown. -/
def copyLoop (buf_length : ℕ) : List (List UInt8) → ℕ → List UInt8 → Option (ℕ × List UInt8)
  | [], total_len, buf => some (total_len, buf)
  | mb :: mbs, total_len, buf =>
    if total_len + mb.length > buf_length then none
    else copyLoop buf_length mbs (total_len + mb.length) (buf.take total_len ++ (mb ++ buf.drop (total_len + mb.length)))

/-- `OutputCDR::copy_buffer`, with what it returns and what is in the buffer then. -/
def copyBuffer (out : OutputCDR) (buf : List UInt8) : Option (ℕ × List UInt8) :=
  if buf.length ≠ 0 then copyLoop buf.length (out.blocks ++ [out.current]) 0 buf else some (0, buf)

end OutputCDR

structure InputCDR where
  data : List UInt8
  rd_ptr : ℕ
  good_bit : Bool
  do_byte_swap : Bool
  deriving DecidableEq, Repr

namespace InputCDR

def new (host byte_order : ByteOrder) (data : List UInt8) (size : ℕ) : InputCDR :=
  ⟨data.take size, 0, true, byte_order ≠ host⟩

/-- `adjust` of an input stream finds a value that is there, aligned from the start of the stream. -/
structure Adjust where
  adjust : InputCDR → CDRSize → InputCDR × Option ℕ
  adjust_eq : ∀ {inp : InputCDR} {size : CDRSize},
    inp.rd_ptr + padding size.sizeof inp.rd_ptr + size.sizeof ≤ inp.data.length →
    adjust inp size = ({ inp with rd_ptr := inp.rd_ptr + padding size.sizeof inp.rd_ptr + size.sizeof },
      some (inp.rd_ptr + padding size.sizeof inp.rd_ptr))

/-- `InputCDR::read`, of a type of the size, with the value if it returns true. -/
def read (A : Adjust) (host : ByteOrder) (inp : InputCDR) (size : CDRSize) : Option CDRValue × InputCDR :=
  if inp.good_bit then
    match A.adjust inp size with
    | (inp, some s) =>
      let t := (inp.data.drop s).take size.sizeof
      let t := if inp.do_byte_swap then swapLoop 0 0 (size.sizeof - 1) t else t
      (some ⟨size, host.value size.sizeof t⟩, inp)
    | (inp, none) => (none, inp)
  else (none, inp)

/-- One `read` after the other, if each returns true. -/
def readAll (A : Adjust) (host : ByteOrder) : List CDRSize → InputCDR → Option (List CDRValue)
  | [], _ => some []
  | size :: sizes, inp =>
    match read A host inp size with
    | (some t, inp) => (readAll A host sizes inp).map (t :: ·)
    | (none, _) => none

end InputCDR

/-! ## Turning bytes round -/

theorem xorByte_front (pre rest : List UInt8) (x y : UInt8) {j : ℕ} (hj : (pre ++ x :: rest).getD j 0 = y) :
    xorByte (pre ++ x :: rest) pre.length j = pre ++ (x ^^^ y) :: rest := by
  rw [xorByte, hj, List.set_append_right _ _ le_rfl, Nat.sub_self]
  simp

theorem getD_front (pre rest : List UInt8) (x : UInt8) : (pre ++ x :: rest).getD pre.length 0 = x := by
  simp

/-- Three exclusive-ors exchange two bytes that are not the same one. -/
theorem xorByte_exchange (pre mid post : List UInt8) (x y : UInt8) {i j : ℕ} (hi : i = pre.length)
    (hj : j = pre.length + (mid.length + 1)) :
    xorByte (xorByte (xorByte (pre ++ x :: (mid ++ y :: post)) i j) j i) i j = pre ++ y :: (mid ++ x :: post) := by
  have hsplit : ∀ a b : UInt8, pre ++ a :: (mid ++ b :: post) = (pre ++ a :: mid) ++ b :: post := by
    intro a b
    rw [List.append_assoc, List.cons_append]
  have hlength : ∀ a : UInt8, j = (pre ++ a :: mid).length := by
    intro a
    rw [hj, List.length_append, List.length_cons]
  have hfirst : ∀ a b : UInt8, (pre ++ a :: (mid ++ b :: post)).getD i 0 = a := fun a b => by
    rw [hi, getD_front]
  have hlast : ∀ a b : UInt8, (pre ++ a :: (mid ++ b :: post)).getD j 0 = b := fun a b => by
    rw [hsplit, hlength a, getD_front]
  have hback : ∀ a b : UInt8, xorByte (pre ++ a :: (mid ++ b :: post)) j i = pre ++ a :: (mid ++ (b ^^^ a) :: post) := by
    intro a b
    have hat := hfirst a b
    rw [hsplit] at hat ⊢
    rw [hlength a, xorByte_front _ _ _ _ hat, hsplit]
  have hfront : ∀ a b : UInt8, xorByte (pre ++ a :: (mid ++ b :: post)) i j = pre ++ (a ^^^ b) :: (mid ++ b :: post) := by
    intro a b
    have hat := hlast a b
    subst hi
    exact xorByte_front _ _ _ _ hat
  have hy : y ^^^ (x ^^^ y) = x := by
    rw [UInt8.xor_comm x y, ← UInt8.xor_assoc, UInt8.xor_self, UInt8.zero_xor]
  have hx : x ^^^ y ^^^ x = y := by
    rw [UInt8.xor_comm x y, UInt8.xor_assoc, UInt8.xor_self, UInt8.xor_zero]
  rw [hfront, hback, hy, hfront, hx]

theorem reverse_of_length_le_one {α : Type*} {l : List α} (h : l.length ≤ 1) : l.reverse = l := by
  cases l with
  | nil => rfl
  | cons a t =>
    rw [List.length_cons] at h
    obtain rfl : t = [] := List.eq_nil_of_length_eq_zero (by omega)
    rfl

/-- The first and the last of two elements or more. -/
theorem exists_ends {α : Type*} {l : List α} (h : 2 ≤ l.length) : ∃ x m y, l = x :: (m ++ [y]) := by
  obtain ⟨x, t, rfl⟩ := List.exists_cons_of_length_pos (by omega : 0 < l.length)
  rw [List.length_cons] at h
  rcases List.eq_nil_or_concat' t with rfl | ⟨m, y, rfl⟩
  · simp at h
  · exact ⟨x, m, y, rfl⟩

/-- The loop turns round the bytes from `i` to `j`, whether their number is odd or even. -/
theorem swapLoop_eq {pre mid post : List UInt8} {s i j : ℕ} (hi : pre.length = s + i) (hj : i + mid.length = j + 1) :
    swapLoop s i j (pre ++ (mid ++ post)) = pre ++ (mid.reverse ++ post) := by
  induction j generalizing pre mid post i with
  | zero => rw [swapLoop, reverse_of_length_le_one (by omega)]
  | succ j ih =>
    rw [swapLoop]
    split_ifs with hlt
    · obtain ⟨x, m, y, rfl⟩ := exists_ends (by omega : 2 ≤ mid.length)
      simp only [List.length_cons, List.length_append, List.length_nil] at hj
      have hmem : pre ++ (x :: (m ++ [y]) ++ post) = pre ++ x :: (m ++ y :: post) := by simp
      have hnext : pre ++ y :: (m ++ x :: post) = (pre ++ [y]) ++ (m ++ x :: post) := by simp
      dsimp only
      rw [hmem, xorByte_exchange pre m post x y hi.symm (by omega), hnext, ih (by simp; omega) (by omega)]
      simp
    · rw [reverse_of_length_le_one (by omega)]

example : swapLoop 1 0 7 [9, 1, 2, 3, 4, 5, 6, 7, 8, 9] = [9, 8, 7, 6, 5, 4, 3, 2, 1, 9] := by decide

theorem swapLoop_reverse {pre mid post : List UInt8} {n : ℕ} (hn : 0 < n) (hmid : mid.length = n) :
    swapLoop pre.length 0 (n - 1) (pre ++ (mid ++ post)) = pre ++ (mid.reverse ++ post) :=
  swapLoop_eq rfl (by omega)

/-- The bytes of a number in the one order come to those in the other one, if they differ. -/
theorem swap_bytes {o o' : ByteOrder} {swap : Bool} (hswap : swap = true ↔ o ≠ o') {n : ℕ} (hn : 0 < n)
    (v : BitVec (8 * n)) (pre post : List UInt8) :
    (if swap then swapLoop pre.length 0 (n - 1) (pre ++ (o.bytes n v ++ post)) else pre ++ (o.bytes n v ++ post)) =
      pre ++ (o'.bytes n v ++ post) := by
  split_ifs with h
  · rw [swapLoop_reverse hn (ByteOrder.length_bytes o n v), ByteOrder.bytes_reverse (hswap.mp h)]
  · rw [not_not.mp (mt hswap.mpr h)]

theorem CDRSize.sizeof_pos (size : CDRSize) : 0 < size.sizeof := by
  cases size <;> decide

/-! ## Where the values are -/

/-- The bytes of the values in an order, from a position on, each aligned to its size. -/
inductive Laid (byte_order : ByteOrder) : ℕ → List CDRValue → List UInt8 → Prop
  | nil (pos : ℕ) : Laid byte_order pos [] []
  | cons {pos : ℕ} {t : CDRValue} {ts : List CDRValue} {pad rest : List UInt8} :
    pad.length = padding t.size.sizeof pos →
    Laid byte_order (pos + pad.length + t.size.sizeof) ts rest →
    Laid byte_order pos (t :: ts) (pad ++ (byte_order.bytes t.size.sizeof t.val ++ rest))

namespace OutputCDR

variable {A : Adjust} {host byte_order : ByteOrder} {out out' : OutputCDR}

/-- A value that is written is behind what was there before, in the order that was asked for. -/
theorem write_eq {t : CDRValue} (hswap : out.do_byte_swap = true ↔ host ≠ byte_order)
    (h : write A host out t = (true, out')) :
    out'.do_byte_swap = out.do_byte_swap ∧ ∃ pad : List UInt8, pad.length = padding t.size.sizeof out.size ∧
      out'.bytes = out.bytes ++ (pad ++ byte_order.bytes t.size.sizeof t.val) := by
  unfold write at h
  split_ifs at h
  swap
  · cases h
  cases hadjust : A.adjust out t.size with
  | mk placed found =>
    rw [hadjust] at h
    cases found with
    | none => cases h
    | some s =>
      obtain ⟨hflag, pad, before, place, hpad, hplace, hbytes, hcurrent, rfl⟩ := A.adjust_some hadjust
      have hpre : placed.blocks.flatten ++ before = out.bytes ++ pad := by
        rw [bytes, hcurrent, ← List.append_assoc, ← List.append_assoc] at hbytes
        exact List.append_cancel_right hbytes
      have htake : placed.current.take before.length = before := by
        rw [hcurrent, List.take_left]
      have hdrop : placed.current.drop (before.length + t.size.sizeof) = [] := by
        rw [hcurrent, ← hplace, ← List.length_append, List.drop_length]
      dsimp only at h
      rw [htake, hdrop, hflag, swap_bytes hswap t.size.sizeof_pos t.val before []] at h
      obtain rfl := (Prod.mk.inj h).2
      refine ⟨rfl, pad, hpad, ?_⟩
      rw [bytes, List.append_nil, ← List.append_assoc, hpre, List.append_assoc]

/-- So are the values that are written one after the other. -/
theorem writeAll_eq {ts : List CDRValue} (hswap : out.do_byte_swap = true ↔ host ≠ byte_order)
    (h : writeAll A host ts out = some out') :
    ∃ bs, Laid byte_order out.size ts bs ∧ out'.bytes = out.bytes ++ bs := by
  induction ts generalizing out with
  | nil =>
    obtain rfl := Option.some.inj h
    exact ⟨[], .nil _, (List.append_nil _).symm⟩
  | cons t ts ih =>
    rw [writeAll] at h
    cases hwrite : write A host out t with
    | mk written next =>
      rw [hwrite] at h
      cases written with
      | false => cases h
      | true =>
        obtain ⟨hflag, pad, hpad, hbytes⟩ := write_eq hswap hwrite
        obtain ⟨bs, hlaid, hall⟩ := ih (hflag ▸ hswap) h
        have hsize : next.size = out.size + pad.length + t.size.sizeof := by
          rw [size, hbytes, List.length_append, List.length_append, ByteOrder.length_bytes, ← Nat.add_assoc]
          rfl
        refine ⟨_, .cons hpad (hsize ▸ hlaid), ?_⟩
        rw [hall, hbytes, List.append_assoc, List.append_assoc]

/-! ## The copy -/

theorem copyLoop_eq {mbs : List (List UInt8)} {done rest : List UInt8} {buf_length : ℕ}
    (hbuf : done.length + rest.length = buf_length) (h : mbs.flatten.length ≤ rest.length) :
    copyLoop buf_length mbs done.length (done ++ rest) =
      some (done.length + mbs.flatten.length, done ++ (mbs.flatten ++ rest.drop mbs.flatten.length)) := by
  induction mbs generalizing done rest with
  | nil => rfl
  | cons mb mbs ih =>
    rw [List.flatten_cons, List.length_append] at h
    have hnext : (done ++ rest).take done.length ++ (mb ++ (done ++ rest).drop (done.length + mb.length)) =
        (done ++ mb) ++ rest.drop mb.length := by
      rw [List.take_left, List.drop_append, List.append_assoc]
      simp
    have hdone : done.length + mb.length = (done ++ mb).length := List.length_append.symm
    have hrest : (rest.drop mb.length).length = rest.length - mb.length := List.length_drop
    rw [copyLoop, if_neg (by omega), hnext, hdone, ih (by omega) (by omega), List.drop_drop]
    simp [Nat.add_assoc]

/-- A buffer that is large enough begins with all that has been written. -/
theorem copyBuffer_eq {buf : List UInt8} (h : out.size ≤ buf.length) :
    out.copyBuffer buf = some (out.size, out.bytes ++ buf.drop out.size) := by
  have hflatten : (out.blocks ++ [out.current]).flatten = out.bytes := by
    rw [List.flatten_append, List.flatten_singleton]
    rfl
  unfold copyBuffer
  split_ifs with hlength
  · have hcopy : copyLoop buf.length (out.blocks ++ [out.current]) ([] : List UInt8).length ([] ++ buf) = _ :=
      copyLoop_eq (Nat.zero_add _) (hflatten ▸ h)
    rw [hflatten] at hcopy
    exact hcopy.trans (by rw [List.length_nil, Nat.zero_add]; rfl)
  · obtain rfl := List.eq_nil_of_length_eq_zero (not_not.mp hlength)
    have hbytes : out.bytes = [] := List.eq_nil_of_length_eq_zero (Nat.le_zero.mp h)
    rw [size, hbytes]
    rfl

end OutputCDR

namespace InputCDR

variable {A : Adjust} {host byte_order : ByteOrder} {inp : InputCDR}

/-- A value that is next in the stream, in the order that is asked for, is read. -/
theorem read_eq {t : CDRValue} {before pad rest : List UInt8} (hswap : inp.do_byte_swap = true ↔ byte_order ≠ host)
    (hgood : inp.good_bit = true) (hpad : pad.length = padding t.size.sizeof inp.rd_ptr) (hrd : inp.rd_ptr = before.length)
    (hdata : inp.data = before ++ (pad ++ (byte_order.bytes t.size.sizeof t.val ++ rest))) :
    read A host inp t.size = (some t, { inp with rd_ptr := inp.rd_ptr + pad.length + t.size.sizeof }) := by
  have hthere : inp.rd_ptr + padding t.size.sizeof inp.rd_ptr + t.size.sizeof ≤ inp.data.length := by
    rw [hdata, ← hpad, hrd]
    simp only [List.length_append, ByteOrder.length_bytes]
    omega
  have hfound : (inp.data.drop (inp.rd_ptr + pad.length)).take t.size.sizeof =
      byte_order.bytes t.size.sizeof t.val := by
    rw [hdata, hrd, ← List.append_assoc, ← List.length_append, List.drop_left,
      List.take_left' (ByteOrder.length_bytes byte_order _ _)]
  have hturned := swap_bytes hswap t.size.sizeof_pos t.val [] []
  simp only [List.length_nil, List.nil_append, List.append_nil] at hturned
  unfold read
  rw [if_pos hgood, A.adjust_eq hthere, ← hpad]
  dsimp only
  rw [hfound, hturned, ByteOrder.value_bytes]

/-- Values that are laid out one after the other are read one after the other. -/
theorem readAll_eq {ts : List CDRValue} {bs before rest : List UInt8} {pos : ℕ} (hlaid : Laid byte_order pos ts bs)
    (hswap : inp.do_byte_swap = true ↔ byte_order ≠ host) (hgood : inp.good_bit = true) (hrd : inp.rd_ptr = pos)
    (hpos : pos = before.length) (hdata : inp.data = before ++ (bs ++ rest)) :
    readAll A host (ts.map CDRValue.size) inp = some ts := by
  induction hlaid generalizing inp before with
  | nil pos => rfl
  | @cons pos t ts pad bs hpad hlaid ih =>
    have hfirst : inp.data = before ++ (pad ++ (byte_order.bytes t.size.sizeof t.val ++ (bs ++ rest))) := by
      rw [hdata]
      simp only [List.append_assoc]
    have hothers : inp.data = (before ++ (pad ++ byte_order.bytes t.size.sizeof t.val)) ++ (bs ++ rest) := by
      rw [hfirst]
      simp only [List.append_assoc]
    have hbehind : pos + pad.length + t.size.sizeof =
        (before ++ (pad ++ byte_order.bytes t.size.sizeof t.val)).length := by
      rw [List.length_append, List.length_append, ByteOrder.length_bytes, hpos, Nat.add_assoc]
    have hread := read_eq (A := A) hswap hgood (hrd ▸ hpad) (hrd.trans hpos) hfirst
    have hnext : readAll A host (ts.map CDRValue.size)
        { inp with rd_ptr := inp.rd_ptr + pad.length + t.size.sizeof } = some ts :=
      ih hswap hgood (by rw [hrd]) hbehind hothers
    rw [List.map_cons, readAll, hread]
    dsimp only
    rw [hnext]
    rfl

end InputCDR

/-! ## There and back -/

/-- **Round trip.**  What is written one after the other is laid out in the byte order that was asked for, and what is read
from a copy of it in the same byte order is what was written, whatever the byte orders of the hosts are. -/
theorem read_written (A : OutputCDR.Adjust) (B : InputCDR.Adjust) (host host' byte_order : ByteOrder)
    {ts : List CDRValue} {out : OutputCDR} (hwritten : OutputCDR.writeAll A host ts (.new host byte_order) = some out)
    {buf : List UInt8} (hbuf : out.size ≤ buf.length) :
    ∃ copy, out.copyBuffer buf = some (out.size, copy) ∧ Laid byte_order 0 ts (copy.take out.size) ∧
      InputCDR.readAll B host' (ts.map CDRValue.size) (.new host' byte_order copy out.size) = some ts := by
  have hswap : (OutputCDR.new host byte_order).do_byte_swap = true ↔ host ≠ byte_order := by
    rw [OutputCDR.new, decide_eq_true_iff, ne_comm]
  obtain ⟨bs, hlaid, hbytes⟩ := OutputCDR.writeAll_eq hswap hwritten
  have hnew : (OutputCDR.new host byte_order).bytes = [] := rfl
  rw [hnew, List.nil_append] at hbytes
  have htake : (out.bytes ++ buf.drop out.size).take out.size = bs := by
    rw [OutputCDR.size, List.take_left, hbytes]
  refine ⟨_, OutputCDR.copyBuffer_eq hbuf, ?_, ?_⟩
  · rw [htake]
    exact hlaid
  · have hdata : (InputCDR.new host' byte_order (out.bytes ++ buf.drop out.size) out.size).data = [] ++ (bs ++ []) := by
      rw [List.append_nil, List.nil_append]
      exact htake
    exact InputCDR.readAll_eq hlaid decide_eq_true_iff rfl rfl rfl hdata

/-- A stream of one message block that grows. -/
def growing : OutputCDR.Adjust where
  adjust out size :=
    let pad := padding size.sizeof out.bytes.length
    ({ out with current := out.current ++ List.replicate (pad + size.sizeof) 0 }, some (out.current.length + pad))
  adjust_some := by
    intro out out' size s h
    obtain ⟨rfl, hs⟩ := Prod.mk.inj h
    refine ⟨rfl, List.replicate (padding size.sizeof out.bytes.length) 0,
      out.current ++ List.replicate (padding size.sizeof out.bytes.length) 0, List.replicate size.sizeof 0,
      List.length_replicate, List.length_replicate, ?_, ?_, ?_⟩
    · rw [← List.replicate_add, OutputCDR.bytes, ← List.append_assoc]
      rfl
    · rw [List.replicate_add, List.append_assoc]
    · rw [List.length_append, List.length_replicate]
      exact Option.some.inj hs

/-- A stream that is read from a buffer. -/
def within : InputCDR.Adjust where
  adjust inp size :=
    let s := inp.rd_ptr + padding size.sizeof inp.rd_ptr
    if s + size.sizeof ≤ inp.data.length then ({ inp with rd_ptr := s + size.sizeof }, some s)
    else ({ inp with good_bit := false }, none)
  adjust_eq := by
    intro inp size h
    exact if_pos h

theorem read_written_two :
    ∃ out, OutputCDR.writeAll growing .little [⟨.one, 7⟩, ⟨.four, 0x01020304⟩] (.new .little .big) = some out ∧
      out.bytes = [7, 0, 0, 0, 1, 2, 3, 4] ∧ ∃ copy, out.copyBuffer (List.replicate 8 0) = some (8, copy) ∧
        InputCDR.readAll within .big [.one, .four] (.new .big .big copy 8) = some [⟨.one, 7⟩, ⟨.four, 0x01020304⟩] := by
  have hwritten : OutputCDR.writeAll growing .little [⟨.one, 7⟩, ⟨.four, 0x01020304⟩] (.new .little .big) =
      some ⟨[], [7, 0, 0, 0, 1, 2, 3, 4], true, true⟩ := by
    decide +kernel
  have hbuf : OutputCDR.size ⟨[], [7, 0, 0, 0, 1, 2, 3, 4], true, true⟩ ≤ (List.replicate 8 (0 : UInt8)).length := by
    decide
  obtain ⟨copy, hcopy, -, hread⟩ := read_written growing within .little .big .big hwritten hbuf
  exact ⟨_, hwritten, rfl, copy, hcopy, hread⟩

end Lasagne.Taf
