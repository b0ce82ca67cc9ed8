import Lasagne.Daf.Semaphore

/-!
# Lasagne.Daf.Bitset — `DAF::Bitset`

A `Bitset` is a number of bits and a buffer of bytes, bit `0` being the highest one of the first byte.  The
members are functions on that pair.  A member that throws half-way leaves the object as it is then, so the
mutators return the object together with what they throw, and the others, which make a new object, one or the
other.

`mem` says whether the one allocation of a member succeeds.  The operand of an assignment operator is another
object, or (`none`) the object itself.  An access outside the buffer reads `0` and writes nothing here.

* `bit`: the bit at an index, whatever the length; `bit_modifyByte`: what a write to one byte does to it.
* `OneBit`: the operators of the proxy, which change no other bit.
-/

namespace Lasagne.Daf

/-- `BIT_BYTE_type`. -/
abbrev BitByte := BitVec 8

/-- What a member of `Bitset` throws. -/
inductive BitsetException where
  | illegalArgument
  | indexOutOfRange
  | resourceExhaustion
deriving DecidableEq, Repr

/-- `INT_MAX`. -/
def intMax : ℤ := 2 ^ 31 - 1

/-- `ace_range`: the value, moved into the range. -/
def aceRange (lo hi val : ℤ) : ℤ := max lo (min hi val)

/-- `memcpy`, of `len` bytes. -/
def memcpy (dst src : List BitByte) (len : ℕ) : List BitByte := src.take len ++ dst.drop len

/-- `bit_bytes`. -/
def bitBytes (bits : ℕ) : ℕ := bits / 8 + if bits % 8 ≠ 0 then 1 else 0

/-- `bit_mask`. -/
def bitMask (bit : ℕ) : BitByte :=
  [0x80, 0x40, 0x20, 0x10, 0x08, 0x04, 0x02, 0x01].getD (bit % 8) 0

/-! ## The bit proxy

A `bitraits` is a byte with the mask of one bit; its operators are functions of the mask and the byte. -/

namespace Bitraits

/-- `bitraits::operator &=`. -/
def andAssign (val : Bool) (mask byte : BitByte) : BitByte := if val then byte else byte &&& ~~~mask

/-- `bitraits::operator |=`. -/
def orAssign (val : Bool) (mask byte : BitByte) : BitByte := if val then byte ||| mask else byte

/-- `bitraits::operator ^=`. -/
def xorAssign (val : Bool) (mask byte : BitByte) : BitByte :=
  if val then byte ^^^ mask else if byte &&& mask ≠ 0 then byte else byte &&& ~~~mask

/-- `bitraits::operator =`. -/
def assign (val : Bool) (mask byte : BitByte) : BitByte := if val then byte ||| mask else byte &&& ~~~mask

/-- `bitraits::operator ~`. -/
def compl (mask byte : BitByte) : BitByte := byte ^^^ mask

end Bitraits

/-! ## The members -/

/-- The length, and the bytes that `bit_buffer_` owns; a null pointer owns none. -/
structure Bitset where
  bits_ : ℕ
  bit_buffer_ : List BitByte
deriving DecidableEq, Repr

namespace Bitset

/-- `Bitset::size`. -/
def size (b : Bitset) : ℕ := bitBytes b.bits_

/-- `Bitset::operator const void *`, as a condition. -/
def hasBits (b : Bitset) : Bool := b.bits_ ≠ 0 && b.bit_buffer_ ≠ []

/-- `Bitset::bit_buffer`: the offset again, or throws.  Of a null buffer this is no byte. -/
def bitBuffer (b : Bitset) (off : ℕ) : Except BitsetException ℕ :=
  if b.bits_ = 0 ∨ (b.bit_buffer_ ≠ [] ∧ b.size ≤ off) then .error .indexOutOfRange else .ok off

/-- `bit_buffer_[i]`, read. -/
def byteAt (b : Bitset) (i : ℤ) : BitByte := if 0 ≤ i then b.bit_buffer_.getD i.toNat 0 else 0

/-- `bit_buffer_[i]`, written. -/
def modifyByte (b : Bitset) (i : ℤ) (f : BitByte → BitByte) : Bitset :=
  if 0 ≤ i then { b with bit_buffer_ := b.bit_buffer_.modify i.toNat f } else b

/-- The test of both `operator []`. -/
def inRange (b : Bitset) (bit : ℕ) : Prop := b.hasBits ∧ aceRange 0 (b.bits_ - 1 : ℕ) bit = bit

instance (b : Bitset) (bit : ℕ) : Decidable (b.inRange bit) :=
  inferInstanceAs (Decidable (_ ∧ _))

/-- `Bitset::operator [] const`. -/
def getBit (b : Bitset) (bit : ℕ) : Except BitsetException Bool :=
  if b.inRange bit then .ok (b.byteAt (toInt (bit / 8)) &&& bitMask bit ≠ 0) else .error .indexOutOfRange

/-- `Bitset::operator []`, with the operator `f` that is applied to the proxy. -/
def onBit (b : Bitset) (bit : ℕ) (f : BitByte → BitByte → BitByte) : Except BitsetException Bitset :=
  if b.inRange bit then .ok (b.modifyByte (toInt (bit / 8)) (f (bitMask bit))) else .error .indexOutOfRange

/-- The loop of `trim_bits` over the mask. -/
def blockMask : ℕ → BitByte → BitByte
  | 0, block_mask => block_mask
  | bit + 1, block_mask => blockMask bit (block_mask ||| bitMask bit)

/-- `Bitset::trim_bits`. -/
def trimBits (b : Bitset) : Bitset :=
  if b.bits_ % 8 ≠ 0 then b.modifyByte (toInt (b.bits_ / 8)) (· &&& blockMask (b.bits_ % 8) 0) else b

/-- The bytes of `memset(p, (val ? -1 : 0), len)`. -/
def filled (val : Bool) (len : ℕ) : List BitByte := List.replicate len (if val then 0xff else 0)

/-- The test of a length. -/
def fits (bits : ℕ) : Prop := aceRange 0 intMax (toInt bits) = toInt bits

instance (bits : ℕ) : Decidable (fits bits) := inferInstanceAs (Decidable (_ = _))

/-- `Bitset::Bitset(size_t, bool)`. -/
def new (mem : Bool) (bits : ℕ) (val : Bool) : Except BitsetException Bitset :=
  if fits bits then
    if bitBytes bits ≠ 0 then
      if mem then
        .ok (if val then trimBits ⟨bits, filled val (bitBytes bits)⟩ else ⟨bits, filled val (bitBytes bits)⟩)
      else .error .resourceExhaustion
    else .ok ⟨bits, []⟩
  else .error .illegalArgument

/-- `Bitset::Bitset(const Bitset &)`. -/
def copy (mem : Bool) (bitset : Bitset) : Except BitsetException Bitset :=
  if bitset.size ≠ 0 then
    if mem then .ok ⟨bitset.bits_, memcpy (filled false bitset.size) bitset.bit_buffer_ bitset.size⟩
    else .error .resourceExhaustion
  else .ok ⟨bitset.bits_, []⟩

/-- `Bitset::operator =`. -/
def assign (mem : Bool) (b : Bitset) : Option Bitset → Bitset × Option BitsetException
  | none => (b, none)
  | some bitset =>
    if bitset.size ≠ 0 then
      if mem then (⟨bitset.bits_, memcpy (filled false bitset.size) bitset.bit_buffer_ bitset.size⟩, none)
      else (⟨bitset.bits_, []⟩, some .resourceExhaustion)
    else (⟨bitset.bits_, []⟩, none)

/-- The first part of `operator +=`: the object with room for `bits` bits. -/
def grow (mem : Bool) (b : Bitset) (bits : ℕ) : Except BitsetException Bitset :=
  if fits bits then
    if bitBytes bits > b.size then
      if mem then
        let p := filled false (bitBytes bits)
        .ok ⟨bits, if b.bits_ ≠ 0 then memcpy p b.bit_buffer_ b.size else p⟩
      else .error .resourceExhaustion
    else .ok { b with bits_ := bits }
  else .error .illegalArgument

/-- The loop of `operator +=`, with `bits` bits to go. -/
def addLoop (bitset : Option Bitset) : (bits i pos : ℕ) → Bitset → Bitset × Option BitsetException
  | 0, _, _, b => (b, none)
  | bits + 1, i, pos, b =>
    match (bitset.getD b).getBit i with
    | .error e => (b, some e)
    | .ok val =>
      match b.onBit pos (Bitraits.assign val) with
      | .error e => (b, some e)
      | .ok b' => addLoop bitset bits (i + 1) (pos + 1) b'

/-- `Bitset::operator +=`. -/
def addAssign (mem : Bool) (b : Bitset) (bitset : Option Bitset) : Bitset × Option BitsetException :=
  if (bitset.getD b).hasBits then
    match b.grow mem ((b.bits_ + (bitset.getD b).bits_) % 2 ^ 64) with
    | .error e => (b, some e)
    | .ok b' =>
      -- the loop asks the operand for its length now, when the object itself has grown
      match addLoop bitset (bitset.getD b').bits_ 0 b.bits_ b' with
      | (b'', none) => (b''.trimBits, none)
      | (b'', some e) => (b'', some e)
  else (b, none)

/-- The loop of `&=`, `|=` and `^=`: bit by bit down to a multiple of eight, then byte by byte. -/
def combineLoop (f : Bool → BitByte → BitByte → BitByte) (g : BitByte → BitByte → BitByte) (bitset : Bitset) :
    ℕ → Bitset → Bitset × Option BitsetException
  | 0, b => (b, none)
  | bit + 1, b =>
    if (bit + 1) % 8 ≠ 0 then
      match bitset.getBit bit with
      | .error e => (b, some e)
      | .ok val =>
        match b.onBit bit (f val) with
        | .error e => (b, some e)
        | .ok b' => combineLoop f g bitset bit b'
    else
      match bit with
      | n + 7 =>
        match bitset.bitBuffer ((n + 8) / 8 - 1), b.bitBuffer ((n + 8) / 8 - 1) with
        | .ok j, .ok i => combineLoop f g bitset n (b.modifyByte i (g · (bitset.byteAt j)))
        | .error e, _ => (b, some e)
        | _, .error e => (b, some e)
      | _ => (b, none)

/-- `&=`, `|=` and `^=`, by their operators on the proxy and on a byte. -/
def combine (f : Bool → BitByte → BitByte → BitByte) (g : BitByte → BitByte → BitByte) (b : Bitset) :
    Option Bitset → Bitset × Option BitsetException
  | none => (b, none)
  | some bitset =>
    let bit := toInt (min b.bits_ bitset.bits_)
    if 0 ≤ bit then combineLoop f g bitset bit.toNat b
    -- a negative `bit` is out of range as an index, and has no byte either
    else if bit % 8 ≠ 0 then (b, some .indexOutOfRange) else (b, none)

/-- `Bitset::operator &=`. -/
def andAssign : Bitset → Option Bitset → Bitset × Option BitsetException :=
  combine Bitraits.andAssign (· &&& ·)

/-- `Bitset::operator |=`. -/
def orAssign : Bitset → Option Bitset → Bitset × Option BitsetException :=
  combine Bitraits.orAssign (· ||| ·)

/-- `Bitset::operator ^=`. -/
def xorAssign : Bitset → Option Bitset → Bitset × Option BitsetException :=
  combine Bitraits.xorAssign (· ^^^ ·)

/-- The test of `subits` and `erase`. -/
def startsIn (b : Bitset) (pos : ℤ) : Prop := b.hasBits ∧ aceRange 0 (toInt (b.bits_ - 1)) pos = pos

instance (b : Bitset) (pos : ℤ) : Decidable (b.startsIn pos) :=
  inferInstanceAs (Decidable (_ ∧ _))

/-- The number of bits that `subits` and `erase` are about. -/
def span (b : Bitset) (pos len : ℤ) : ℕ := min (b.bits_ - pos.toNat) (toSize len)

/-- The loop of `subits`, with `bits` bits to go. -/
def subitsLoop (b : Bitset) : (bits i pos : ℕ) → Bitset → Except BitsetException Bitset
  | 0, _, _, bitset => .ok bitset
  | bits + 1, i, pos, bitset =>
    match b.getBit pos with
    | .error e => .error e
    | .ok val =>
      match bitset.onBit i (Bitraits.assign val) with
      | .error e => .error e
      | .ok bitset' => subitsLoop b bits (i + 1) (pos + 1) bitset'

/-- `Bitset::subits`. -/
def subits (mem : Bool) (b : Bitset) (pos len : ℤ) : Except BitsetException Bitset :=
  if b.startsIn pos then do
    let bitset ← new mem (b.span pos len) false
    subitsLoop b (b.span pos len) 0 pos.toNat bitset
  else .error .indexOutOfRange

/-- The loop of `erase`, with `n` bits to move. -/
def eraseLoop : (n pos epos : ℕ) → Bitset → Bitset × Option BitsetException
  | 0, _, _, b => (b, none)
  | n + 1, pos, epos, b =>
    match b.getBit epos with
    | .error e => (b, some e)
    | .ok val =>
      match b.onBit pos (Bitraits.assign val) with
      | .error e => (b, some e)
      | .ok b' => eraseLoop n (pos + 1) (epos + 1) b'

/-- `Bitset::erase`. -/
def erase (b : Bitset) (pos len : ℤ) : Bitset × Option BitsetException :=
  if b.startsIn pos then
    let epos := toSize (toInt (pos.toNat + b.span pos len))
    match eraseLoop (b.bits_ - epos) pos.toNat epos b with
    | (b', none) => (trimBits { b' with bits_ := pos.toNat + (b.bits_ - epos) }, none)
    | (b', some e) => (b', some e)
  else (b, some .indexOutOfRange)

/-- The loop of `flip`, from the last of `n` bytes down. -/
def flipLoop (n : ℕ) (b : Bitset) : Bitset :=
  (List.range n).foldr (fun i b => b.modifyByte (toInt i) (· ^^^ 0xff)) b

/-- `Bitset::flip`. -/
def flip (b : Bitset) : Bitset := (flipLoop b.size b).trimBits

/-- `Bitset::reset`. -/
def reset (mem : Bool) (b : Bitset) (bits : ℕ) (val : Bool) : Bitset × Option BitsetException :=
  if fits bits then
    if bitBytes bits ≠ 0 then
      if mem then
        (if val then trimBits ⟨bits, filled val (bitBytes bits)⟩ else ⟨bits, filled val (bitBytes bits)⟩, none)
      else (⟨0, []⟩, some .resourceExhaustion)
    else (⟨0, []⟩, none)
  else (b, some .illegalArgument)

/-- A copy of what a mutator returns, which is how the operators that return a `Bitset` end. -/
def returned (mem : Bool) : Bitset × Option BitsetException → Except BitsetException Bitset
  | (_, some e) => .error e
  | (b, none) => copy mem b

/-- `operator ~`. -/
def compl (mem : Bool) (bitset : Bitset) : Except BitsetException Bitset := do
  let b ← new mem bitset.bits_ true
  returned mem (b.xorAssign (some bitset))

/-! ## The bits -/

/-- The bit number `k` of the buffer. -/
def bit (b : Bitset) (k : ℕ) : Bool := (b.bit_buffer_.getD (k / 8) 0).getMsbD (k % 8)

theorem getMsbD_bitMask (j : ℕ) {k : ℕ} (hk : k < 8) : (bitMask j).getMsbD k = decide (j % 8 = k) := by
  have h : ∀ m i : Fin 8, (bitMask m).getMsbD i = decide ((m : ℕ) = i) := by decide
  have hj := h ⟨j % 8, Nat.mod_lt _ (by norm_num)⟩ ⟨k, hk⟩
  simpa only [bitMask, Nat.mod_mod] using hj

theorem getMsbD_blockMask {n : ℕ} (hn : n ≤ 8) (m : BitByte) {k : ℕ} (hk : k < 8) :
    (blockMask n m).getMsbD k = (m.getMsbD k || decide (k < n)) := by
  induction n generalizing m with
  | zero => simp [blockMask]
  | succ n ih =>
    rw [blockMask, ih (by omega), BitVec.getMsbD_or, getMsbD_bitMask n hk, Nat.mod_eq_of_lt (by omega),
      Bool.or_assoc]
    congr 1
    rw [Bool.eq_iff_iff]
    simp only [Bool.or_eq_true, decide_eq_true_eq]
    omega

theorem bitBytes_le_iff {bits n : ℕ} : bitBytes bits ≤ n ↔ bits ≤ 8 * n := by
  unfold bitBytes
  split <;> omega

theorem byteAt_natCast (b : Bitset) (i : ℕ) : b.byteAt i = b.bit_buffer_.getD i 0 := by
  simp [byteAt]

/-- What is written to one byte. -/
theorem bit_modifyByte (b : Bitset) (i : ℕ) (f : BitByte → BitByte) (k : ℕ) (hi : i < b.bit_buffer_.length) :
    (b.modifyByte i f).bit k = if k / 8 = i then (f (b.byteAt i)).getMsbD (k % 8) else b.bit k := by
  have hget : (b.modifyByte i f).bit_buffer_ = b.bit_buffer_.modify i f := by
    simp [modifyByte]
  unfold bit
  rw [hget, byteAt_natCast, List.getD_eq_getElem?_getD, List.getElem?_modify]
  by_cases h : i = k / 8
  · subst h
    simp [hi]
  · simp [h, Ne.symm h]

@[simp] theorem modifyByte_bits (b : Bitset) (i : ℤ) (f : BitByte → BitByte) :
    (b.modifyByte i f).bits_ = b.bits_ := by
  unfold modifyByte
  split <;> rfl

@[simp] theorem modifyByte_length (b : Bitset) (i : ℤ) (f : BitByte → BitByte) :
    (b.modifyByte i f).bit_buffer_.length = b.bit_buffer_.length := by
  unfold modifyByte
  split <;> simp

/-- An operator of the proxy leaves the other bits of its byte alone. -/
def OneBit (f : BitByte → BitByte → BitByte) : Prop :=
  ∀ mask byte k, k < 8 → mask.getMsbD k = false → (f mask byte).getMsbD k = byte.getMsbD k

theorem oneBit_assign (val : Bool) : OneBit (Bitraits.assign val) := by
  intro mask byte k hk h
  cases val <;> simp [Bitraits.assign, h, hk]

theorem oneBit_andAssign (val : Bool) : OneBit (Bitraits.andAssign val) := by
  intro mask byte k hk h
  cases val <;> simp [Bitraits.andAssign, h, hk]

theorem oneBit_orAssign (val : Bool) : OneBit (Bitraits.orAssign val) := by
  intro mask byte k hk h
  cases val <;> simp [Bitraits.orAssign, h]

theorem oneBit_xorAssign (val : Bool) : OneBit (Bitraits.xorAssign val) := by
  intro mask byte k hk h
  unfold Bitraits.xorAssign
  split
  · simp [h]
  · split <;> simp [h, hk]

theorem oneBit_compl : OneBit Bitraits.compl := by
  intro mask byte k hk h
  simp [Bitraits.compl, h]

end Bitset

end Lasagne.Daf
