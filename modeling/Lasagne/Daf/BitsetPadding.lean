import Lasagne.Trans.Run
import Lasagne.Daf.Bitset

/-!
# Lasagne.Daf.BitsetPadding — the representation invariant of `DAF::Bitset`

`==` and `compare_to` compare whole bytes, and `+=` keeps the last one, so the bits of the last byte that the
length does not count have to be zero.

* `Wf`: the buffer is long enough and the padding is zero.  The members keep it one by one, whether or not they
  throw.
* `machine`: any number of objects, and the members that are called on them, in any order.
* `padding_zero`: the invariant holds of every object in every run, while no object is longer than `INT_MAX`.
-/

namespace Lasagne.Daf

open Lasagne.Trans

namespace Bitset

/-! ## The invariant -/

/-- A buffer that is long enough, and zero bits after the last one. -/
structure Wf (b : Bitset) : Prop where
  small : b.bits_ < 2 ^ 31
  enough : bitBytes b.bits_ ≤ b.bit_buffer_.length
  padded : ∀ k, b.bits_ ≤ k → k < 8 * bitBytes b.bits_ → b.bit k = false

variable {b b' : Bitset} {f : BitByte → BitByte → BitByte}

theorem lt_of_inRange {j : ℕ} (h : b.inRange j) : j < b.bits_ := by
  obtain ⟨hbits, hrange⟩ := h
  have hpos : b.bits_ ≠ 0 := by
    simp only [hasBits, Bool.and_eq_true, decide_eq_true_eq] at hbits
    exact hbits.1
  unfold aceRange at hrange
  omega

theorem not_fits {bits : ℕ} (h : 2 ^ 31 ≤ bits) (hlt : bits < 2 ^ 32) : ¬ fits bits := by
  unfold fits aceRange intMax toInt Int.bmod
  dsimp only
  split <;> omega

namespace Wf

/-- A byte whose bits all count may be written to. -/
theorem modifyByte (h : b.Wf) {i : ℕ} (hi : 8 * (i + 1) ≤ b.bits_) (g : BitByte → BitByte) :
    (b.modifyByte i g).Wf := by
  obtain ⟨hsmall, henough, hpad⟩ := h
  have hlen := bitBytes_le_iff.mp henough
  refine ⟨by simpa using hsmall, by simpa using henough, fun k hk hk' => ?_⟩
  rw [modifyByte_bits] at hk hk'
  rw [bit_modifyByte _ _ _ _ (by omega), if_neg (by omega)]
  exact hpad k hk hk'

/-- So may a bit that counts. -/
theorem onBit (h : b.Wf) (hf : OneBit f) {j : ℕ} (hb : b.onBit j f = .ok b') : b'.Wf ∧ b'.bits_ = b.bits_ := by
  unfold Bitset.onBit at hb
  split at hb
  · next hin =>
    have hj := lt_of_inRange hin
    obtain ⟨hsmall, henough, hpad⟩ := h
    have hlen := bitBytes_le_iff.mp henough
    obtain rfl : b.modifyByte (toInt (j / 8)) (f (bitMask j)) = b' := by simpa using hb
    rw [toInt_eq_iff.mpr (by omega)]
    refine ⟨⟨by simpa using hsmall, by simpa using henough, fun k hk hk' => ?_⟩, by simp⟩
    rw [modifyByte_bits] at hk hk'
    rw [bit_modifyByte _ _ _ _ (by omega)]
    split
    · next hkj =>
      have hmod : k % 8 < 8 := Nat.mod_lt _ (by norm_num)
      rw [hf _ _ _ hmod (by rw [getMsbD_bitMask j hmod]; simp; omega), ← hpad k hk hk', ← hkj, byteAt_natCast]
      rfl
    · exact hpad k hk hk'
  · cases hb

end Wf

/-- Whatever the padding was, `trim_bits` clears it. -/
theorem wf_trimBits (hsmall : b.bits_ < 2 ^ 31) (henough : bitBytes b.bits_ ≤ b.bit_buffer_.length) :
    b.trimBits.Wf := by
  unfold trimBits
  split
  · next hmod =>
    have hlen := bitBytes_le_iff.mp henough
    rw [toInt_eq_iff.mpr (by omega)]
    refine ⟨by simpa using hsmall, by simpa using henough, fun k hk hk' => ?_⟩
    rw [modifyByte_bits] at hk hk'
    have hbytes : bitBytes b.bits_ = b.bits_ / 8 + 1 := by
      unfold bitBytes
      rw [if_pos hmod]
    rw [bit_modifyByte _ _ _ _ (by omega), if_pos (by omega), BitVec.getMsbD_and,
      getMsbD_blockMask (by omega) _ (Nat.mod_lt _ (by norm_num))]
    simp
    omega
  · next hmod =>
    refine ⟨hsmall, henough, fun k hk hk' => ?_⟩
    have hbytes : bitBytes b.bits_ = b.bits_ / 8 := by
      unfold bitBytes
      rw [if_neg hmod, Nat.add_zero]
    omega

theorem bitBytes_mono {m n : ℕ} (h : m ≤ n) : bitBytes m ≤ bitBytes n := by
  rw [bitBytes_le_iff]
  exact h.trans (bitBytes_le_iff.mp le_rfl)

/-! ## New buffers -/

/-- What the constructor and `reset` leave. -/
theorem wf_filled {bits : ℕ} (val : Bool) (hsmall : bits < 2 ^ 31) :
    (if val then trimBits ⟨bits, filled val (bitBytes bits)⟩ else ⟨bits, filled val (bitBytes bits)⟩).Wf := by
  split
  · exact wf_trimBits hsmall (by simp [filled])
  · next hval =>
    refine ⟨hsmall, by simp [filled], fun k hk hk' => ?_⟩
    have hlt : k / 8 < bitBytes bits := by
      dsimp only at hk'
      omega
    simp [bit, filled, hval, hlt]

theorem wf_empty : (⟨0, []⟩ : Bitset).Wf :=
  ⟨by norm_num, by simp [bitBytes], fun k _ hk => (by simp [bitBytes] at hk)⟩

theorem bitBytes_eq_zero {bits : ℕ} (h : bitBytes bits = 0) : bits = 0 := by
  have := bitBytes_le_iff.mp h.le
  omega

@[simp] theorem trimBits_bits (b : Bitset) : b.trimBits.bits_ = b.bits_ := by
  unfold trimBits
  split <;> simp

theorem wf_new {bits : ℕ} {val : Bool} (hb : new true bits val = .ok b) (hsmall : b.bits_ < 2 ^ 31) : b.Wf := by
  unfold new at hb
  split at hb
  · split at hb
    · obtain rfl := Except.ok.inj hb
      refine wf_filled val ?_
      revert hsmall
      split <;> simp
    · next hlen =>
      obtain rfl := bitBytes_eq_zero (not_not.mp hlen)
      obtain rfl := Except.ok.inj hb
      exact wf_empty
  · cases hb

theorem Wf.reset (h : b.Wf) {bits : ℕ} {val : Bool} (hsmall : (b.reset true bits val).1.bits_ < 2 ^ 31) :
    (b.reset true bits val).1.Wf := by
  unfold Bitset.reset at hsmall ⊢
  split
  · next hfits =>
    split
    · next hlen =>
      rw [if_pos hfits, if_pos hlen, if_pos rfl] at hsmall
      refine wf_filled val ?_
      revert hsmall
      dsimp only
      split <;> simp
    · exact wf_empty
  · exact h

/-- A copy of as many bytes as there are in use, into a buffer that has room for them. -/
theorem bit_memcpy {n : ℕ} {dst : List BitByte} (hn : n ≤ b.bit_buffer_.length) {bits k : ℕ} :
    (⟨bits, memcpy dst b.bit_buffer_ n⟩ : Bitset).bit k = if k / 8 < n then b.bit k else
      (⟨bits, dst⟩ : Bitset).bit k := by
  unfold bit memcpy
  dsimp only
  split
  · next hk =>
    have hlen : k / 8 < b.bit_buffer_.length := by omega
    simp [List.getElem?_append, hk, hn, hlen]
  · next hk =>
    have : n + (k / 8 - n) = k / 8 := by omega
    simp [List.getElem?_append, hk, hn, this]

theorem Wf.copied (h : b.Wf) :
    (⟨b.bits_, memcpy (filled false b.size) b.bit_buffer_ b.size⟩ : Bitset).Wf := by
  obtain ⟨hsmall, henough, hpad⟩ := h
  refine ⟨hsmall, ?_, fun k hk hk' => ?_⟩
  · simp only [memcpy, filled, size, List.length_append, List.length_take, List.length_drop, List.length_replicate]
    omega
  · have hlt : k / 8 < b.size := by
      change k < 8 * b.size at hk'
      omega
    rw [bit_memcpy (n := b.size) henough, if_pos hlt]
    exact hpad k hk hk'

theorem Wf.copy (h : b.Wf) (hb : b.copy true = .ok b') : b'.Wf := by
  unfold Bitset.copy at hb
  split at hb
  · obtain rfl := Except.ok.inj hb
    exact h.copied
  · next hlen =>
    obtain rfl := Except.ok.inj hb
    rw [bitBytes_eq_zero (not_not.mp hlen)]
    exact wf_empty

theorem Wf.assign (h : b.Wf) {o : Option Bitset} (ho : ∀ bitset ∈ o, bitset.Wf) : (b.assign true o).1.Wf := by
  cases o with
  | none => exact h
  | some bitset =>
    simp only [Bitset.assign, if_true]
    split
    · exact (ho bitset rfl).copied
    · next hlen =>
      rw [bitBytes_eq_zero (not_not.mp hlen)]
      exact wf_empty

/-! ## The loops -/

theorem Wf.addLoop (h : b.Wf) (o : Option Bitset) (n i pos : ℕ) : (Bitset.addLoop o n i pos b).1.Wf := by
  induction n generalizing i pos b with
  | zero => exact h
  | succ n ih =>
    rw [Bitset.addLoop]
    split
    · exact h
    · split
      · exact h
      · next hb => exact ih (h.onBit (oneBit_assign _) hb).1 _ _

theorem Wf.combineLoop {f : Bool → BitByte → BitByte → BitByte} (hf : ∀ val, OneBit (f val))
    {g : BitByte → BitByte → BitByte} {bitset : Bitset} {n : ℕ} (h : b.Wf) (hn : n ≤ b.bits_) :
    (Bitset.combineLoop f g bitset n b).1.Wf := by
  fun_induction Bitset.combineLoop f g bitset n b with
  | case1 b => exact h
  | case2 b bit hmod e hget => exact h
  | case3 b bit hmod val hget e hset => exact h
  | case4 b bit hmod val hget b' hset ih =>
    obtain ⟨hb', hbits⟩ := h.onBit (hf _) hset
    exact ih hb' (by omega)
  | case5 b n j i hi hj hmod ih =>
    have hlt : i = (n + 8) / 8 - 1 := by
      unfold bitBuffer at hi
      split at hi
      · cases hi
      · exact (Except.ok.inj hi).symm
    refine ih (h.modifyByte (by omega) _) ?_
    rw [modifyByte_bits]
    omega
  | case6 b n e he hmod => exact h
  | case7 b n j e he hmod => exact h
  | case8 b bit hmod hlt => exact h

theorem Wf.subitsLoop {bitset : Bitset} {n i pos : ℕ} (h : b.Wf)
    (hb : Bitset.subitsLoop bitset n i pos b = .ok b') : b'.Wf := by
  induction n generalizing i pos b with
  | zero =>
    obtain rfl := Except.ok.inj hb
    exact h
  | succ n ih =>
    rw [Bitset.subitsLoop] at hb
    split at hb
    · cases hb
    · split at hb
      · cases hb
      · next hset => exact ih (h.onBit (oneBit_assign _) hset).1 hb

theorem Wf.eraseLoop (h : b.Wf) (n pos epos : ℕ) :
    (Bitset.eraseLoop n pos epos b).1.Wf ∧ (Bitset.eraseLoop n pos epos b).1.bits_ = b.bits_ := by
  induction n generalizing pos epos b with
  | zero => exact ⟨h, rfl⟩
  | succ n ih =>
    rw [Bitset.eraseLoop]
    split
    · exact ⟨h, rfl⟩
    · split
      · exact ⟨h, rfl⟩
      · next hset =>
        obtain ⟨hwf, hbits⟩ := h.onBit (oneBit_assign _) hset
        obtain ⟨hwf', hbits'⟩ := ih hwf (pos + 1) (epos + 1)
        exact ⟨hwf', hbits'.trans hbits⟩

theorem flipLoop_shape (n : ℕ) (b : Bitset) :
    (flipLoop n b).bits_ = b.bits_ ∧ (flipLoop n b).bit_buffer_.length = b.bit_buffer_.length := by
  unfold flipLoop
  induction List.range n with
  | nil => exact ⟨rfl, rfl⟩
  | cons i l ih =>
    rw [List.foldr_cons, modifyByte_bits, modifyByte_length]
    exact ih

/-! ## The members -/

theorem Wf.combine (h : b.Wf) {f : Bool → BitByte → BitByte → BitByte} (hf : ∀ val, OneBit (f val))
    {g : BitByte → BitByte → BitByte} (o : Option Bitset) : (Bitset.combine f g b o).1.Wf := by
  cases o with
  | none => exact h
  | some bitset =>
    simp only [Bitset.combine]
    split
    · refine h.combineLoop hf ?_
      have := toInt_le (min b.bits_ bitset.bits_)
      omega
    · split <;> exact h

theorem Wf.xorAssign (h : b.Wf) (o : Option Bitset) : (b.xorAssign o).1.Wf := by
  unfold Bitset.xorAssign
  exact h.combine oneBit_xorAssign o

/-- `+=` has room for the sum of the lengths, and the new bits are zero at first. -/
theorem Wf.grow (h : b.Wf) {mem : Bool} {bits : ℕ} (hle : b.bits_ ≤ bits) (hlt : bits < 2 ^ 32)
    (hb : b.grow mem bits = .ok b') : b'.Wf := by
  obtain ⟨hsmall, henough, hpad⟩ := h
  unfold Bitset.grow at hb
  split at hb
  · next hfits =>
    have hbits : bits < 2 ^ 31 := by
      by_contra hge
      exact not_fits (by omega) hlt hfits
    split at hb
    · split at hb
      · obtain rfl := Except.ok.inj hb
        have hlen : bitBytes b.bits_ < bitBytes bits := by assumption
        have hzero : ∀ k, (⟨bits, filled false (bitBytes bits)⟩ : Bitset).bit k = false := by
          intro k
          by_cases hk : k / 8 < bitBytes bits <;> simp [bit, filled, hk]
        split
        · refine ⟨hbits, ?_, fun k hk hk' => ?_⟩
          · simp only [memcpy, filled, size, List.length_append, List.length_take, List.length_drop,
              List.length_replicate]
            omega
          · rw [bit_memcpy (n := b.size) henough]
            split
            · next hin => exact hpad k (hle.trans hk) (by unfold size at hin; omega)
            · exact hzero k
        · exact ⟨hbits, by simp [filled], fun k _ _ => hzero k⟩
      · cases hb
    · next hlen =>
      obtain rfl := Except.ok.inj hb
      have hsize : bitBytes bits ≤ bitBytes b.bits_ := not_lt.mp hlen
      refine ⟨hbits, hsize.trans henough, fun k hk hk' => ?_⟩
      dsimp only at hk hk'
      exact hpad k (hle.trans hk) (by omega)
  · cases hb

theorem Wf.addAssign (h : b.Wf) {mem : Bool} {o : Option Bitset} (ho : ∀ bitset ∈ o, bitset.Wf) :
    (b.addAssign mem o).1.Wf := by
  have hsmall : (o.getD b).bits_ < 2 ^ 31 := by
    cases o with
    | none => exact h.small
    | some bitset => exact (ho bitset rfl).small
  have hmod : (b.bits_ + (o.getD b).bits_) % 2 ^ 64 = b.bits_ + (o.getD b).bits_ := by
    have := h.small
    omega
  unfold Bitset.addAssign
  rw [hmod]
  split
  · split
    · exact h
    · next b' hb =>
      have hb' : b'.Wf := h.grow (by omega) (by have := h.small; omega) hb
      have hloop := hb'.addLoop o (o.getD b').bits_ 0 b.bits_
      split
      · next b'' heq =>
        rw [heq] at hloop
        exact wf_trimBits hloop.small hloop.enough
      · next b'' e heq =>
        rw [heq] at hloop
        exact hloop
  · exact h

theorem new_bits {mem : Bool} {bits : ℕ} {val : Bool} (hb : new mem bits val = .ok b) : b.bits_ = bits := by
  unfold new at hb
  split at hb
  · split at hb
    · split at hb
      · obtain rfl := Except.ok.inj hb
        split <;> simp
      · cases hb
    · obtain rfl := Except.ok.inj hb
      rfl
  · cases hb

theorem exists_ok_of_bind {ε α β : Type} {r : Except ε α} {f : α → Except ε β} {c : β} (h : (r >>= f) = .ok c) :
    ∃ a, r = .ok a ∧ f a = .ok c := by
  cases r with
  | error e => cases h
  | ok a => exact ⟨a, rfl, h⟩

theorem Wf.subits (h : b.Wf) {pos len : ℤ} (hb : b.subits true pos len = .ok b') : b'.Wf := by
  unfold Bitset.subits at hb
  split at hb
  · obtain ⟨bitset, hnew, hb⟩ := exists_ok_of_bind hb
    have hspan : b.span pos len ≤ b.bits_ := (min_le_left _ _).trans (Nat.sub_le _ _)
    have hbitset : bitset.Wf := by
      refine wf_new hnew ?_
      rw [new_bits hnew]
      exact hspan.trans_lt h.small
    exact hbitset.subitsLoop hb
  · cases hb

/-- Where `erase` starts, and what it erases, lies within the bits. -/
theorem pos_add_span_le {pos : ℤ} (h : b.startsIn pos) (hsmall : b.bits_ < 2 ^ 31) (len : ℤ) :
    pos.toNat + b.span pos len ≤ b.bits_ := by
  obtain ⟨hbits, hrange⟩ := h
  have hpos : b.bits_ ≠ 0 := by
    simp only [hasBits, Bool.and_eq_true, decide_eq_true_eq] at hbits
    exact hbits.1
  rw [toInt_eq_iff.mpr (by omega)] at hrange
  unfold aceRange at hrange
  have hspan : b.span pos len ≤ b.bits_ - pos.toNat := min_le_left _ _
  omega

theorem Wf.erase (h : b.Wf) (pos len : ℤ) : (b.erase pos len).1.Wf := by
  unfold Bitset.erase
  split
  · next hin =>
    have hle := pos_add_span_le hin h.small len
    rw [toSize_toInt (hle.trans_lt h.small)]
    obtain ⟨hwf, hbits⟩ := h.eraseLoop (b.bits_ - (pos.toNat + b.span pos len)) pos.toNat
      (pos.toNat + b.span pos len)
    dsimp only
    split
    · next b' heq =>
      rw [heq] at hwf hbits
      have hnew : pos.toNat + (b.bits_ - (pos.toNat + b.span pos len)) ≤ b'.bits_ := by
        rw [hbits]
        omega
      refine wf_trimBits (hnew.trans_lt hwf.small) ?_
      exact (bitBytes_mono hnew).trans hwf.enough
    · next b' e heq =>
      rw [heq] at hwf
      exact hwf
  · exact h

theorem Wf.flip (h : b.Wf) : b.flip.Wf := by
  obtain ⟨hbits, hlen⟩ := flipLoop_shape b.size b
  refine wf_trimBits ?_ ?_
  · rw [hbits]
    exact h.small
  · rw [hbits, hlen]
    exact h.enough

theorem Wf.returned {r : Bitset × Option BitsetException} (h : r.1.Wf) (hb : Bitset.returned true r = .ok b') :
    b'.Wf := by
  obtain ⟨b, e⟩ := r
  cases e with
  | none => exact h.copy hb
  | some e => cases hb

theorem Wf.compl (h : b.Wf) (hb : b.compl true = .ok b') : b'.Wf := by
  unfold Bitset.compl at hb
  obtain ⟨bitset, hnew, hb⟩ := exists_ok_of_bind hb
  have hbitset : bitset.Wf := by
    refine wf_new hnew ?_
    rw [new_bits hnew]
    exact h.small
  exact (hbitset.xorAssign (some b)).returned hb

/-! ## Objects and calls -/

/-- The objects there are, by name. -/
abbrev World (ν : Type*) := ν → Option Bitset

/-- An operator of the bit proxy. -/
inductive BitOp where
  | assign (val : Bool)
  | andAssign (val : Bool)
  | orAssign (val : Bool)
  | xorAssign (val : Bool)
  | compl
deriving DecidableEq, Repr

/-- What it does to its byte. -/
def BitOp.apply : BitOp → BitByte → BitByte → BitByte
  | .assign val => Bitraits.assign val
  | .andAssign val => Bitraits.andAssign val
  | .orAssign val => Bitraits.orAssign val
  | .xorAssign val => Bitraits.xorAssign val
  | .compl => Bitraits.compl

/-- A call.  The first name is the one of the object that is made or written to. -/
inductive Act (ν : Type*) where
  | new (x : ν) (bits : ℕ) (val : Bool)
  | copy (x y : ν)
  | assign (x y : ν)
  | addAssign (x y : ν)
  | andAssign (x y : ν)
  | orAssign (x y : ν)
  | xorAssign (x y : ν)
  /-- `x[bit]`, and an operator on the proxy -/
  | onBit (x : ν) (bit : ℕ) (op : BitOp)
  | erase (x : ν) (pos len : ℤ)
  | flip (x : ν)
  | reset (x : ν) (bits : ℕ) (val : Bool)
  | subits (x y : ν) (pos len : ℤ)
  | compl (x y : ν)

section Store

variable {ν : Type*} [DecidableEq ν]

/-- A call that makes `x`, unless it throws. -/
def World.make (s : World ν) (x : ν) : Except BitsetException Bitset → World ν × List BitsetException
  | .ok b => (Function.update s x (some b), [])
  | .error e => (s, [e])

/-- A call that writes to `x`, also where it throws. -/
def World.write (s : World ν) (x : ν) (r : Bitset × Option BitsetException) : World ν × List BitsetException :=
  (Function.update s x (some r.1), r.2.toList)

/-- The operand `y` of an assignment operator of `x`. -/
def World.operand (s : World ν) (x y : ν) : Option (Option Bitset) := if x = y then some none else (s y).map some

/-- An assignment operator of `x`, with the operand `y`. -/
def World.assignment (s : World ν) (x y : ν) (f : Bitset → Option Bitset → Bitset × Option BitsetException) :
    Option (World ν × List BitsetException) :=
  (s x).bind fun b => (s.operand x y).map fun o => s.write x (f b o)

/-- One call, with every allocation successful. -/
def step (s : World ν) : Act ν → Option (World ν × List BitsetException)
  | .new x bits val => some (s.make x (new true bits val))
  | .copy x y => (s y).map fun b => s.make x (b.copy true)
  | .assign x y => s.assignment x y (assign true)
  | .addAssign x y => s.assignment x y (addAssign true)
  | .andAssign x y => s.assignment x y andAssign
  | .orAssign x y => s.assignment x y orAssign
  | .xorAssign x y => s.assignment x y xorAssign
  | .onBit x bit op => (s x).map fun b => s.make x (b.onBit bit op.apply)
  | .erase x pos len => (s x).map fun b => s.write x (b.erase pos len)
  | .flip x => (s x).map fun b => s.write x (b.flip, none)
  | .reset x bits val => (s x).map fun b => s.write x (b.reset true bits val)
  | .subits x y pos len => (s y).map fun b => s.make x (b.subits true pos len)
  | .compl x y => (s y).map fun b => s.make x (b.compl true)

/-- The calls on the objects, from none. -/
def machine : Machine (World ν) (Act ν) BitsetException where
  init := fun _ => none
  step := step

/-- No object has more than `INT_MAX` bits. -/
def Small (s : World ν) : Prop := ∀ x, ∀ b ∈ s x, (b.bits_ : ℤ) ≤ intMax

instance [Fintype ν] (s : World ν) : Decidable (Small s) :=
  inferInstanceAs (Decidable (∀ x, ∀ b ∈ s x, (b.bits_ : ℤ) ≤ intMax))

/-! ## Runs -/

/-- Every object is well-formed. -/
def AllWf (s : World ν) : Prop := ∀ x, ∀ b ∈ s x, b.Wf

variable {s s' : World ν} {es : List BitsetException} {x y : ν}

theorem oneBit_apply (op : BitOp) : OneBit op.apply := by
  cases op with
  | assign val => exact oneBit_assign val
  | andAssign val => exact oneBit_andAssign val
  | orAssign val => exact oneBit_orAssign val
  | xorAssign val => exact oneBit_xorAssign val
  | compl => exact oneBit_compl

omit [DecidableEq ν] in
theorem Small.bits (h : Small s) {b : Bitset} (hb : s x = some b) : b.bits_ < 2 ^ 31 := by
  have := h x b hb
  unfold intMax at this
  omega

theorem AllWf.update (h : AllWf s) {b : Bitset} (hb : b.Wf) : AllWf (Function.update s x (some b)) := by
  intro z c hc
  by_cases hz : z = x
  · subst hz
    rw [Function.update_self] at hc
    obtain rfl := Option.some.inj hc
    exact hb
  · rw [Function.update_of_ne hz] at hc
    exact h z c hc

theorem AllWf.make (h : AllWf s) {r : Except BitsetException Bitset} (hs : s.make x r = (s', es))
    (hr : ∀ b, r = .ok b → s' x = some b → b.Wf) : AllWf s' := by
  cases r with
  | error e =>
    obtain ⟨rfl, -⟩ := Prod.mk.inj hs
    exact h
  | ok b =>
    obtain ⟨rfl, -⟩ := Prod.mk.inj hs
    exact h.update (hr b rfl (Function.update_self _ _ _))

theorem AllWf.write (h : AllWf s) {r : Bitset × Option BitsetException} (hs : s.write x r = (s', es))
    (hr : s' x = some r.1 → r.1.Wf) : AllWf s' := by
  obtain ⟨rfl, -⟩ := Prod.mk.inj hs
  exact h.update (hr (Function.update_self _ _ _))

theorem AllWf.assignment (h : AllWf s) {f : Bitset → Option Bitset → Bitset × Option BitsetException}
    (hs : s.assignment x y f = some (s', es))
    (hf : ∀ b o, b.Wf → (∀ bitset ∈ o, bitset.Wf) → (f b o).1.Wf) : AllWf s' := by
  simp only [World.assignment, Option.bind_eq_some_iff, Option.map_eq_some_iff] at hs
  obtain ⟨b, hb, o, ho, hs⟩ := hs
  refine h.write hs fun _ => hf b o (h x b hb) fun bitset hmem => ?_
  unfold World.operand at ho
  split at ho
  · obtain rfl := Option.some.inj ho
    cases hmem
  · obtain ⟨c, hc, rfl⟩ := Option.map_eq_some_iff.mp ho
    obtain rfl := Option.some.inj hmem
    exact h y c hc

/-- What a call leaves is well-formed, as long as it is not too long. -/
theorem AllWf.step (h : AllWf s) {a : Act ν} (hs : Bitset.step s a = some (s', es)) (hsmall : Small s') :
    AllWf s' := by
  cases a with
  | new x bits val =>
    exact h.make (Option.some.inj hs) fun b hb hx => wf_new hb (hsmall.bits hx)
  | copy x y =>
    obtain ⟨b, hb, hs⟩ := Option.map_eq_some_iff.mp hs
    exact h.make hs fun b' hb' _ => (h y b hb).copy hb'
  | assign x y => exact h.assignment hs fun b o hb ho => hb.assign ho
  | addAssign x y => exact h.assignment hs fun b o hb ho => hb.addAssign ho
  | andAssign x y => exact h.assignment hs fun b o hb _ => hb.combine oneBit_andAssign o
  | orAssign x y => exact h.assignment hs fun b o hb _ => hb.combine oneBit_orAssign o
  | xorAssign x y => exact h.assignment hs fun b o hb _ => hb.xorAssign o
  | onBit x bit op =>
    obtain ⟨b, hb, hs⟩ := Option.map_eq_some_iff.mp hs
    exact h.make hs fun b' hb' _ => ((h x b hb).onBit (oneBit_apply op) hb').1
  | erase x pos len =>
    obtain ⟨b, hb, hs⟩ := Option.map_eq_some_iff.mp hs
    exact h.write hs fun _ => (h x b hb).erase pos len
  | flip x =>
    obtain ⟨b, hb, hs⟩ := Option.map_eq_some_iff.mp hs
    exact h.write hs fun _ => (h x b hb).flip
  | reset x bits val =>
    obtain ⟨b, hb, hs⟩ := Option.map_eq_some_iff.mp hs
    exact h.write hs fun hx => (h x b hb).reset (hsmall.bits hx)
  | subits x y pos len =>
    obtain ⟨b, hb, hs⟩ := Option.map_eq_some_iff.mp hs
    exact h.make hs fun b' hb' _ => (h y b hb).subits hb'
  | compl x y =>
    obtain ⟨b, hb, hs⟩ := Option.map_eq_some_iff.mp hs
    exact h.make hs fun b' hb' _ => (h y b hb).compl hb'

variable {π : List (Taken (World ν) (Act ν) BitsetException)}

/-- **Padding.**  In every run in which no object gets more than `INT_MAX` bits, every object has a byte for every
eight bits it has, or fewer, and the bits of its last byte after the last one are zero. -/
theorem padding_zero (hr : Run machine π s) (hπ : Meets (fun s _ => Small s) π) (hs : Small s) {b : Bitset}
    (hb : s x = some b) : (b.bits_ + 7) / 8 ≤ b.bit_buffer_.length ∧
      ∀ k, b.bits_ ≤ k → k < 8 * ((b.bits_ + 7) / 8) → b.bit k = false := by
  have hwf : AllWf s := by
    revert hs
    refine Run.inv (P := fun _ s => Small s → AllWf s) ?_ ?_ hr hπ
    · exact fun _ x b hx => (by cases hx)
    · exact fun _ s a s' es hsmall ih hstep hs => (ih hsmall).step hstep hs
  obtain ⟨-, henough, hpad⟩ := hwf x b hb
  have hbytes : bitBytes b.bits_ = (b.bits_ + 7) / 8 := by
    unfold bitBytes
    split <;> omega
  rw [hbytes] at henough hpad
  exact ⟨henough, hpad⟩

/-- Twelve bits, of which the middle is cut out and a copy appended, flipped. -/
theorem padding_zero_two : ∃ (π : List (Taken (World (Fin 2)) (Act (Fin 2)) BitsetException)) (s : World (Fin 2))
    (b : Bitset), Run machine π s ∧ s 0 = some b ∧ b.bits_ = 14 ∧ (b.bits_ + 7) / 8 ≤ b.bit_buffer_.length ∧
      ∀ k, b.bits_ ≤ k → k < 8 * ((b.bits_ + 7) / 8) → b.bit k = false := by
  obtain ⟨π, s, hr, hp⟩ := exists_run_of_replay (M := machine)
    (p := fun (π : List (Taken (World (Fin 2)) (Act (Fin 2)) BitsetException)) (s : World (Fin 2)) =>
      decide (Meets (fun s _ => Small s) π ∧ Small s ∧ (s 0).any (fun b => b.bits_ = 14) = true))
    [.new 0 12 true, .erase 0 3 5, .copy 1 0, .addAssign 0 1, .flip 0, .onBit 0 13 (.assign true)] (by decide)
  obtain ⟨hπ, hs, hb⟩ := of_decide_eq_true hp
  obtain ⟨b, hb, hbits⟩ := (Option.any_eq_true _ _).mp hb
  exact ⟨π, s, b, hr, hb, of_decide_eq_true hbits, padding_zero hr hπ hs hb⟩

end Store

end Bitset

end Lasagne.Daf
