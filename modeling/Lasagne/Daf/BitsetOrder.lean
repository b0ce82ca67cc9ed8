import Lasagne.Wire.Lex
import Lasagne.Daf.BitsetCutting

/-!
# Lasagne.Daf.BitsetOrder — `Bitset::compare_to`

Objects of different lengths are ordered by length.  Where the lengths are equal the bytes decide; the highest bit of
the first byte is bit `0`, and what is behind the last bit is zero in both.  So the order is that of the lists of bits.

* `comparing` : `compare_to` is a total order, by the length and then by the bits, and to turn all bits over is to turn
  the order over.
-/

namespace Lasagne.Daf.Bitset

open Lasagne.Wire

variable {a b c : Bitset}

/-! ## Bytes -/

theorem memcmp_lt_zero {n : ℕ} {x y : List BitByte} (hx : n ≤ x.length) (hy : n ≤ y.length) :
    memcmp n x y < 0 ↔ x.take n < y.take n := by
  induction n generalizing x y with
  | zero => simp [memcmp]
  | succ n ih =>
    obtain _ | ⟨v, x⟩ := x
    · simp at hx
    · obtain _ | ⟨w, y⟩ := y
      · simp at hy
      · rw [memcmp, List.headD_cons, List.headD_cons, List.tail_cons, List.tail_cons, List.take_succ_cons,
          List.take_succ_cons, List.cons_lt_cons_iff, ← ih (Nat.le_of_succ_le_succ hx) (Nat.le_of_succ_le_succ hy)]
        split_ifs with heq hlt
        · simp [heq, BitVec.lt_irrefl]
        · simp [hlt]
        · simp [heq, hlt]

theorem memcmp_swap (n : ℕ) (x y : List BitByte) : memcmp n y x = -memcmp n x y := by
  induction n generalizing x y with
  | zero => rfl
  | succ n ih =>
    rw [memcmp, memcmp, ih]
    generalize x.headD 0 = v, y.headD 0 = w
    by_cases heq : v = w
    · rw [if_pos heq, if_pos heq.symm]
    · have hne : v.toNat ≠ w.toNat := fun h => heq (BitVec.eq_of_toNat_eq h)
      rw [if_neg heq, if_neg (Ne.symm heq)]
      simp only [BitVec.lt_def]
      split_ifs <;> omega

/-- The bits of the first `n` bytes. -/
theorem flatMap_msbs {n : ℕ} (h : n ≤ b.bit_buffer_.length) :
    (b.bit_buffer_.take n).flatMap msbs = (List.range (8 * n)).map b.bit := by
  induction n with
  | zero => rfl
  | succ n ih =>
    have hbyte : msbs b.bit_buffer_[n] = (List.range 8).map (b.bit ∘ (8 * n + ·)) := by
      refine List.map_congr_left fun j hj => ?_
      have hj' := List.mem_range.mp hj
      show _ = (b.bit_buffer_.getD ((8 * n + j) / 8) 0).getMsbD ((8 * n + j) % 8)
      rw [show (8 * n + j) / 8 = n by omega, show (8 * n + j) % 8 = j by omega, List.getD_eq_getElem _ _ (by omega)]
    rw [List.take_succ_eq_append_getElem (by omega), List.flatMap_append, ih (by omega), Nat.mul_succ, List.range_add,
      List.map_append, List.map_map, List.flatMap_singleton, hbyte]

theorem Wf.size_le (h : b.Wf) : b.size ≤ b.bit_buffer_.length := h.enough

/-- They are the bits of the object, with zeros behind them. -/
theorem Wf.flatMap_msbs (h : b.Wf) :
    (b.bit_buffer_.take b.size).flatMap msbs = b.bools ++ List.replicate (8 * b.size - b.bits_) false := by
  have hle : b.bits_ ≤ 8 * b.size := bitBytes_le_iff.mp (le_refl _)
  rw [Bitset.flatMap_msbs h.size_le, bools, show 8 * b.size = b.bits_ + (8 * b.size - b.bits_) by omega, List.range_add,
    List.map_append, List.map_map]
  congr 1
  refine List.eq_replicate_iff.mpr ⟨?_, fun v hv => ?_⟩
  · rw [List.length_map, List.length_range]
    omega
  · obtain ⟨j, hj, rfl⟩ := List.mem_map.mp hv
    have hj' := List.mem_range.mp hj
    exact h.padded _ (Nat.le_add_right _ _) (show b.bits_ + j < 8 * b.size by omega)

/-! ## The order -/

/-- The length, and then the bits. -/
def key (b : Bitset) : ℕ ×ₗ List Bool := toLex (b.bits_, b.bools)

theorem key_inj : a.key = b.key ↔ Same a b := by
  rw [same_iff]
  constructor
  · exact fun h => (Prod.mk.inj (toLex.injective h)).2
  · intro h
    have hbits : a.bits_ = b.bits_ := by rw [← length_bools a, h, length_bools]
    rw [key, key, h, hbits]

theorem compareTo_of_bits_eq (h : a.bits_ = b.bits_) :
    a.compareTo (some b) = memcmp a.size a.bit_buffer_ b.bit_buffer_ := by
  unfold compareTo
  dsimp only
  by_cases hsize : a.size = 0
  · rw [if_neg fun hne => hne.2 hsize, hsize, h, sub_self]
    rfl
  · rw [if_pos ⟨h, hsize⟩]

/-- The difference of two lengths is an `int`. -/
theorem compareTo_of_bits_ne (ha : a.Wf) (hb : b.Wf) (h : a.bits_ ≠ b.bits_) :
    a.compareTo (some b) = a.bits_ - b.bits_ := by
  have hsmall := ha.small
  have hsmall' := hb.small
  unfold compareTo
  dsimp only
  rw [if_neg fun heq => h heq.1]
  unfold toInt toSize Int.bmod
  dsimp only
  split <;> omega

theorem compareTo_lt_zero (ha : a.Wf) (hb : b.Wf) : a.compareTo (some b) < 0 ↔ a.key < b.key := by
  rw [key, key, Prod.Lex.toLex_lt_toLex]
  by_cases hbits : a.bits_ = b.bits_
  · have hsize : b.size = a.size := congrArg bitBytes hbits.symm
    have hlength : (a.bit_buffer_.take a.size).length = (b.bit_buffer_.take a.size).length := by
      rw [List.length_take_of_le ha.size_le, List.length_take_of_le (hsize.ge.trans hb.size_le)]
    have hbytes := flatMap_lt_flatMap_iff length_msbs (fun _ _ => msbs_lt_msbs_iff) msbs_injective hlength
    rw [ha.flatMap_msbs, ← hsize, hb.flatMap_msbs, hsize, hbits,
      append_lt_append_iff (by rw [length_bools, length_bools, hbits])] at hbytes
    rw [compareTo_of_bits_eq hbits, memcmp_lt_zero ha.size_le (hsize.ge.trans hb.size_le), ← hbytes]
    simp [hbits]
  · rw [compareTo_of_bits_ne ha hb hbits]
    dsimp only
    omega

theorem compareTo_swap (ha : a.Wf) (hb : b.Wf) : b.compareTo (some a) = -a.compareTo (some b) := by
  by_cases hbits : a.bits_ = b.bits_
  · have hsize : b.size = a.size := congrArg bitBytes hbits.symm
    rw [compareTo_of_bits_eq hbits, compareTo_of_bits_eq hbits.symm, hsize]
    exact memcmp_swap _ _ _
  · rw [compareTo_of_bits_ne ha hb hbits, compareTo_of_bits_ne hb ha (Ne.symm hbits), neg_sub]

theorem compareTo_pos (ha : a.Wf) (hb : b.Wf) : 0 < a.compareTo (some b) ↔ b.key < a.key := by
  rw [← compareTo_lt_zero hb ha, compareTo_swap ha hb]
  omega

theorem compareTo_le_zero (ha : a.Wf) (hb : b.Wf) : a.compareTo (some b) ≤ 0 ↔ a.key ≤ b.key := by
  rw [← not_lt, compareTo_pos ha hb, not_lt]

theorem compareTo_eq_zero (ha : a.Wf) (hb : b.Wf) : a.compareTo (some b) = 0 ↔ a.key = b.key := by
  rw [le_antisymm_iff (a := a.key), ← compareTo_le_zero ha hb, ← compareTo_le_zero hb ha, compareTo_swap ha hb]
  omega

/-- The sign, from the order. -/
theorem sign_eq_sign_iff {a' b' : Bitset} (ha : a.Wf) (hb : b.Wf) (ha' : a'.Wf) (hb' : b'.Wf)
    (hlt : a.key < b.key ↔ a'.key < b'.key) (hgt : b.key < a.key ↔ b'.key < a'.key) :
    (a.compareTo (some b)).sign = (a'.compareTo (some b')).sign := by
  rw [← compareTo_lt_zero ha hb, ← compareTo_lt_zero ha' hb'] at hlt
  rw [← compareTo_pos ha hb, ← compareTo_pos ha' hb'] at hgt
  rcases lt_trichotomy (a.compareTo (some b)) 0 with h | h | h
  · rw [Int.sign_eq_neg_one_of_neg h, Int.sign_eq_neg_one_of_neg (hlt.mp h)]
  · rw [h, show a'.compareTo (some b') = 0 by omega]
  · rw [Int.sign_eq_one_of_pos h, Int.sign_eq_one_of_pos (hgt.mp h)]

/-! ## All bits turned over -/

theorem key_lt_key_iff_of_map_not {a' b' : Bitset} (hbits : a.bits_ = b.bits_) (hnot : a'.bools = a.bools.map not)
    (hnot' : b'.bools = b.bools.map not) : a'.key < b'.key ↔ b.key < a.key := by
  have hlength : a.bools.length = b.bools.length := by rw [length_bools, length_bools, hbits]
  have ha' : a'.bits_ = b.bits_ := by rw [← length_bools a', hnot, List.length_map, hlength, length_bools]
  have hb' : b'.bits_ = b.bits_ := by rw [← length_bools b', hnot', List.length_map, length_bools]
  rw [key, key, key, key, Prod.Lex.toLex_lt_toLex, Prod.Lex.toLex_lt_toLex]
  dsimp only
  rw [hnot, hnot', map_not_lt_map_not_iff hlength, ha', hb', hbits]

/-- Objects whose bits are all turned over. -/
theorem sign_of_map_not {a' b' : Bitset} (ha : a.Wf) (hb : b.Wf) (ha' : a'.Wf) (hb' : b'.Wf) (hbits : a.bits_ = b.bits_)
    (hnot : a'.bools = a.bools.map not) (hnot' : b'.bools = b.bools.map not) :
    (a'.compareTo (some b')).sign = (b.compareTo (some a)).sign :=
  sign_eq_sign_iff ha' hb' hb ha (key_lt_key_iff_of_map_not hbits hnot hnot')
    (key_lt_key_iff_of_map_not hbits.symm hnot' hnot)

theorem getMsbD_ones {k : ℕ} (hk : k < 8) : (0xff : BitByte).getMsbD k = true := by
  have hones : ∀ j : Fin 8, (0xff : BitByte).getMsbD j = true := by decide
  exact hones ⟨k, hk⟩

theorem flipLoop_bit {n : ℕ} (hn : n ≤ b.bit_buffer_.length) (hsmall : n < 2 ^ 31) (k : ℕ) :
    (flipLoop n b).bit k = if k / 8 < n then !b.bit k else b.bit k := by
  induction n generalizing b with
  | zero => rfl
  | succ n ih =>
    have hstep : flipLoop (n + 1) b = flipLoop n (b.modifyByte n (· ^^^ 0xff)) := by
      rw [flipLoop, List.range_succ, List.foldr_append, List.foldr_cons, List.foldr_nil, toInt_eq_iff.mpr (by omega)]
      rfl
    rw [hstep, ih (by rw [modifyByte_length]; omega) (by omega), bit_modifyByte _ _ _ _ (by omega), byteAt_natCast]
    by_cases hbyte : k / 8 = n
    · rw [if_neg (by omega), if_pos hbyte, if_pos (by omega), BitVec.getMsbD_xor,
        getMsbD_ones (Nat.mod_lt _ (by norm_num)), Bool.xor_true, ← hbyte]
      rfl
    · rw [if_neg hbyte]
      split_ifs <;> first | rfl | omega

theorem flip_bools (h : b.Wf) : b.flip.bools = b.bools.map not := by
  obtain ⟨hbits, hlength⟩ := flipLoop_shape b.size b
  have hsmall := h.small
  have hle : b.bits_ ≤ 8 * b.size := bitBytes_le_iff.mp (le_refl _)
  have hsize : b.size < 2 ^ 31 := by
    have hroom : b.size ≤ b.bits_ := bitBytes_le_iff.mpr (by omega)
    omega
  refine bools_eq_iff.mpr ⟨?_, fun k hk => ?_⟩
  · rw [flip_bits, List.length_map, length_bools]
  · rw [flip_bits] at hk
    rw [List.getElem?_map, getElem?_bools b hk, flip,
      bit_trimBits (by rw [hbits]; exact hsmall) (by rw [hbits, hlength]; exact h.enough) (by omega),
      flipLoop_bit h.size_le hsize, if_pos (by omega)]
    rfl

/-- An object of ones. -/
theorem new_ones {n : ℕ} (hn : n < 2 ^ 31) :
    ∃ c, new true n true = .ok c ∧ c.Wf ∧ c.bits_ = n ∧ ∀ k < n, c.bit k = true := by
  have hones : ∃ c, new true n true = .ok c ∧ c.bits_ = n ∧ ∀ k < n, c.bit k = true := by
    by_cases hzero : n = 0
    · subst hzero
      exact ⟨⟨0, []⟩, rfl, rfl, nofun⟩
    · refine ⟨trimBits ⟨n, filled true (bitBytes n)⟩, ?_, trimBits_bits _, fun k hk => ?_⟩
      · rw [new, if_pos (fits_iff.mpr (by omega)), if_pos fun h => hzero (bitBytes_eq_zero h), if_pos rfl, if_pos rfl]
      · have hle := bitBytes_le_iff.mp (le_refl (bitBytes n))
        rw [bit_trimBits hn (by simp [filled]) hk]
        unfold bit filled
        rw [List.getD_replicate _ (by omega), if_pos rfl]
        exact getMsbD_ones (Nat.mod_lt _ (by norm_num))
  obtain ⟨c, hc, hbits, hbit⟩ := hones
  exact ⟨c, hc, wf_new hc (by omega), hbits, hbit⟩

theorem compl_bools (h : b.Wf) : ∃ c, b.compl true = .ok c ∧ c.Wf ∧ c.bools = b.bools.map not := by
  obtain ⟨ones, hnew, hones, hbits, hone⟩ := new_ones h.small
  obtain ⟨x, hxor, hxbits, hxbit⟩ := combine_eq .xor hones h
  replace hxor : ones.xorAssign (some b) = (x, none) := hxor
  have hx : x.Wf := by
    have hwf := hones.xorAssign (some b)
    rwa [hxor] at hwf
  obtain ⟨c, hret, hc, hsame⟩ := returned_same hx
  refine ⟨c, ok_of_bind hnew ?_, hc, ?_⟩
  · rw [hxor]
    exact hret
  · rw [hsame]
    refine bools_eq_iff.mpr ⟨?_, fun k hk => ?_⟩
    · rw [List.length_map, length_bools, hxbits, hbits]
    · rw [List.getElem?_map, getElem?_bools b (by omega), hxbit, if_pos (by omega), hone k (by omega)]
      show some (!b.bit k) = some (true ^^ b.bit k)
      rw [Bool.true_xor]

/-! ## `compare_to` -/

/-- What `compare_to` should be, of three objects. -/
structure Compares (a b c : Bitset) : Prop where
  self : a.compareTo none = 0
  antisymm : (b.compareTo (some a)).sign = -(a.compareTo (some b)).sign
  trans : ∀ s, (a.compareTo (some b)).sign = s → (b.compareTo (some c)).sign = s → (a.compareTo (some c)).sign = s
  le_trans : a.compareTo (some b) ≤ 0 → b.compareTo (some c) ≤ 0 → a.compareTo (some c) ≤ 0
  same : a.compareTo (some b) = 0 ↔ Same a b
  shorter : a.bits_ < b.bits_ → a.compareTo (some b) < 0
  lex : a.bits_ = b.bits_ → (a.compareTo (some b) < 0 ↔ a.bools < b.bools)
  flip : a.bits_ = b.bits_ → (a.flip.compareTo (some b.flip)).sign = (b.compareTo (some a)).sign
  compl : a.bits_ = b.bits_ → ∃ a' b', a.compl true = .ok a' ∧ b.compl true = .ok b' ∧
    (a'.compareTo (some b')).sign = (b.compareTo (some a)).sign

/-- **Order.**  On good objects `compare_to` is a total order, first by the length and then by the bits, of which
`false` is the smaller one; and it is turned over by `flip` and `~`. -/
theorem comparing (ha : a.Wf) (hb : b.Wf) (hc : c.Wf) : Compares a b c where
  self := rfl
  antisymm := by rw [compareTo_swap ha hb, Int.sign_neg]
  trans s := by
    rintro rfl h
    rcases lt_trichotomy (a.compareTo (some b)) 0 with hab | hab | hab
    · rw [Int.sign_eq_neg_one_of_neg hab, Int.sign_eq_neg_one_iff_neg, compareTo_lt_zero hb hc] at h
      rw [Int.sign_eq_neg_one_of_neg hab, Int.sign_eq_neg_one_iff_neg, compareTo_lt_zero ha hc]
      exact ((compareTo_lt_zero ha hb).mp hab).trans h
    · rw [hab, Int.sign_zero, Int.sign_eq_zero_iff_zero, compareTo_eq_zero hb hc] at h
      rw [hab, Int.sign_zero, Int.sign_eq_zero_iff_zero, compareTo_eq_zero ha hc]
      exact ((compareTo_eq_zero ha hb).mp hab).trans h
    · rw [Int.sign_eq_one_of_pos hab, Int.sign_eq_one_iff_pos, compareTo_pos hb hc] at h
      rw [Int.sign_eq_one_of_pos hab, Int.sign_eq_one_iff_pos, compareTo_pos ha hc]
      exact h.trans ((compareTo_pos ha hb).mp hab)
  le_trans := by
    rw [compareTo_le_zero ha hb, compareTo_le_zero hb hc, compareTo_le_zero ha hc]
    exact fun h h' => h.trans h'
  same := (compareTo_eq_zero ha hb).trans key_inj
  shorter h := (compareTo_lt_zero ha hb).mpr (Prod.Lex.toLex_lt_toLex.mpr (Or.inl h))
  lex h := by
    rw [compareTo_lt_zero ha hb, key, key, Prod.Lex.toLex_lt_toLex]
    simp [h]
  flip h := sign_of_map_not ha hb ha.flip hb.flip h (flip_bools ha) (flip_bools hb)
  compl h := by
    obtain ⟨a', hcompl, ha', hnot⟩ := compl_bools ha
    obtain ⟨b', hcompl', hb', hnot'⟩ := compl_bools hb
    exact ⟨a', b', hcompl, hcompl', sign_of_map_not ha hb ha' hb' h hnot hnot'⟩

/-- Twelve bits, twelve others and nine. -/
theorem comparing_twelve : Compares ⟨12, [0xa5, 0x50]⟩ ⟨12, [0xa5, 0x40]⟩ ⟨9, [0x3c, 0x80]⟩ :=
  comparing ⟨by decide, by decide, by decide⟩ ⟨by decide, by decide, by decide⟩ ⟨by decide, by decide, by decide⟩

end Lasagne.Daf.Bitset
