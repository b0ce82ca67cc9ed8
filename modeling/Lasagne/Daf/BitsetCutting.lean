import Lasagne.Daf.BitsetOperators

/-!
# Lasagne.Daf.BitsetCutting — `subits` and `erase`

A good object is a list of bits.  `subits` copies bits out of one object into a new one, and `erase` moves the bits
behind those that go down over them, within one buffer.  Both loops are that of `+=` with the indices exchanged.

* `cutting` : `subits` is a piece of the list, `erase` is the rest of it, and the pieces make up the whole.
-/

namespace Lasagne.Daf.Bitset

variable {a b c : Bitset} {mem : Bool}

/-! ## Objects as lists -/

/-- The bits, from bit `0` on. -/
def bools (b : Bitset) : List Bool := (List.range b.bits_).map b.bit

@[simp] theorem length_bools (b : Bitset) : b.bools.length = b.bits_ := by
  rw [bools, List.length_map, List.length_range]

theorem getElem?_bools (b : Bitset) {i : ℕ} (hi : i < b.bits_) : b.bools[i]? = some (b.bit i) := by
  rw [bools, List.getElem?_map, List.getElem?_range hi]
  rfl

/-- `operator []` reads the list. -/
theorem getBit_bools (h : b.Wf) (i : ℕ) :
    b.getBit i = (b.bools[i]?).elim (.error .indexOutOfRange) fun val => .ok val := by
  rcases Nat.lt_or_ge i b.bits_ with hi | hi
  · rw [getElem?_bools b hi, getBit_eq h hi]
    rfl
  · rw [List.getElem?_eq_none (by rwa [length_bools]), getBit, if_neg fun hin => absurd (lt_of_inRange hin) (by omega)]
    rfl

theorem same_iff : Same a b ↔ a.bools = b.bools := by
  constructor
  · rintro ⟨hbits, hbit⟩
    rw [bools, bools, ← hbits]
    exact List.map_congr_left fun k hk => hbit k (List.mem_range.mp hk)
  · intro h
    have hbits : a.bits_ = b.bits_ := by
      rw [← length_bools a, h, length_bools]
    refine ⟨hbits, fun k hk => Option.some.inj ?_⟩
    rw [← getElem?_bools a hk, h, getElem?_bools b (hbits ▸ hk)]

/-- An object has the bits of a list. -/
theorem bools_eq_iff {l : List Bool} : b.bools = l ↔ b.bits_ = l.length ∧ ∀ k < b.bits_, l[k]? = some (b.bit k) := by
  constructor
  · rintro rfl
    exact ⟨(length_bools b).symm, fun k hk => getElem?_bools b hk⟩
  · rintro ⟨hbits, hbit⟩
    refine List.ext_getElem? fun k => ?_
    rcases Nat.lt_or_ge k b.bits_ with hk | hk
    · rw [getElem?_bools b hk, hbit k hk]
    · rw [List.getElem?_eq_none (by rwa [length_bools]), List.getElem?_eq_none (by omega)]

/-! ## `operator +` -/

/-- `operator +`. -/
def plus (mem : Bool) (lhs rhs : Bitset) : Except BitsetException Bitset := do
  let b ← copy mem lhs
  returned mem (b.addAssign mem (some rhs))

theorem copy_same (h : b.Wf) : ∃ c, b.copy true = .ok c ∧ c.Wf ∧ c.bools = b.bools := by
  have hcopy : ∃ c, b.copy true = .ok c ∧ Same c b := by
    unfold copy
    split
    · refine ⟨_, rfl, rfl, fun k hk => ?_⟩
      have hle := bitBytes_le_iff.mp (le_refl (bitBytes b.bits_))
      rw [bit_memcpy (n := b.size) h.enough, if_pos (by unfold size; dsimp only at hk; omega)]
    · next hzero =>
      have hbits := bitBytes_eq_zero (not_not.mp hzero)
      exact ⟨_, rfl, rfl, fun k hk => absurd hk (by dsimp only; omega)⟩
  obtain ⟨c, hc, hsame⟩ := hcopy
  exact ⟨c, hc, h.copy hc, same_iff.mp hsame⟩

theorem returned_same (h : b.Wf) : ∃ c, returned true (b, none) = .ok c ∧ c.Wf ∧ c.bools = b.bools := copy_same h

/-- One list behind the other. -/
theorem plus_eq (ha : a.Wf) (hb : b.Wf) (hlen : a.bits_ + b.bits_ < 2 ^ 31) :
    ∃ c, plus true a b = .ok c ∧ c.Wf ∧ c.bools = a.bools ++ b.bools := by
  obtain ⟨a', hcopy, ha', hsame⟩ := copy_same ha
  have hbits : a'.bits_ = a.bits_ := by rw [← length_bools, hsame, length_bools]
  have hadd : ∃ s, a'.addAssign true (some b) = (s, none) ∧ s.Wf ∧ s.bools = a'.bools ++ b.bools := by
    by_cases hzero : b.bits_ = 0
    · refine ⟨a', addAssign_none a' hzero, ha', ?_⟩
      have hnil : b.bools = [] := List.length_eq_zero_iff.mp ((length_bools b).trans hzero)
      rw [hnil, List.append_nil]
    · obtain ⟨s, hadd, hs, hsbits, hsbit⟩ := addAssign_other ha' hb hzero (by omega) (Or.inl rfl)
      refine ⟨s, hadd, hs, bools_eq_iff.mpr ⟨?_, fun k hk => ?_⟩⟩
      · rw [hsbits, List.length_append, length_bools, length_bools]
      · rw [hsbit k (by omega), List.getElem?_append, length_bools]
        split
        · next hlt => exact getElem?_bools a' hlt
        · next hge => exact getElem?_bools b (by omega)
  obtain ⟨s, hadd, hs, hbools⟩ := hadd
  obtain ⟨c, hret, hc, hcs⟩ := returned_same hs
  refine ⟨c, ok_of_bind hcopy ?_, hc, ?_⟩
  · rw [hadd]
    exact hret
  · rw [hcs, hbools, hsame]

/-! ## The loops -/

/-- The loop of `subits` is that of `+=`. -/
theorem subitsLoop_eq_addLoop (b : Bitset) (n i pos : ℕ) (a : Bitset) : subitsLoop b n i pos a =
    match addLoop (some b) n pos i a with
    | (a', none) => .ok a'
    | (_, some e) => .error e := by
  induction n generalizing i pos a with
  | zero => rfl
  | succ n ih =>
    rw [subitsLoop, addLoop, Option.getD_some]
    cases b.getBit pos with
    | error e => rfl
    | ok val =>
      dsimp only
      cases a.onBit i (Bitraits.assign val) with
      | error e => rfl
      | ok a' => exact ih (i + 1) (pos + 1) a'

/-- And so is that of `erase`, but for its one buffer: a bit is read before it is written to. -/
theorem eraseLoop_eq (hb : b.Wf) {n pos epos : ℕ} (hle : pos ≤ epos) (hn : epos + n ≤ b.bits_) :
    ∃ b', eraseLoop n pos epos b = (b', none) ∧ b'.Wf ∧ b'.bits_ = b.bits_ ∧
      ∀ k, b'.bit k = if pos ≤ k ∧ k < pos + n then b.bit (epos + (k - pos)) else b.bit k := by
  induction n generalizing pos epos b with
  | zero => exact ⟨b, rfl, hb, rfl, fun k => (if_neg (by omega)).symm⟩
  | succ n ih =>
    obtain ⟨b₁, hset, hwf, hbits, hbit⟩ :=
      onBit_eq hb (oneBit_assign (b.bit epos)) (toBit_assign (b.bit epos)) (show pos < b.bits_ by omega)
    obtain ⟨b', hloop, hwf', hbits', hrest⟩ := ih hwf (show pos + 1 ≤ epos + 1 by omega) (by omega)
    refine ⟨b', ?_, hwf', hbits'.trans hbits, fun k => ?_⟩
    · rw [eraseLoop, getBit_eq hb (by omega)]
      dsimp only
      rw [hset]
      exact hloop
    · rw [hrest, hbit, hbit]
      by_cases hk : k = pos
      · rw [if_neg (by omega), if_pos hk, if_pos (by omega), hk, Nat.sub_self, Nat.add_zero]
      · by_cases hin : pos + 1 ≤ k ∧ k < pos + 1 + n
        · have hsource : epos + 1 + (k - (pos + 1)) = epos + (k - pos) := by omega
          rw [if_pos hin, if_neg (by omega), if_pos (by omega), hsource]
        · rw [if_neg hin, if_neg hk, if_neg (by omega)]

/-! ## The members -/

/-- How many bits are cut from `pos` on; a negative length is that of the rest. -/
def cutLength (b : Bitset) (pos len : ℤ) : ℕ :=
  if 0 ≤ len then min (b.bits_ - pos.toNat) len.toNat else b.bits_ - pos.toNat

theorem pos_add_cutLength_le {pos : ℤ} (hpos : 0 ≤ pos ∧ pos < b.bits_) (len : ℤ) :
    pos.toNat + b.cutLength pos len ≤ b.bits_ := by
  unfold cutLength
  split <;> omega

theorem startsIn_iff (h : b.Wf) {pos : ℤ} : b.startsIn pos ↔ 0 ≤ pos ∧ pos < b.bits_ := by
  have hsmall := h.small
  unfold startsIn aceRange
  by_cases hzero : b.bits_ = 0
  · simp only [hasBits, hzero]
    simp
  · rw [and_iff_right (h.hasBits hzero), toInt_eq_iff.mpr (by omega)]
    omega

/-- `size_t(len)`, of a negative `len`, is more than any length. -/
theorem span_eq (h : b.Wf) {pos len : ℤ} (hlen : -2 ^ 31 ≤ len ∧ len < 2 ^ 31) :
    b.span pos len = b.cutLength pos len := by
  have hsmall := h.small
  unfold span cutLength toSize
  split <;> omega

theorem new_eq {n : ℕ} (hn : n < 2 ^ 31) : new mem n false =
    if mem = true ∨ n = 0 then .ok ⟨n, filled false (bitBytes n)⟩ else .error .resourceExhaustion := by
  unfold new
  rw [if_pos (fits_iff.mpr (by omega))]
  by_cases hzero : n = 0
  · rw [if_pos (Or.inr hzero), hzero]
    rfl
  · rw [if_pos fun h => hzero (bitBytes_eq_zero h)]
    simp [hzero]

theorem subits_eq (mem : Bool) (h : b.Wf) {pos len : ℤ} (hpos : 0 ≤ pos ∧ pos < b.bits_)
    (hlen : -2 ^ 31 ≤ len ∧ len < 2 ^ 31) :
    ∃ c, c.Wf ∧ c.bools = (b.bools.drop pos.toNat).take (b.cutLength pos len) ∧
      b.subits mem pos len = if mem = true ∨ b.cutLength pos len = 0 then .ok c else .error .resourceExhaustion := by
  have hsmall := h.small
  have hcut := pos_add_cutLength_le hpos len
  generalize hk : b.cutLength pos len = k at hcut
  have hnew : Wf ⟨k, filled false (bitBytes k)⟩ := wf_filled false (by omega)
  obtain ⟨c, hloop, hc, hbits, hbit⟩ := addLoop_eq h hnew hcut (show 0 + k ≤ k by omega)
  refine ⟨c, hc, bools_eq_iff.mpr ⟨?_, fun i hi => ?_⟩, ?_⟩
  · rw [List.length_take, List.length_drop, length_bools, hbits]
    dsimp only
    omega
  · replace hi : i < k := hi.trans_eq hbits
    rw [hbit, if_pos (by omega), List.getElem?_take_of_lt hi, List.getElem?_drop, getElem?_bools b (by omega),
      Nat.sub_zero]
  · rw [subits, if_pos ((startsIn_iff h).mpr hpos), span_eq h hlen, hk, new_eq (by omega)]
    split
    · show subitsLoop b k 0 pos.toNat _ = _
      rw [subitsLoop_eq_addLoop, hloop]
    · rfl

theorem erase_eq (h : b.Wf) {pos len : ℤ} (hpos : 0 ≤ pos ∧ pos < b.bits_) (hlen : -2 ^ 31 ≤ len ∧ len < 2 ^ 31) :
    ∃ e, e.Wf ∧ e.bools = b.bools.take pos.toNat ++ b.bools.drop (pos.toNat + b.cutLength pos len) ∧
      b.erase pos len = (e, none) := by
  have hsmall := h.small
  have hcut := pos_add_cutLength_le hpos len
  rw [erase, if_pos ((startsIn_iff h).mpr hpos), span_eq h hlen, toSize_toInt (by omega)]
  generalize b.cutLength pos len = k at hcut
  obtain ⟨b', hloop, hwf, hbits, hbit⟩ := eraseLoop_eq h (show pos.toNat ≤ pos.toNat + k by omega)
    (show pos.toNat + k + (b.bits_ - (pos.toNat + k)) ≤ b.bits_ by omega)
  have hless : pos.toNat + (b.bits_ - (pos.toNat + k)) ≤ b'.bits_ := by omega
  have hroom : bitBytes (pos.toNat + (b.bits_ - (pos.toNat + k))) ≤ b'.bit_buffer_.length :=
    (bitBytes_mono hless).trans hwf.enough
  dsimp only
  rw [hloop]
  refine ⟨_, wf_trimBits (by dsimp only; omega) hroom, bools_eq_iff.mpr ⟨?_, fun i hi => ?_⟩, rfl⟩
  · rw [trimBits_bits, List.length_append, List.length_take, List.length_drop, length_bools]
    dsimp only
    omega
  · rw [trimBits_bits] at hi
    dsimp only at hi
    rw [bit_trimBits (by dsimp only; omega) hroom hi, List.getElem?_append, List.length_take, length_bools]
    show _ = some (b'.bit i)
    rw [hbit]
    split
    · rw [List.getElem?_take_of_lt (by omega), getElem?_bools b (by omega), if_neg (by omega)]
    · rw [List.getElem?_drop, getElem?_bools b (by omega), if_pos (by omega)]
      congr 2
      omega

/-- What `subits` and `erase` should do, from `pos` on. -/
structure Cuts (mem : Bool) (b : Bitset) (pos len : ℤ) : Prop where
  inside : 0 ≤ pos ∧ pos < b.bits_ → ∃ c e, c.Wf ∧ e.Wf ∧
    b.subits mem pos len = (if mem = true ∨ b.cutLength pos len = 0 then .ok c else .error .resourceExhaustion) ∧
    b.erase pos len = (e, none) ∧
    c.bools = (b.bools.drop pos.toNat).take (b.cutLength pos len) ∧
    e.bools = b.bools.take pos.toNat ++ b.bools.drop (pos.toNat + b.cutLength pos len) ∧
    b.bools = e.bools.take pos.toNat ++ c.bools ++ e.bools.drop pos.toNat
  halves : 0 < pos ∧ pos < b.bits_ → ∃ c d s, b.subits true 0 pos = .ok c ∧ b.subits true pos (-1) = .ok d ∧
    plus true c d = .ok s ∧ s.Wf ∧ Same s b
  outside : ¬ (0 ≤ pos ∧ pos < b.bits_) →
    b.subits mem pos len = .error .indexOutOfRange ∧ b.erase pos len = (b, some .indexOutOfRange)

/-- **Cutting.**  On a good object `subits` is a piece of the bits and `erase` is what is left without it; what `subits`
makes of an object in two goes is the object again; and where there is no bit at `pos`, both throw. -/
theorem cutting (h : b.Wf) {pos len : ℤ} (hlen : -2 ^ 31 ≤ len ∧ len < 2 ^ 31) (mem : Bool) : Cuts mem b pos len := by
  have hsmall := h.small
  refine ⟨fun hpos => ?_, fun hpos => ?_, fun hpos => ?_⟩
  · obtain ⟨c, hc, hcut, hsubits⟩ := subits_eq mem h hpos hlen
    obtain ⟨e, he, hrest, herase⟩ := erase_eq h hpos hlen
    refine ⟨c, e, hc, he, hsubits, herase, hcut, hrest, ?_⟩
    have hlength : (b.bools.take pos.toNat).length = pos.toNat := by
      rw [List.length_take, length_bools]
      omega
    rw [hrest, hcut, List.take_left' hlength, List.drop_left' hlength, List.append_assoc, ← List.drop_drop,
      List.take_append_drop, List.take_append_drop]
  · obtain ⟨c, hc, hfirst, hsubits⟩ := subits_eq true h (show (0 : ℤ) ≤ 0 ∧ (0 : ℤ) < b.bits_ by omega)
      (show -2 ^ 31 ≤ pos ∧ pos < 2 ^ 31 by omega)
    obtain ⟨d, hd, hsecond, hsubits'⟩ := subits_eq true h (show 0 ≤ pos ∧ pos < b.bits_ by omega)
      (show (-2 ^ 31 : ℤ) ≤ -1 ∧ (-1 : ℤ) < 2 ^ 31 by decide)
    rw [if_pos (Or.inl rfl)] at hsubits hsubits'
    have hrest : (b.bools.drop pos.toNat).length ≤ b.cutLength pos (-1) := by
      rw [List.length_drop, length_bools]
      exact le_refl _
    have hpart : b.cutLength 0 pos = pos.toNat := by
      unfold cutLength
      rw [if_pos (by omega), Int.toNat_zero, Nat.sub_zero, min_eq_right (by omega)]
    have hwhole : c.bools ++ d.bools = b.bools := by
      rw [hfirst, hsecond, hpart, List.take_of_length_le hrest, Int.toNat_zero, List.drop_zero, List.take_append_drop]
    have hlength : c.bits_ + d.bits_ = b.bits_ := by
      rw [← length_bools c, ← length_bools d, ← List.length_append, hwhole, length_bools]
    obtain ⟨s, hplus, hs, hbools⟩ := plus_eq hc hd (by omega)
    exact ⟨c, d, s, hsubits, hsubits', hplus, hs, same_iff.mpr (hbools.trans hwhole)⟩
  · have hnot := mt (startsIn_iff h).mp hpos
    exact ⟨if_neg hnot, if_neg hnot⟩

/-- Five bits of twelve, across the end of the first byte. -/
theorem cutting_twelve : Cuts true ⟨12, [0xa5, 0x50]⟩ 6 5 :=
  cutting (b := ⟨12, [0xa5, 0x50]⟩) ⟨by decide, by decide, by decide⟩ ⟨by decide, by decide⟩ true

end Lasagne.Daf.Bitset
