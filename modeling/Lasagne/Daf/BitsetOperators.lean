import Lasagne.Daf.BitsetLength

/-!
# Lasagne.Daf.BitsetOperators — what the operators of `DAF::Bitset` do to the bits

`&=`, `|=`, `^=` and `==` go down from the shorter length, bit by bit to a multiple of eight and then by bytes.  Where
the operand is the object itself, they do nothing.  `+=` has no such test: it asks the operand for its length after
it has set its own.

* `concat_iff`: `+=` appends its operand, unless that is the object itself.
* `fast_paths`: the mixed loops are the operators bit by bit.
* `alias_iff`: an object as its own operand is as good as a copy, except for `^=`.
-/

namespace Lasagne.Daf.Bitset

/-! ## Single bits -/

variable {a b c : Bitset} {f : BitByte → BitByte → BitByte}

theorem and_bitMask_ne_zero (x : BitByte) (i : ℕ) : (x &&& bitMask i ≠ 0) ↔ x.getMsbD (i % 8) = true := by
  have hlt : i % 8 < 8 := Nat.mod_lt _ (by norm_num)
  constructor
  · intro hne
    by_contra hx
    refine hne (BitVec.eq_of_getMsbD_eq fun k hk => ?_)
    rw [BitVec.getMsbD_and, getMsbD_bitMask i hk]
    by_cases hik : i % 8 = k
    · rw [← hik, Bool.eq_false_iff.mpr hx]
      simp
    · simp [hik]
  · intro hx hzero
    have hbit := congrArg (fun y : BitByte => y.getMsbD (i % 8)) hzero
    simp [getMsbD_bitMask i hlt, hx] at hbit

theorem inRange_iff (h : b.Wf) {i : ℕ} : b.inRange i ↔ i < b.bits_ := by
  refine ⟨lt_of_inRange, fun hi => ⟨h.hasBits (by omega), ?_⟩⟩
  unfold aceRange
  omega

theorem getBit_eq (h : b.Wf) {i : ℕ} (hi : i < b.bits_) : b.getBit i = .ok (b.bit i) := by
  have hsmall := h.small
  rw [getBit, if_pos ((inRange_iff h).mpr hi), toInt_eq_iff.mpr (by omega), byteAt_natCast]
  congr 1
  rw [Bool.eq_iff_iff, decide_eq_true_eq, and_bitMask_ne_zero]
  rfl

/-- What an operator of the proxy does to the bit of its mask. -/
def ToBit (f : BitByte → BitByte → BitByte) (op : Bool → Bool) : Prop :=
  ∀ mask byte k, k < 8 → mask.getMsbD k = true → (f mask byte).getMsbD k = op (byte.getMsbD k)

theorem toBit_assign (val : Bool) : ToBit (Bitraits.assign val) fun _ => val := by
  intro mask byte k hk h
  cases val <;> simp [Bitraits.assign, h, hk]

theorem toBit_andAssign (val : Bool) : ToBit (Bitraits.andAssign val) (· && val) := by
  intro mask byte k hk h
  cases val <;> simp [Bitraits.andAssign, h, hk]

theorem toBit_orAssign (val : Bool) : ToBit (Bitraits.orAssign val) (· || val) := by
  intro mask byte k hk h
  cases val <;> simp [Bitraits.orAssign, h]

theorem toBit_xorAssign (val : Bool) : ToBit (Bitraits.xorAssign val) (· ^^ val) := by
  intro mask byte k hk h
  unfold Bitraits.xorAssign
  cases val with
  | true => simp [h]
  | false =>
    rw [if_neg Bool.false_ne_true]
    show _ = (byte.getMsbD k ^^ false)
    rw [Bool.xor_false]
    split
    · rfl
    · next hzero =>
      have hbit := congrArg (fun y : BitByte => y.getMsbD k) (not_not.mp hzero)
      simp only [BitVec.getMsbD_and, h, Bool.and_true] at hbit
      simp [h, hbit]

/-- A write to one bit. -/
theorem onBit_eq (h : b.Wf) (hf : OneBit f) {op : Bool → Bool} (hop : ToBit f op) {i : ℕ} (hi : i < b.bits_) :
    ∃ b', b.onBit i f = .ok b' ∧ b'.Wf ∧ b'.bits_ = b.bits_ ∧
      ∀ k, b'.bit k = if k = i then op (b.bit i) else b.bit k := by
  have hsmall := h.small
  have hlen := bitBytes_le_iff.mp h.enough
  have hon : b.onBit i f = .ok (b.modifyByte (i / 8 : ℕ) (f (bitMask i))) := by
    rw [onBit, if_pos ((inRange_iff h).mpr hi), toInt_eq_iff.mpr (by omega)]
  obtain ⟨hwf, hbits⟩ := h.onBit hf hon
  refine ⟨_, hon, hwf, hbits, fun k => ?_⟩
  have hmod : k % 8 < 8 := Nat.mod_lt _ (by norm_num)
  rw [bit_modifyByte _ _ _ _ (by omega), byteAt_natCast]
  by_cases hbyte : k / 8 = i / 8
  · rw [if_pos hbyte]
    by_cases hki : k = i
    · rw [if_pos hki, hki]
      refine hop _ _ _ (Nat.mod_lt _ (by norm_num)) ?_
      rw [getMsbD_bitMask i (Nat.mod_lt _ (by norm_num))]
      simp
    · rw [if_neg hki, hf _ _ _ hmod (by rw [getMsbD_bitMask i hmod]; simp; omega), ← hbyte]
      rfl
  · rw [if_neg hbyte, if_neg (by rintro rfl; exact hbyte rfl)]

theorem bitBuffer_eq {off : ℕ} (hoff : 8 * off < b.bits_) : b.bitBuffer off = .ok off := by
  have hsize : ¬ b.size ≤ off := by
    unfold size
    rw [bitBytes_le_iff]
    omega
  rw [bitBuffer, if_neg]
  rintro (hzero | ⟨-, hle⟩)
  · omega
  · exact hsize hle

/-! ## `+=` -/

/-- The loop of `+=`, with another object as the operand. -/
theorem addLoop_eq (hb : b.Wf) {n i pos : ℕ} (ha : a.Wf) (hi : i + n ≤ b.bits_) (hpos : pos + n ≤ a.bits_) :
    ∃ a', addLoop (some b) n i pos a = (a', none) ∧ a'.Wf ∧ a'.bits_ = a.bits_ ∧
      ∀ k, a'.bit k = if pos ≤ k ∧ k < pos + n then b.bit (i + (k - pos)) else a.bit k := by
  induction n generalizing i pos a with
  | zero => exact ⟨a, rfl, ha, rfl, fun k => (if_neg (by omega)).symm⟩
  | succ n ih =>
    obtain ⟨a₁, hset, hwf, hbits, hbit⟩ :=
      onBit_eq ha (oneBit_assign (b.bit i)) (toBit_assign (b.bit i)) (show pos < a.bits_ by omega)
    obtain ⟨a', hloop, hwf', hbits', hrest⟩ := ih hwf (show i + 1 + n ≤ b.bits_ by omega)
      (show pos + 1 + n ≤ a₁.bits_ by omega)
    refine ⟨a', ?_, hwf', hbits'.trans hbits, fun k => ?_⟩
    · rw [addLoop, Option.getD_some, getBit_eq hb (by omega)]
      dsimp only
      rw [hset]
      exact hloop
    · rw [hrest, hbit]
      by_cases hk : k = pos
      · rw [if_neg (by omega), if_pos hk, if_pos (by omega), hk, Nat.sub_self, Nat.add_zero]
      · rw [if_neg hk]
        by_cases hin : pos + 1 ≤ k ∧ k < pos + 1 + n
        · rw [if_pos hin, if_pos (by omega), show i + 1 + (k - (pos + 1)) = i + (k - pos) by omega]
        · rw [if_neg hin, if_neg (by omega)]

/-- It does not get past the end of the object. -/
theorem addLoop_overrun {o : Option Bitset} {n i pos : ℕ} (hpos : pos ≤ a.bits_) (hover : a.bits_ < pos + n) :
    (addLoop o n i pos a).2 ≠ none := by
  induction n generalizing i pos a with
  | zero => omega
  | succ n ih =>
    rw [addLoop]
    split
    · exact Option.some_ne_none _
    · split
      · exact Option.some_ne_none _
      · next a' hset =>
        have hbits := onBit_bits hset
        unfold onBit at hset
        split at hset
        · next hin =>
          have hlt := lt_of_inRange hin
          exact ih (by omega) (by omega)
        · cases hset

/-- What is cut off is not among the bits. -/
theorem bit_trimBits (hsmall : b.bits_ < 2 ^ 31) (henough : bitBytes b.bits_ ≤ b.bit_buffer_.length) {k : ℕ}
    (hk : k < b.bits_) : b.trimBits.bit k = b.bit k := by
  have hlen := bitBytes_le_iff.mp henough
  unfold trimBits
  split
  · next hmod =>
    rw [toInt_eq_iff.mpr (by omega), bit_modifyByte _ _ _ _ (by omega)]
    split
    · next hbyte =>
      have hlt : k % 8 < 8 := Nat.mod_lt _ (by norm_num)
      rw [BitVec.getMsbD_and, getMsbD_blockMask (by omega) _ hlt, decide_eq_true (by omega), Bool.or_true,
        Bool.and_true, byteAt_natCast, ← hbyte]
      rfl
    · rfl
  · rfl

theorem trimBits_bit (h : b.Wf) {k : ℕ} (hk : k < b.bits_) : b.trimBits.bit k = b.bit k :=
  bit_trimBits h.small h.enough hk

/-- The room for more bits keeps those there are. -/
theorem grow_ok (ha : a.Wf) {mem : Bool} {bits : ℕ} (hlen : bits < 2 ^ 31)
    (hroom : mem = true ∨ bitBytes bits ≤ a.size) :
    ∃ a', a.grow mem bits = .ok a' ∧ ∀ k < a.bits_, a'.bit k = a.bit k := by
  have hle := bitBytes_le_iff.mp (le_refl (bitBytes a.bits_))
  unfold grow
  rw [if_pos (fits_iff.mpr (by omega))]
  by_cases hmore : bitBytes bits > a.size
  · rw [if_pos hmore, if_pos (hroom.resolve_right (not_le.mpr hmore))]
    refine ⟨_, rfl, fun k hk => ?_⟩
    rw [if_pos (by omega), bit_memcpy (n := a.size) ha.enough, if_pos (by unfold size; omega)]
  · rw [if_neg hmore]
    exact ⟨_, rfl, fun k _ => rfl⟩

theorem addAssign_none (a : Bitset) {mem : Bool} {o : Option Bitset} (hzero : (o.getD a).bits_ = 0) :
    a.addAssign mem o = (a, none) := by
  unfold addAssign
  rw [if_neg]
  simp [hasBits, hzero]

theorem addAssign_noRoom {o : Option Bitset} (hb : (o.getD a).Wf) (hpos : (o.getD a).bits_ ≠ 0)
    (hlen : a.bits_ + (o.getD a).bits_ < 2 ^ 31) (hroom : ¬ bitBytes (a.bits_ + (o.getD a).bits_) ≤ a.size) :
    (a.addAssign false o).2 = some .resourceExhaustion := by
  have hmod : (a.bits_ + (o.getD a).bits_) % 2 ^ 64 = a.bits_ + (o.getD a).bits_ := Nat.mod_eq_of_lt (by omega)
  unfold addAssign
  rw [if_pos (hb.hasBits hpos), hmod, grow, if_pos (fits_iff.mpr (by omega)), if_pos (not_le.mp hroom),
    if_neg Bool.false_ne_true]

/-- An object that adds itself has grown before the loop asks for the number of bits to add. -/
theorem addAssign_self (ha : a.Wf) {mem : Bool} (hpos : a.bits_ ≠ 0) : (a.addAssign mem none).2 ≠ none := by
  have hsmall := ha.small
  unfold addAssign
  rw [Option.getD_none, if_pos (ha.hasBits hpos)]
  split
  · exact Option.some_ne_none _
  · next a' hgrow =>
    obtain ⟨hbits, -⟩ := grow_bits hgrow
    rw [Option.getD_none]
    have hover : (addLoop none a'.bits_ 0 a.bits_ a').2 ≠ none := addLoop_overrun (by omega) (by omega)
    split
    · next heq =>
      rw [heq] at hover
      exact absurd rfl hover
    · exact Option.some_ne_none _

theorem addAssign_other (ha : a.Wf) (hb : b.Wf) {mem : Bool} (hpos : b.bits_ ≠ 0)
    (hlen : a.bits_ + b.bits_ < 2 ^ 31) (hroom : mem = true ∨ bitBytes (a.bits_ + b.bits_) ≤ a.size) :
    ∃ a', a.addAssign mem (some b) = (a', none) ∧ a'.Wf ∧ a'.bits_ = a.bits_ + b.bits_ ∧
      ∀ k < a.bits_ + b.bits_, a'.bit k = if k < a.bits_ then a.bit k else b.bit (k - a.bits_) := by
  have hmod : (a.bits_ + b.bits_) % 2 ^ 64 = a.bits_ + b.bits_ := Nat.mod_eq_of_lt (by omega)
  obtain ⟨a₁, hgrow, hkeep⟩ := grow_ok ha hlen hroom
  obtain ⟨hbits, -⟩ := grow_bits hgrow
  have hwf : a₁.Wf := ha.grow (by omega) (by omega) hgrow
  have hfrom : 0 + b.bits_ ≤ b.bits_ := by omega
  have hto : a.bits_ + b.bits_ ≤ a₁.bits_ := by omega
  obtain ⟨a₂, hloop, hwf₂, hbits₂, hbit⟩ := addLoop_eq hb hwf hfrom hto
  refine ⟨a₂.trimBits, ?_, wf_trimBits hwf₂.small hwf₂.enough, by rw [trimBits_bits, hbits₂, hbits], fun k hk => ?_⟩
  · unfold addAssign
    rw [Option.getD_some, if_pos (hb.hasBits hpos), hmod, hgrow]
    dsimp only [Option.getD_some]
    rw [hloop]
  · rw [trimBits_bit hwf₂ (by omega), hbit]
    by_cases hlt : k < a.bits_
    · rw [if_neg (by omega), if_pos hlt, hkeep k hlt]
    · rw [if_pos (by omega), if_neg hlt, Nat.zero_add]

/-- `a'` is `a` with `b` behind it. -/
structure Concat (a b a' : Bitset) : Prop where
  bits_eq : a'.bits_ = a.bits_ + b.bits_
  bit_eq : ∀ k < a.bits_ + b.bits_, a'.getBit k = .ok (if k < a.bits_ then a.bit k else b.bit (k - a.bits_))

/-- With no bits behind it an object is as it was. -/
theorem Concat.nil (ha : a.Wf) (hb : b.bits_ = 0) : Concat a b a := by
  refine ⟨by rw [hb, Nat.add_zero], fun k hk => ?_⟩
  rw [hb, Nat.add_zero] at hk
  rw [getBit_eq ha hk, if_pos hk]

section Store

variable {ν : Type*} [DecidableEq ν] {s : World ν} {x y : ν}

/-- The operand is the object itself or another one. -/
theorem operand_cases (hx : s x = some a) (hy : s y = some b) :
    x = y ∧ s.operand x y = some none ∧ a = b ∨ x ≠ y ∧ s.operand x y = some (some b) := by
  unfold World.operand
  by_cases hxy : x = y
  · subst hxy
    exact Or.inl ⟨rfl, if_pos rfl, Option.some.inj (hx.symm.trans hy)⟩
  · exact Or.inr ⟨hxy, by rw [if_neg hxy, hy, Option.map_some]⟩

/-- A call of `+=` that throws nothing writes one object. -/
theorem call_addAssign_iff {mem : Bool} (hx : s x = some a) {P : Bitset → Prop} :
    (∃ s' a', call mem s (.addAssign x y) = some (s', []) ∧ s' x = some a' ∧ P a' ∧ ∀ z ≠ x, s' z = s z) ↔
      ∃ o a', s.operand x y = some o ∧ a.addAssign mem o = (a', none) ∧ P a' := by
  constructor
  · rintro ⟨s', a', hs, hx', hP, -⟩
    obtain ⟨c, o, hc, ho, -, hw⟩ := assignment_cases hs
    obtain rfl := Option.some.inj (hx.symm.trans hc)
    obtain ⟨rfl, hnil⟩ := Prod.mk.inj hw
    rw [Function.update_self, Option.some.injEq] at hx'
    exact ⟨o, a', ho, Prod.ext hx' (Option.toList_eq_nil_iff.mp hnil), hP⟩
  · rintro ⟨o, a', ho, hadd, hP⟩
    refine ⟨Function.update s x (some a'), a', ?_, Function.update_self _ _ _, hP, fun z hz => ?_⟩
    · simp only [call, World.assignment, hx, ho, Option.bind_some, Option.map_some, World.write, hadd,
        Option.toList_none]
    · exact Function.update_of_ne hz _ _

/-- **Concatenation.**  Of two objects with at most `INT_MAX` bits together, `+=` puts the second one behind the first
and leaves everything else alone, unless it is an object that adds itself, or the memory is short. -/
theorem concat_iff {mem : Bool} (hx : s x = some a) (hy : s y = some b) (ha : a.Wf) (hb : b.Wf)
    (hlen : (a.bits_ + b.bits_ : ℤ) ≤ intMax) :
    (∃ s' a', call mem s (.addAssign x y) = some (s', []) ∧ s' x = some a' ∧ Concat a b a' ∧ ∀ z ≠ x, s' z = s z) ↔
      (x ≠ y ∨ a.bits_ = 0) ∧ (mem = true ∨ b.bits_ = 0 ∨ bitBytes (a.bits_ + b.bits_) ≤ bitBytes a.bits_) := by
  have hlen' : a.bits_ + b.bits_ < 2 ^ 31 := by
    unfold intMax at hlen
    omega
  rw [call_addAssign_iff hx]
  rcases operand_cases hx hy with ⟨rfl, ho, rfl⟩ | ⟨hxy, ho⟩
  · -- the object itself
    rw [ho]
    by_cases hzero : a.bits_ = 0
    · exact iff_of_true ⟨none, a, rfl, addAssign_none a hzero, Concat.nil ha hzero⟩
        ⟨Or.inr hzero, Or.inr (Or.inl hzero)⟩
    · refine iff_of_false ?_ fun h => h.1.elim (fun hne => hne rfl) hzero
      rintro ⟨o, a', ho, hadd, -⟩
      obtain rfl := Option.some.inj ho
      exact addAssign_self ha hzero (congrArg Prod.snd hadd)
  · rw [ho]
    by_cases hzero : b.bits_ = 0
    · exact iff_of_true ⟨some b, a, rfl, addAssign_none a hzero, Concat.nil ha hzero⟩
        ⟨Or.inl hxy, Or.inr (Or.inl hzero)⟩
    · by_cases hroom : mem = true ∨ bitBytes (a.bits_ + b.bits_) ≤ a.size
      · obtain ⟨a', hadd, hwf, hbits, hbit⟩ := addAssign_other ha hb hzero hlen' hroom
        refine iff_of_true ⟨some b, a', rfl, hadd, hbits, fun k hk => ?_⟩ ⟨Or.inl hxy, hroom.imp_right Or.inr⟩
        rw [getBit_eq hwf (by omega), hbit k hk]
      · obtain ⟨hmem, hlarge⟩ := not_or.mp hroom
        refine iff_of_false ?_ fun h => hroom (h.2.imp_right (Or.resolve_left · hzero))
        rintro ⟨o, a', ho, hadd, -⟩
        obtain rfl := Option.some.inj ho
        rw [Bool.eq_false_iff.mpr hmem] at hadd
        have hthrow := addAssign_noRoom (o := some b) hb hzero hlen' hlarge
        rw [hadd] at hthrow
        cases hthrow

/-- Twelve bits and two. -/
theorem concat_iff_fourteen :
    (∃ s' a', call true (fun z : Bool => if z then some ⟨12, [0xa5, 0x50]⟩ else some ⟨2, [0x80]⟩)
        (.addAssign true false) = some (s', []) ∧ s' true = some a' ∧ Concat ⟨12, [0xa5, 0x50]⟩ ⟨2, [0x80]⟩ a' ∧
        ∀ z ≠ true, s' z = if z then some ⟨12, [0xa5, 0x50]⟩ else some ⟨2, [0x80]⟩) ↔
      (true ≠ false ∨ (12 : ℕ) = 0) ∧ (true = true ∨ (2 : ℕ) = 0 ∨ bitBytes (12 + 2) ≤ bitBytes 12) :=
  concat_iff (a := ⟨12, [0xa5, 0x50]⟩) (b := ⟨2, [0x80]⟩) rfl rfl ⟨by decide, by decide, by decide⟩
    ⟨by decide, by decide, by decide⟩ (by decide)

/-- One bit that is to be added to itself. -/
theorem concat_throws : ¬ ∀ (s : World Bool) (x y : Bool) (a b : Bitset), s x = some a → s y = some b → a.Wf → b.Wf →
    (a.bits_ + b.bits_ : ℤ) ≤ intMax → ∃ s' a', call true s (.addAssign x y) = some (s', []) ∧ s' x = some a' ∧
      Concat a b a' ∧ ∀ z ≠ x, s' z = s z := by
  intro hall
  have hwf : Wf ⟨1, [0x80]⟩ := ⟨by decide, by decide, by decide⟩
  obtain ⟨s', a', hs, -⟩ := hall (fun _ => some ⟨1, [0x80]⟩) true true ⟨1, [0x80]⟩ ⟨1, [0x80]⟩ rfl rfl hwf hwf
    (by decide)
  have hout : (call true (fun _ => some ⟨1, [0x80]⟩) (.addAssign true true)).map Prod.snd = some [] := by rw [hs]; rfl
  exact absurd hout (by decide)

end Store

/-! ## `&=`, `|=` and `^=` -/

/-- What the mixed loop makes of the first `n` bits. -/
theorem combineLoop_eq {f : Bool → BitByte → BitByte → BitByte} {g : BitByte → BitByte → BitByte}
    {op : Bool → Bool → Bool} (hf : ∀ val, OneBit (f val)) (hop : ∀ val, ToBit (f val) (op · val))
    (hg : ∀ x y : BitByte, ∀ k < 8, (g x y).getMsbD k = op (x.getMsbD k) (y.getMsbD k)) {n : ℕ} (ha : a.Wf)
    (hb : b.Wf) (hna : n ≤ a.bits_) (hnb : n ≤ b.bits_) :
    ∃ a', combineLoop f g b n a = (a', none) ∧ ∀ k, a'.bit k = if k < n then op (a.bit k) (b.bit k) else a.bit k := by
  fun_induction combineLoop f g b n a with
  | case1 a => exact ⟨a, rfl, fun k => by simp⟩
  | case2 bit a hmod e hget =>
    rw [getBit_eq hb (by omega)] at hget
    cases hget
  | case3 bit a hmod val hget e hset =>
    obtain ⟨a', hset', -⟩ := onBit_eq ha (hf val) (hop val) (show bit < a.bits_ by omega)
    rw [hset'] at hset
    cases hset
  | case4 bit a hmod val hget a' hset ih =>
    obtain ⟨a₁, hset', hwf, hbits, hbit⟩ := onBit_eq ha (hf val) (hop val) (show bit < a.bits_ by omega)
    rw [hset'] at hset
    obtain rfl := Except.ok.inj hset
    rw [getBit_eq hb (by omega)] at hget
    obtain rfl := Except.ok.inj hget
    obtain ⟨a'', hloop, hrest⟩ := ih hwf (by omega) (by omega)
    refine ⟨a'', hloop, fun k => ?_⟩
    rw [hrest, hbit]
    by_cases hk : k = bit
    · subst hk
      simp
    · rw [if_neg hk]
      by_cases hlt : k < bit
      · rw [if_pos hlt, if_pos (by omega)]
      · rw [if_neg hlt, if_neg (by omega)]
  | case5 a n j i hi hj hmod ih =>
    have ha8 : a.bitBuffer ((n + 8) / 8 - 1) = .ok ((n + 8) / 8 - 1) := bitBuffer_eq (by omega)
    have hb8 : b.bitBuffer ((n + 8) / 8 - 1) = .ok ((n + 8) / 8 - 1) := bitBuffer_eq (by omega)
    obtain rfl := Except.ok.inj (hi.symm.trans ha8)
    obtain rfl := Except.ok.inj (hj.symm.trans hb8)
    have hlen := bitBytes_le_iff.mp ha.enough
    have hbyte := fun k => bit_modifyByte a ((n + 8) / 8 - 1) (g · (b.byteAt ((n + 8) / 8 - 1 : ℕ))) k (by omega)
    obtain ⟨a', hloop, hrest⟩ := ih (ha.modifyByte (by omega) _) (by rw [modifyByte_bits]; omega) (by omega)
    refine ⟨a', hloop, fun k => ?_⟩
    rw [hrest, hbyte]
    by_cases hk : k / 8 = (n + 8) / 8 - 1
    · rw [if_neg (by omega), if_pos hk, if_pos (by omega), hg _ _ _ (Nat.mod_lt _ (by norm_num)), byteAt_natCast,
        byteAt_natCast, ← hk]
      rfl
    · rw [if_neg hk]
      by_cases hlt : k < n
      · rw [if_pos hlt, if_pos (by omega)]
      · rw [if_neg hlt, if_neg (by omega)]
  | case6 a n e he hmod =>
    rw [bitBuffer_eq (by omega)] at he
    cases he
  | case7 a n e he _ hmod =>
    rw [bitBuffer_eq (by omega)] at he
    cases he
  | case8 bit a hmod hlt => exact absurd (show bit = bit - 7 + 7 by omega) (hlt (bit - 7))

/-- The operators that are made of a mixed loop. -/
inductive Combine where
  | and
  | or
  | xor
deriving DecidableEq, Repr

/-- One of them. -/
def Combine.run : Combine → Bitset → Option Bitset → Bitset × Option BitsetException
  | .and => andAssign
  | .or => orAssign
  | .xor => xorAssign

/-- What it is for two bits. -/
def Combine.bool : Combine → Bool → Bool → Bool
  | .and => Bool.and
  | .or => Bool.or
  | .xor => Bool.xor

/-- What they do by way of the proxy, and to a byte. -/
def Combine.proxy : Combine → Bool → BitByte → BitByte → BitByte
  | .and => Bitraits.andAssign
  | .or => Bitraits.orAssign
  | .xor => Bitraits.xorAssign

def Combine.byte : Combine → BitByte → BitByte → BitByte
  | .and => (· &&& ·)
  | .or => (· ||| ·)
  | .xor => (· ^^^ ·)

theorem Combine.run_eq (op : Combine) : op.run = combine op.proxy op.byte := by
  cases op <;> rfl

theorem Combine.oneBit (op : Combine) (val : Bool) : OneBit (op.proxy val) := by
  cases op with
  | and => exact oneBit_andAssign val
  | or => exact oneBit_orAssign val
  | xor => exact oneBit_xorAssign val

theorem Combine.toBit (op : Combine) (val : Bool) : ToBit (op.proxy val) (op.bool · val) := by
  cases op with
  | and => exact toBit_andAssign val
  | or => exact toBit_orAssign val
  | xor => exact toBit_xorAssign val

theorem Combine.getMsbD_byte (op : Combine) (x y : BitByte) (k : ℕ) :
    (op.byte x y).getMsbD k = op.bool (x.getMsbD k) (y.getMsbD k) := by
  cases op with
  | and => exact BitVec.getMsbD_and
  | or => exact BitVec.getMsbD_or
  | xor => exact BitVec.getMsbD_xor

theorem combine_eq (op : Combine) (ha : a.Wf) (hb : b.Wf) :
    ∃ a', op.run a (some b) = (a', none) ∧ a'.bits_ = a.bits_ ∧
      ∀ k, a'.bit k = if k < min a.bits_ b.bits_ then op.bool (a.bit k) (b.bit k) else a.bit k := by
  have hsmall := ha.small
  obtain ⟨a', hloop, hbit⟩ := combineLoop_eq op.oneBit op.toBit (fun x y k _ => op.getMsbD_byte x y k) ha hb
    (min_le_left a.bits_ b.bits_) (min_le_right a.bits_ b.bits_)
  have hbits := combineLoop_bits op.proxy op.byte b (min a.bits_ b.bits_) a
  rw [hloop] at hbits
  refine ⟨a', ?_, hbits, hbit⟩
  rw [op.run_eq]
  simp only [combine]
  rw [toInt_eq_iff.mpr (by omega), if_pos (Int.natCast_nonneg _), Int.toNat_natCast, hloop]

/-! ## `==` -/

/-- `memcmp`, of `len` bytes. -/
def memcmp : ℕ → List BitByte → List BitByte → ℤ
  | 0, _, _ => 0
  | len + 1, x, y =>
    if x.headD 0 = y.headD 0 then memcmp len x.tail y.tail else if x.headD 0 < y.headD 0 then -1 else 1

/-- `Bitset::compare_to`. -/
def compareTo (b : Bitset) : Option Bitset → ℤ
  | none => 0
  | some bitset =>
    if b.bits_ = bitset.bits_ ∧ b.size ≠ 0 then memcmp b.size b.bit_buffer_ bitset.bit_buffer_
    else toInt (toSize (b.bits_ - bitset.bits_))

/-- The loop of `operator ==`: bit by bit down to a multiple of eight, and then all bytes at once. -/
def eqLoop (b bitset : Bitset) : ℕ → Except BitsetException Bool
  | 0 => .ok true
  | bit + 1 =>
    if (bit + 1) % 8 ≠ 0 then
      match b.getBit bit, bitset.getBit bit with
      | .ok val, .ok val' => if val ≠ val' then .ok false else eqLoop b bitset bit
      | .error e, _ => .error e
      | _, .error e => .error e
    else .ok (memcmp ((bit + 1) / 8) b.bit_buffer_ bitset.bit_buffer_ = 0)

/-- `Bitset::operator ==`. -/
def eq (b : Bitset) (o : Option Bitset) : Except BitsetException Bool :=
  if b.compareTo o ≠ 0 then
    let bitset := o.getD b
    let bit := toInt (min b.bits_ bitset.bits_)
    if 0 ≤ bit then eqLoop b bitset bit.toNat
    else if bit % 8 ≠ 0 then .error .indexOutOfRange else .ok true
  else .ok true

theorem memcmp_eq_zero {n : ℕ} {x y : List BitByte} : memcmp n x y = 0 ↔ ∀ i < n, x.getD i 0 = y.getD i 0 := by
  induction n generalizing x y with
  | zero => simp [memcmp]
  | succ n ih =>
    have hhead : ∀ z : List BitByte, z.getD 0 0 = z.headD 0 := by
      intro z
      cases z <;> rfl
    have htail : ∀ (z : List BitByte) (i : ℕ), z.getD (i + 1) 0 = z.tail.getD i 0 := by
      intro z i
      cases z <;> rfl
    rw [memcmp]
    constructor
    · intro h i hi
      split_ifs at h with hfirst
      · cases i with
        | zero => rw [hhead, hhead, hfirst]
        | succ i =>
          rw [htail, htail]
          exact ih.mp h i (by omega)
      · omega
    · intro h
      have hfirst := h 0 (by omega)
      rw [hhead, hhead] at hfirst
      rw [if_pos hfirst, ih]
      intro i hi
      rw [← htail, ← htail]
      exact h (i + 1) (by omega)

/-- Bytes are equal where their bits are. -/
theorem bytes_eq_iff {n : ℕ} : memcmp n a.bit_buffer_ b.bit_buffer_ = 0 ↔ ∀ k < 8 * n, a.bit k = b.bit k := by
  rw [memcmp_eq_zero]
  constructor
  · intro h k hk
    unfold bit
    rw [h (k / 8) (by omega)]
  · intro h i hi
    refine BitVec.eq_of_getMsbD_eq fun k hk => ?_
    have hbit := h (8 * i + k) (by omega)
    unfold bit at hbit
    rwa [show (8 * i + k) / 8 = i by omega, show (8 * i + k) % 8 = k by omega] at hbit

theorem eqLoop_eq (ha : a.Wf) (hb : b.Wf) {n : ℕ} (hna : n ≤ a.bits_) (hnb : n ≤ b.bits_) :
    eqLoop a b n = .ok (decide (∀ k < n, a.bit k = b.bit k)) := by
  induction n with
  | zero => simp [eqLoop]
  | succ n ih =>
    rw [eqLoop]
    split
    · rw [getBit_eq ha (by omega), getBit_eq hb (by omega)]
      dsimp only
      split
      · next hne =>
        congr 1
        exact (decide_eq_false fun h => hne (h n (by omega))).symm
      · next heq =>
        rw [ih (by omega) (by omega)]
        congr 1
        rw [decide_eq_decide]
        constructor
        · intro h k hk
          rcases Nat.lt_succ_iff_lt_or_eq.mp hk with hlt | rfl
          · exact h k hlt
          · exact not_not.mp heq
        · exact fun h k hk => h k (by omega)
    · next hmod =>
      congr 1
      rw [decide_eq_decide, bytes_eq_iff, show 8 * ((n + 1) / 8) = n + 1 by omega]

/-- The short circuit is taken where nothing differs. -/
theorem eq_eq (ha : a.Wf) (hb : b.Wf) :
    a.eq (some b) = .ok (decide (∀ k < min a.bits_ b.bits_, a.bit k = b.bit k)) := by
  have hsmall := ha.small
  have hmin : toInt (min a.bits_ b.bits_) = (min a.bits_ b.bits_ : ℕ) := toInt_eq_iff.mpr (by omega)
  unfold eq
  split
  · dsimp only [Option.getD_some]
    rw [hmin, if_pos (Int.natCast_nonneg _), Int.toNat_natCast]
    exact eqLoop_eq ha hb (min_le_left _ _) (min_le_right _ _)
  · next hzero =>
    refine congrArg Except.ok (decide_eq_true fun k hk => ?_).symm
    have hcompare := not_not.mp hzero
    unfold compareTo at hcompare
    dsimp only at hcompare
    split at hcompare
    · have hle := bitBytes_le_iff.mp (le_refl (bitBytes a.bits_))
      exact bytes_eq_iff.mp hcompare k (by unfold size; omega)
    · next hlen =>
      -- of different lengths the difference is an `int` other than zero
      have hlen' : a.bits_ = b.bits_ := by
        have hsmall' := hb.small
        unfold toInt toSize Int.bmod at hcompare
        dsimp only at hcompare
        split at hcompare <;> omega
      have hnone := bitBytes_eq_zero (not_not.mp fun h => hlen ⟨hlen', h⟩)
      omega

/-- **The mixed loops.**  On two good objects `&=`, `|=` and `^=` throw nothing and do to every bit that both have
what they do to two bits, and nothing else; and `==` says whether the bits that both have are the same. -/
theorem fast_paths (ha : a.Wf) (hb : b.Wf) :
    (∀ op : Combine, ∃ a', op.run a (some b) = (a', none) ∧ a'.bits_ = a.bits_ ∧
      ∀ k, a'.bit k = if k < min a.bits_ b.bits_ then op.bool (a.bit k) (b.bit k) else a.bit k) ∧
    a.eq (some b) = .ok (decide (∀ k < min a.bits_ b.bits_, a.bit k = b.bit k)) :=
  ⟨fun op => combine_eq op ha hb, eq_eq ha hb⟩

/-- Twelve bits and nine: eight go as a byte. -/
theorem fast_paths_twelve :
    (∀ op : Combine, ∃ a', op.run ⟨12, [0xa5, 0x50]⟩ (some ⟨9, [0x3c, 0x80]⟩) = (a', none) ∧ a'.bits_ = 12 ∧
      ∀ k, a'.bit k = if k < min 12 9 then
        op.bool (bit ⟨12, [0xa5, 0x50]⟩ k) (bit ⟨9, [0x3c, 0x80]⟩ k) else bit ⟨12, [0xa5, 0x50]⟩ k) ∧
    eq ⟨12, [0xa5, 0x50]⟩ (some ⟨9, [0x3c, 0x80]⟩) =
        .ok (decide (∀ k < (min 12 9 : ℕ), bit ⟨12, [0xa5, 0x50]⟩ k = bit ⟨9, [0x3c, 0x80]⟩ k)) :=
  fast_paths (a := ⟨12, [0xa5, 0x50]⟩) (b := ⟨9, [0x3c, 0x80]⟩) ⟨by decide, by decide, by decide⟩
    ⟨by decide, by decide, by decide⟩

/-! ## Objects as their own operands -/

/-- The same bits. -/
def Same (b c : Bitset) : Prop := b.bits_ = c.bits_ ∧ ∀ k < b.bits_, b.bit k = c.bit k

instance (b c : Bitset) : Decidable (Same b c) := inferInstanceAs (Decidable (_ ∧ _))

/-- The operators that test whether their operand is the object itself. -/
inductive Assignment where
  | combine (op : Combine)
  | assign
deriving DecidableEq, Repr

/-- One of them; `mem` is about the buffer of `=`. -/
def Assignment.run (mem : Bool) : Assignment → Bitset → Option Bitset → Bitset × Option BitsetException
  | .combine op => op.run
  | .assign => Bitset.assign mem

theorem run_self (op : Assignment) (mem : Bool) (b : Bitset) : op.run mem b none = (b, none) := by
  rcases op with op | -
  · cases op <;> rfl
  · rfl

/-- **Aliases.**  An object as its own operand is left as it is with a copy in its place, and without an exception,
unless `^=` finds a bit that is set, or the copy cannot be assigned for want of memory. -/
theorem alias_iff (op : Assignment) (mem : Bool) (ha : a.Wf) (hc : c.Wf) (hac : Same a c) :
    ((op.run mem a none).2 = (op.run mem a (some c)).2 ∧ Same (op.run mem a none).1 (op.run mem a (some c)).1) ↔
      (op = .combine .xor → ∀ k < a.bits_, a.bit k = false) ∧ (op = .assign → mem = true ∨ a.bits_ = 0) := by
  obtain ⟨hbits, hsame⟩ := hac
  rw [run_self]
  cases op with
  | combine op =>
    obtain ⟨a', hrun, hlen, hbit⟩ := combine_eq op ha hc
    rw [Assignment.run, hrun]
    have hresult : Same a a' ↔ ∀ k < a.bits_, a.bit k = op.bool (a.bit k) (a.bit k) := by
      unfold Same
      rw [hlen]
      refine (and_iff_right rfl).trans (forall₂_congr fun k hk => ?_)
      rw [hbit, if_pos (by omega), ← hsame k hk]
    simp only [true_and, hresult, reduceCtorEq, false_imp_iff, and_true]
    cases op with
    | and => simp [Combine.bool]
    | or => simp [Combine.bool]
    | xor => simp [Combine.bool]
  | assign =>
    simp only [reduceCtorEq, false_imp_iff, true_and, true_imp_iff, Assignment.run, Bitset.assign]
    by_cases hzero : a.bits_ = 0
    · have hsize : ¬ c.size ≠ 0 := by
        rw [size, ← hbits, hzero]
        decide
      rw [if_neg hsize]
      exact ⟨fun _ => Or.inr hzero, fun _ => ⟨rfl, hbits, fun k hk => absurd hk (by omega)⟩⟩
    · have hsize : c.size ≠ 0 := fun h => hzero (hbits.trans (bitBytes_eq_zero h))
      rw [if_pos hsize]
      cases mem with
      | true =>
        refine ⟨fun _ => Or.inl rfl, fun _ => ⟨rfl, hbits, fun k hk => ?_⟩⟩
        have hle := bitBytes_le_iff.mp (le_refl (bitBytes c.bits_))
        show a.bit k = bit ⟨c.bits_, memcpy (filled false c.size) c.bit_buffer_ c.size⟩ k
        rw [bit_memcpy (n := c.size) hc.enough, if_pos (by unfold size; omega)]
        exact hsame k hk
      | false => simp [hzero]

/-- Twelve bits, of which four are set: only `^=`, and `=` without memory, tell the object from a copy. -/
theorem alias_iff_twelve : (List.range 12).filter (bit ⟨12, [0x2c, 0x10]⟩) = [2, 4, 5, 11] ∧
    ∀ (op : Assignment) (mem : Bool),
      ((op.run mem ⟨12, [0x2c, 0x10]⟩ none).2 = (op.run mem ⟨12, [0x2c, 0x10]⟩ (some ⟨12, [0x2c, 0x10]⟩)).2 ∧
        Same (op.run mem ⟨12, [0x2c, 0x10]⟩ none).1 (op.run mem ⟨12, [0x2c, 0x10]⟩ (some ⟨12, [0x2c, 0x10]⟩)).1) ↔
      op ≠ .combine .xor ∧ (op = .assign → mem = true) := by
  refine ⟨by decide, fun op mem => ?_⟩
  have hwf : Wf ⟨12, [0x2c, 0x10]⟩ := ⟨by decide, by decide, by decide⟩
  refine (alias_iff op mem hwf hwf ⟨rfl, fun _ _ => rfl⟩).trans (and_congr ?_ (by simp))
  exact ⟨fun h hop => absurd (h hop 2 (by decide)) (by decide), fun h hop => absurd hop h⟩

/-- With `^=` it is kept where a copy would clear it. -/
theorem alias_differs : ¬ ∀ (op : Assignment) (a c : Bitset), a.Wf → c.Wf → Same a c →
    Same (op.run true a none).1 (op.run true a (some c)).1 := by
  intro hall
  have hsame := hall (.combine .xor) ⟨1, [0x80]⟩ ⟨1, [0x80]⟩ ⟨by decide, by decide, by decide⟩
    ⟨by decide, by decide, by decide⟩ ⟨rfl, fun _ _ => rfl⟩
  exact absurd hsame (by decide)

end Lasagne.Daf.Bitset
