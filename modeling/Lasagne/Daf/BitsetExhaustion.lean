import Lasagne.Daf.BitsetOperators

/-!
# Lasagne.Daf.BitsetExhaustion — what `DAF::Bitset` leaves behind where the memory is short

Three members get a buffer for an object that exists.  `+=` gets it before it changes anything, and `reset` has set the
length to zero by then; but `=` has set it to that of its operand.

* `exhaustion_iff` : which of them leave an object whose buffer has room for its bits.
-/

namespace Lasagne.Daf.Bitset

variable {b : Bitset} {mem : Bool} {o : Option Bitset}

/-- The buffer has room for the bits, if there are any. -/
def Roomy (b : Bitset) : Prop := 0 < b.bits_ → bitBytes b.bits_ ≤ b.bit_buffer_.length

instance (b : Bitset) : Decidable b.Roomy := inferInstanceAs (Decidable (_ → _))

/-- A sound object, of which every byte is there that a member goes to. -/
structure Sound (b : Bitset) : Prop where
  roomy : b.Roomy
  inside : ∀ i < b.size, i < b.bit_buffer_.length

theorem Roomy.sound (h : b.Roomy) : b.Sound where
  roomy := h
  inside i hi := by
    refine hi.trans_le (h ?_)
    by_contra hzero
    rw [size, Nat.eq_zero_of_not_pos hzero] at hi
    exact Nat.not_lt_zero i hi

/-- The members that allocate. -/
inductive Allocating where
  | assign (o : Option Bitset)
  | addAssign (o : Option Bitset)
  | reset (bits : ℕ) (val : Bool)
deriving DecidableEq, Repr

/-- One of them. -/
def Allocating.run (mem : Bool) (b : Bitset) : Allocating → Bitset × Option BitsetException
  | .assign o => b.assign mem o
  | .addAssign o => b.addAssign mem o
  | .reset bits val => b.reset mem bits val

theorem getBit_error {i : ℕ} {e : BitsetException} (h : b.getBit i = .error e) : e = .indexOutOfRange := by
  unfold getBit at h
  split_ifs at h
  exact (Except.error.inj h).symm

theorem onBit_error {i : ℕ} {f : BitByte → BitByte → BitByte} {e : BitsetException} (h : b.onBit i f = .error e) :
    e = .indexOutOfRange := by
  unfold onBit at h
  split_ifs at h
  exact (Except.error.inj h).symm

theorem addLoop_not_exhausted (o : Option Bitset) (n i pos : ℕ) (b : Bitset) :
    (addLoop o n i pos b).2 ≠ some .resourceExhaustion := by
  induction n generalizing i pos b with
  | zero => exact (Option.some_ne_none _).symm
  | succ n ih =>
    rw [addLoop]
    split
    · next e heq =>
      show some e ≠ some .resourceExhaustion
      rw [getBit_error heq]
      decide
    · split
      · next e heq =>
        show some e ≠ some .resourceExhaustion
        rw [onBit_error heq]
        decide
      · exact ih _ _ _

/-- `+=` changes nothing before it has its buffer. -/
theorem addAssign_exhausted (h : (b.addAssign mem o).2 = some .resourceExhaustion) : (b.addAssign mem o).1 = b := by
  unfold addAssign at h ⊢
  split
  · next hhas =>
    rw [if_pos hhas] at h
    split
    · rfl
    · next b' hgrow =>
      rw [hgrow] at h
      dsimp only at h
      have hloop := addLoop_not_exhausted o (o.getD b').bits_ 0 b.bits_ b'
      split at h
      · cases h
      · next heq =>
        rw [heq] at hloop
        exact absurd h hloop
  · rfl

/-- `reset` leaves no bits. -/
theorem reset_exhausted {bits : ℕ} {val : Bool} (h : (b.reset mem bits val).2 = some .resourceExhaustion) :
    (b.reset mem bits val).1.bits_ = 0 := by
  unfold reset at h ⊢
  split_ifs at h ⊢
  · rfl
  · cases h

/-- `=` leaves the length of its operand, and no buffer. -/
theorem assign_exhausted {bitset : Bitset} (h : 0 < bitset.bits_) :
    b.assign false (some bitset) = (⟨bitset.bits_, []⟩, some .resourceExhaustion) := by
  have hsize : bitset.size ≠ 0 := fun hzero => absurd (bitBytes_eq_zero hzero) h.ne'
  rw [assign, if_pos hsize]
  rfl

/-- **Exhaustion.**  An object whose buffer had room for its bits has it still after a `ResourceExhaustionException`,
exactly if it was not thrown by `=`, of another object that has bits. -/
theorem exhaustion_iff (hb : b.Roomy) (op : Allocating) (mem : Bool) :
    ((op.run mem b).2 = some .resourceExhaustion → (op.run mem b).1.Sound) ↔
      ∀ bitset, op = .assign (some bitset) → 0 < bitset.bits_ → mem = true := by
  cases op with
  | assign o =>
    constructor
    · rintro hsound bitset hop hpos
      obtain rfl := Allocating.assign.inj hop
      by_contra hmem
      rw [Bool.eq_false_iff.mpr hmem, Allocating.run, assign_exhausted hpos] at hsound
      have hle : bitBytes bitset.bits_ ≤ 0 := (hsound rfl).roomy hpos
      exact absurd (bitBytes_eq_zero (Nat.le_zero.mp hle)) hpos.ne'
    · intro hmem hthrow
      cases o with
      | none => cases hthrow
      | some bitset =>
        rw [Allocating.run, assign] at hthrow
        by_cases hpos : 0 < bitset.bits_
        · have hsize : bitset.size ≠ 0 := fun hzero => absurd (bitBytes_eq_zero hzero) hpos.ne'
          rw [if_pos hsize, if_pos (hmem bitset rfl hpos)] at hthrow
          cases hthrow
        · have hsize : bitset.size = 0 := by
            rw [size, Nat.eq_zero_of_not_pos hpos]
            rfl
          rw [if_neg (not_not.mpr hsize)] at hthrow
          cases hthrow
  | addAssign o =>
    refine iff_of_true (fun hthrow => ?_) fun _ hop => by cases hop
    rw [Allocating.run] at hthrow ⊢
    rw [addAssign_exhausted hthrow]
    exact hb.sound
  | reset bits val =>
    refine iff_of_true (fun hthrow => ?_) fun _ hop => by cases hop
    rw [Allocating.run] at hthrow ⊢
    have hroomy : Roomy (b.reset mem bits val).1 := fun hpos => absurd (reset_exhausted hthrow) hpos.ne'
    exact hroomy.sound

/-- An object that is reset. -/
theorem exhaustion_iff_reset :
    (((Allocating.reset 12 true).run false ⟨1, [0x80]⟩).2 = some .resourceExhaustion →
        ((Allocating.reset 12 true).run false ⟨1, [0x80]⟩).1.Sound) ↔
      ∀ bitset, Allocating.reset 12 true = .assign (some bitset) → 0 < bitset.bits_ → false = true :=
  exhaustion_iff (b := ⟨1, [0x80]⟩) (by decide) (.reset 12 true) false

/-- One bit is assigned to an empty object, which has a bit then and no byte. -/
theorem exhaustion_assign : ¬ ∀ (b : Bitset) (op : Allocating) (mem : Bool), b.Roomy →
    (op.run mem b).2 = some .resourceExhaustion → (op.run mem b).1.Sound := by
  intro hall
  have hsound : Sound ⟨1, []⟩ := hall ⟨0, []⟩ (.assign (some ⟨1, [0x80]⟩)) false (by decide) rfl
  exact absurd hsound.roomy (by decide)

end Lasagne.Daf.Bitset
