import Lasagne.Daf.BitsetPadding

/-!
# Lasagne.Daf.BitsetLength — how long a `DAF::Bitset` gets

The constructor, `reset` and `+=` test a length of 64 bits after they have made an `int` of it, so lengths are tested
modulo `2 ^ 32`.  A sum of two lengths that passed is below that, and is tested rightly.

* `call`: a call on the objects, with an allocation that succeeds or not.
* `length_limit`: the limit holds where constructors and `reset`s are given lengths that the test sees as they are.
-/

namespace Lasagne.Daf.Bitset

open Lasagne.Trans

/-! ## What the test sees -/

theorem fits_iff {bits : ℕ} : fits bits ↔ bits % 2 ^ 32 < 2 ^ 31 := by
  unfold fits aceRange intMax toInt Int.bmod
  dsimp only
  split <;> omega

/-- Where the test is right about a length. -/
def Seen (bits : ℕ) : Prop := (bits : ℤ) ≤ intMax ∨ 2 ^ 31 ≤ bits % 2 ^ 32

instance (bits : ℕ) : Decidable (Seen bits) := inferInstanceAs (Decidable (_ ∨ _))

theorem Seen.le {bits : ℕ} (h : Seen bits) (hfits : fits bits) : (bits : ℤ) ≤ intMax := by
  have hmod := fits_iff.mp hfits
  unfold Seen at h
  omega

theorem seen_iff {bits : ℕ} : Seen bits ↔ (intMax < bits → ¬ fits bits) := by
  rw [fits_iff]
  unfold Seen
  omega

/-! ## Lengths, member by member -/

variable {b b' : Bitset} {mem : Bool} {f : BitByte → BitByte → BitByte}

theorem onBit_bits {j : ℕ} (h : b.onBit j f = .ok b') : b'.bits_ = b.bits_ := by
  unfold onBit at h
  split at h
  · obtain rfl := Except.ok.inj h
    exact modifyByte_bits _ _ _
  · cases h

theorem addLoop_bits (o : Option Bitset) (n i pos : ℕ) (b : Bitset) : (addLoop o n i pos b).1.bits_ = b.bits_ := by
  induction n generalizing i pos b with
  | zero => rfl
  | succ n ih =>
    rw [addLoop]
    split
    · rfl
    · split
      · rfl
      · next hset => exact (ih _ _ _).trans (onBit_bits hset)

theorem eraseLoop_bits (n pos epos : ℕ) (b : Bitset) : (eraseLoop n pos epos b).1.bits_ = b.bits_ := by
  induction n generalizing pos epos b with
  | zero => rfl
  | succ n ih =>
    rw [eraseLoop]
    split
    · rfl
    · split
      · rfl
      · next hset => exact (ih _ _ _).trans (onBit_bits hset)

theorem subitsLoop_bits {bitset : Bitset} {n i pos : ℕ} (h : subitsLoop bitset n i pos b = .ok b') :
    b'.bits_ = b.bits_ := by
  induction n generalizing i pos b with
  | zero =>
    obtain rfl := Except.ok.inj h
    rfl
  | succ n ih =>
    rw [subitsLoop] at h
    split at h
    · cases h
    · split at h
      · cases h
      · next hset => exact (ih h).trans (onBit_bits hset)

theorem combineLoop_bits (f : Bool → BitByte → BitByte → BitByte) (g : BitByte → BitByte → BitByte)
    (bitset : Bitset) (n : ℕ) (b : Bitset) : (combineLoop f g bitset n b).1.bits_ = b.bits_ := by
  fun_induction combineLoop f g bitset n b with
  | case4 b bit hmod val hget b' hset ih => exact ih.trans (onBit_bits hset)
  | case5 b n j i hi hj hmod ih => exact ih.trans (modifyByte_bits _ _ _)
  | _ => rfl

theorem combine_bits (f : Bool → BitByte → BitByte → BitByte) (g : BitByte → BitByte → BitByte) (b : Bitset)
    (o : Option Bitset) : (combine f g b o).1.bits_ = b.bits_ := by
  cases o with
  | none => rfl
  | some bitset =>
    simp only [combine]
    split
    · exact combineLoop_bits _ _ _ _ _
    · split <;> rfl

theorem copy_bits (h : b.copy mem = .ok b') : b'.bits_ = b.bits_ := by
  unfold copy at h
  split at h
  · split at h
    · obtain rfl := Except.ok.inj h
      rfl
    · cases h
  · obtain rfl := Except.ok.inj h
    rfl

theorem assign_bits (mem : Bool) (b : Bitset) (o : Option Bitset) : (b.assign mem o).1.bits_ = (o.getD b).bits_ := by
  cases o with
  | none => rfl
  | some bitset =>
    simp only [assign]
    split
    · split <;> rfl
    · rfl

theorem grow_bits {bits : ℕ} (h : b.grow mem bits = .ok b') : b'.bits_ = bits ∧ fits bits := by
  unfold grow at h
  split at h
  · next hfits =>
    refine ⟨?_, hfits⟩
    split at h
    · split at h
      · obtain rfl := Except.ok.inj h
        rfl
      · cases h
    · obtain rfl := Except.ok.inj h
      rfl
  · cases h

theorem addAssign_bits (mem : Bool) (b : Bitset) (o : Option Bitset) :
    (b.addAssign mem o).1.bits_ = b.bits_ ∨
      ((b.addAssign mem o).1.bits_ = (b.bits_ + (o.getD b).bits_) % 2 ^ 64 ∧
        fits ((b.bits_ + (o.getD b).bits_) % 2 ^ 64)) := by
  unfold addAssign
  split
  · split
    · exact Or.inl rfl
    · next b' hgrow =>
      obtain ⟨hbits, hfits⟩ := grow_bits hgrow
      have hloop := addLoop_bits o (o.getD b').bits_ 0 b.bits_ b'
      refine Or.inr ⟨?_, hfits⟩
      rw [← hbits, ← hloop]
      split
      · next heq => rw [heq, trimBits_bits]
      · next heq => rw [heq]
  · exact Or.inl rfl

theorem new_fits {bits : ℕ} {val : Bool} (h : new mem bits val = .ok b) : fits bits := by
  unfold new at h
  split at h
  · next hfits => exact hfits
  · cases h

theorem reset_bits (mem : Bool) (b : Bitset) (bits : ℕ) (val : Bool) :
    (b.reset mem bits val).1.bits_ = b.bits_ ∨ (b.reset mem bits val).1.bits_ = 0 ∨
      ((b.reset mem bits val).1.bits_ = bits ∧ fits bits) := by
  unfold reset
  split
  · next hfits =>
    split
    · split
      · refine Or.inr (Or.inr ⟨?_, hfits⟩)
        dsimp only
        split <;> simp
      · exact Or.inr (Or.inl rfl)
    · exact Or.inr (Or.inl rfl)
  · exact Or.inl rfl

theorem subits_bits {pos len : ℤ} (h : b.subits mem pos len = .ok b') : b'.bits_ ≤ b.bits_ := by
  unfold subits at h
  split at h
  · obtain ⟨bitset, hnew, hloop⟩ := exists_ok_of_bind h
    rw [subitsLoop_bits hloop, new_bits hnew]
    exact (min_le_left _ _).trans (Nat.sub_le _ _)
  · cases h

theorem erase_bits (hsmall : b.bits_ < 2 ^ 31) (pos len : ℤ) : (b.erase pos len).1.bits_ ≤ b.bits_ := by
  unfold erase
  split
  · next hin =>
    have hle := pos_add_span_le hin hsmall len
    rw [toSize_toInt (hle.trans_lt hsmall)]
    have hloop := eraseLoop_bits (b.bits_ - (pos.toNat + b.span pos len)) pos.toNat (pos.toNat + b.span pos len) b
    dsimp only
    split
    · rw [trimBits_bits]
      dsimp only
      omega
    · next heq =>
      rw [heq] at hloop
      exact hloop.le
  · exact le_rfl

theorem flip_bits (b : Bitset) : b.flip.bits_ = b.bits_ := by
  unfold flip
  rw [trimBits_bits]
  exact (flipLoop_shape b.size b).1

theorem returned_bits {r : Bitset × Option BitsetException} (h : returned mem r = .ok b') : b'.bits_ = r.1.bits_ := by
  obtain ⟨b, e⟩ := r
  cases e with
  | none => exact copy_bits h
  | some e => cases h

theorem compl_bits (h : b.compl mem = .ok b') : b'.bits_ = b.bits_ := by
  unfold compl at h
  obtain ⟨bitset, hnew, hret⟩ := exists_ok_of_bind h
  rw [returned_bits hret, xorAssign, combine_bits, new_bits hnew]

/-! ## Calls -/

section Store

variable {ν : Type*} [DecidableEq ν]

/-- One call; `mem` says whether the allocation succeeds, where it makes one. -/
def call (mem : Bool) (s : World ν) : Act ν → Option (World ν × List BitsetException)
  | .new x bits val => some (s.make x (new mem bits val))
  | .copy x y => (s y).map fun b => s.make x (b.copy mem)
  | .assign x y => s.assignment x y (assign mem)
  | .addAssign x y => s.assignment x y (addAssign mem)
  | .andAssign x y => s.assignment x y andAssign
  | .orAssign x y => s.assignment x y orAssign
  | .xorAssign x y => s.assignment x y xorAssign
  | .onBit x bit op => (s x).map fun b => s.make x (b.onBit bit op.apply)
  | .erase x pos len => (s x).map fun b => s.write x (b.erase pos len)
  | .flip x => (s x).map fun b => s.write x (b.flip, none)
  | .reset x bits val => (s x).map fun b => s.write x (b.reset mem bits val)
  | .subits x y pos len => (s y).map fun b => s.make x (b.subits mem pos len)
  | .compl x y => (s y).map fun b => s.make x (b.compl mem)

/-- With every allocation successful these are the steps of `machine`. -/
theorem call_true (s : World ν) (a : Act ν) : call true s a = step s a := by
  cases a <;> rfl

/-- The calls on the objects, from none, with the luck of their allocations. -/
def calls : Machine (World ν) (Act ν × Bool) BitsetException where
  init := fun _ => none
  step s a := call a.2 s a.1

variable {s s' : World ν} {es : List BitsetException} {x y : ν}

theorem Small.update (h : Small s) (hb : (b.bits_ : ℤ) ≤ intMax) : Small (Function.update s x (some b)) := by
  intro z c hc
  by_cases hz : z = x
  · subst hz
    rw [Function.update_self] at hc
    obtain rfl := Option.some.inj hc
    exact hb
  · rw [Function.update_of_ne hz] at hc
    exact h z c hc

theorem Small.make (h : Small s) {r : Except BitsetException Bitset} (hs : s.make x r = (s', es))
    (hr : ∀ b, r = .ok b → (b.bits_ : ℤ) ≤ intMax) : Small s' := by
  cases r with
  | error e =>
    obtain ⟨rfl, -⟩ := Prod.mk.inj hs
    exact h
  | ok b =>
    obtain ⟨rfl, -⟩ := Prod.mk.inj hs
    exact h.update (hr b rfl)

theorem Small.write (h : Small s) {r : Bitset × Option BitsetException} (hs : s.write x r = (s', es))
    (hr : (r.1.bits_ : ℤ) ≤ intMax) : Small s' := by
  obtain ⟨rfl, -⟩ := Prod.mk.inj hs
  exact h.update hr

/-- What an assignment operator is called with. -/
theorem assignment_cases {f : Bitset → Option Bitset → Bitset × Option BitsetException}
    (hs : s.assignment x y f = some (s', es)) :
    ∃ b o, s x = some b ∧ s.operand x y = some o ∧ s y = some (o.getD b) ∧ s.write x (f b o) = (s', es) := by
  simp only [World.assignment, Option.bind_eq_some_iff, Option.map_eq_some_iff] at hs
  obtain ⟨b, hb, o, ho, hs⟩ := hs
  refine ⟨b, o, hb, ho, ?_, hs⟩
  unfold World.operand at ho
  split at ho
  · next heq =>
    obtain rfl := Option.some.inj ho
    rw [← heq, hb]
    rfl
  · obtain ⟨c, hc, rfl⟩ := Option.map_eq_some_iff.mp ho
    exact hc

/-- `&=`, `|=` and `^=` keep the length. -/
theorem Small.combine (h : Small s) {f : Bool → BitByte → BitByte → BitByte} {g : BitByte → BitByte → BitByte}
    (hs : s.assignment x y (Bitset.combine f g) = some (s', es)) : Small s' := by
  obtain ⟨b, o, hx, -, -, hs⟩ := assignment_cases hs
  refine h.write hs ?_
  rw [combine_bits]
  exact h x b hx

/-- The constructor and `reset` are given a length that the test sees as it is, and `=` gets its buffer. -/
def Honest : Act ν × Bool → Prop
  | (.new _ bits _, _) | (.reset _ bits _, _) => Seen bits
  | (.assign _ _, mem) => mem = true
  | _ => True

instance (a : Act ν × Bool) : Decidable (Honest a) := by
  obtain ⟨a, mem⟩ := a
  cases a <;> unfold Honest <;> infer_instance

/-- No call makes an object too long. -/
theorem Small.call (h : Small s) {a : Act ν} (ha : Honest (a, mem)) (hs : Bitset.call mem s a = some (s', es)) :
    Small s' := by
  cases a with
  | new x bits val =>
    refine h.make (Option.some.inj hs) fun b hb => ?_
    rw [new_bits hb]
    exact Seen.le ha (new_fits hb)
  | copy x y =>
    obtain ⟨b, hb, hs⟩ := Option.map_eq_some_iff.mp hs
    refine h.make hs fun b' hb' => ?_
    rw [copy_bits hb']
    exact h y b hb
  | assign x y =>
    obtain ⟨b, o, -, -, hy, hs⟩ := assignment_cases hs
    refine h.write hs ?_
    rw [assign_bits]
    exact h y _ hy
  | addAssign x y =>
    obtain ⟨b, o, hx, -, hy, hs⟩ := assignment_cases hs
    refine h.write hs ?_
    rcases addAssign_bits mem b o with hbits | ⟨hbits, hfits⟩ <;> rw [hbits]
    · exact h x b hx
    · -- a sum of two lengths is seen as it is
      refine Seen.le ?_ hfits
      have hb := h.bits hx
      have ho := h.bits hy
      rw [seen_iff, fits_iff]
      unfold intMax
      omega
  | andAssign x y => exact h.combine hs
  | orAssign x y => exact h.combine hs
  | xorAssign x y => exact h.combine hs
  | onBit x bit op =>
    obtain ⟨b, hb, hs⟩ := Option.map_eq_some_iff.mp hs
    refine h.make hs fun b' hb' => ?_
    rw [onBit_bits hb']
    exact h x b hb
  | erase x pos len =>
    obtain ⟨b, hb, hs⟩ := Option.map_eq_some_iff.mp hs
    have hle := erase_bits (h.bits hb) pos len
    have hbits := h x b hb
    exact h.write hs (by omega)
  | flip x =>
    obtain ⟨b, hb, hs⟩ := Option.map_eq_some_iff.mp hs
    refine h.write hs ?_
    rw [flip_bits]
    exact h x b hb
  | reset x bits val =>
    obtain ⟨b, hb, hs⟩ := Option.map_eq_some_iff.mp hs
    refine h.write hs ?_
    rcases reset_bits mem b bits val with hbits | hbits | ⟨hbits, hfits⟩ <;> rw [hbits]
    · exact h x b hb
    · decide
    · exact Seen.le ha hfits
  | subits x y pos len =>
    obtain ⟨b, hb, hs⟩ := Option.map_eq_some_iff.mp hs
    refine h.make hs fun b' hb' => ?_
    have hle := subits_bits hb'
    have hbits := h y b hb
    omega
  | compl x y =>
    obtain ⟨b, hb, hs⟩ := Option.map_eq_some_iff.mp hs
    refine h.make hs fun b' hb' => ?_
    rw [compl_bits hb']
    exact h y b hb

/-- What the limit promises of one call. -/
def Limited (t : Taken (World ν) (Act ν × Bool) BitsetException) : Prop :=
  Small t.pre ∧
    match t.act.1 with
    | .new _ bits _ | .reset _ bits _ => intMax < bits → t.out = [.illegalArgument]
    | .addAssign x y => ∀ a b, t.pre x = some a → t.pre y = some b → intMax < a.bits_ + b.bits_ →
        t.out = [.illegalArgument]
    | _ => True

/-- The constructor refuses a length in exactly the cases that the test sees. -/
theorem new_illegal_iff {bits : ℕ} {val : Bool} : new mem bits val = .error .illegalArgument ↔ ¬ fits bits := by
  unfold new
  constructor
  · intro h hfits
    rw [if_pos hfits] at h
    split at h
    · split at h <;> cases h
    · cases h
  · intro hfits
    rw [if_neg hfits]

/-- So does `reset`, and leaves the object as it is. -/
theorem reset_illegal_iff {bits : ℕ} {val : Bool} :
    (b.reset mem bits val).2 = some .illegalArgument ↔ ¬ fits bits := by
  unfold reset
  constructor
  · intro h hfits
    rw [if_pos hfits] at h
    split at h
    · split at h <;> cases h
    · cases h
  · intro hfits
    rw [if_neg hfits]

/-- A sum of two lengths that is too long is refused. -/
theorem addAssign_illegal {o : Option Bitset} (hb : (b.bits_ : ℤ) ≤ intMax) (ho : ((o.getD b).bits_ : ℤ) ≤ intMax)
    (hlong : intMax < b.bits_ + (o.getD b).bits_) (hhas : (o.getD b).hasBits = true) :
    b.addAssign mem o = (b, some .illegalArgument) := by
  have hfits : ¬ fits ((b.bits_ + (o.getD b).bits_) % 2 ^ 64) := by
    rw [fits_iff]
    unfold intMax at hb ho hlong
    omega
  unfold addAssign
  rw [if_pos hhas, grow, if_neg hfits]

/-! ## Failed allocations -/

theorem make_false {r r' : Except BitsetException Bitset} (hmono : ∀ b, r = .ok b → r' = .ok b)
    (hs : s.make x r = (s', es)) : s.make x r' = (s', es) ∨ s' = s := by
  cases hr : r with
  | ok b =>
    left
    rw [hmono b hr, ← hr]
    exact hs
  | error e =>
    right
    rw [hr] at hs
    exact (Prod.mk.inj hs).1.symm

theorem new_mono {bits : ℕ} {val : Bool} (h : new false bits val = .ok b) : new true bits val = .ok b := by
  unfold new at h ⊢
  by_cases hfits : fits bits
  · rw [if_pos hfits] at h ⊢
    by_cases hlen : bitBytes bits ≠ 0
    · rw [if_pos hlen, if_neg Bool.false_ne_true] at h
      cases h
    · rw [if_neg hlen] at h ⊢
      exact h
  · rw [if_neg hfits] at h
    cases h

theorem copy_mono (h : b.copy false = .ok b') : b.copy true = .ok b' := by
  unfold copy at h ⊢
  by_cases hlen : b.size ≠ 0
  · rw [if_pos hlen, if_neg Bool.false_ne_true] at h
    cases h
  · rw [if_neg hlen] at h ⊢
    exact h

theorem ok_of_bind {ε α β : Type} {r : Except ε α} {g : α → Except ε β} {a : α} {c : β} (hr : r = .ok a)
    (hg : g a = .ok c) : (r >>= g) = .ok c := by
  rw [hr]
  exact hg

theorem subits_mono {pos len : ℤ} (h : b.subits false pos len = .ok b') : b.subits true pos len = .ok b' := by
  unfold subits at h ⊢
  split at h
  · next hin =>
    obtain ⟨bitset, hnew, hloop⟩ := exists_ok_of_bind h
    rw [if_pos hin]
    exact ok_of_bind (new_mono hnew) hloop
  · cases h

theorem returned_mono {r : Bitset × Option BitsetException} (h : returned false r = .ok b') :
    returned true r = .ok b' := by
  obtain ⟨c, e⟩ := r
  cases e with
  | none => exact copy_mono h
  | some e => exact h

theorem compl_mono (h : b.compl false = .ok b') : b.compl true = .ok b' := by
  unfold compl at h ⊢
  obtain ⟨bitset, hnew, hret⟩ := exists_ok_of_bind h
  exact ok_of_bind (new_mono hnew) (returned_mono hret)

theorem grow_false (b : Bitset) (bits : ℕ) :
    b.grow false bits = b.grow true bits ∨ ∃ e, b.grow false bits = .error e := by
  unfold grow
  split
  · split
    · exact Or.inr ⟨.resourceExhaustion, if_neg Bool.false_ne_true⟩
    · exact Or.inl rfl
  · exact Or.inl rfl

/-- Without its buffer `+=` is what it is with it, or does nothing. -/
theorem addAssign_false (b : Bitset) (o : Option Bitset) :
    b.addAssign false o = b.addAssign true o ∨ (b.addAssign false o).1 = b := by
  unfold addAssign
  by_cases hhas : (o.getD b).hasBits = true
  · rw [if_pos hhas, if_pos hhas]
    rcases b.grow_false ((b.bits_ + (o.getD b).bits_) % 2 ^ 64) with h | ⟨e, h⟩
    · rw [h]
      exact Or.inl rfl
    · rw [h]
      exact Or.inr rfl
  · rw [if_neg hhas]
    exact Or.inr rfl

theorem reset_false (b : Bitset) (bits : ℕ) (val : Bool) :
    b.reset false bits val = b.reset true bits val ∨ (b.reset false bits val).1 = ⟨0, []⟩ := by
  unfold reset
  by_cases hfits : fits bits
  · rw [if_pos hfits]
    by_cases hlen : bitBytes bits ≠ 0
    · rw [if_pos hlen]
      exact Or.inr rfl
    · rw [if_neg hlen]
      exact Or.inr rfl
  · rw [if_neg hfits, if_neg hfits]
    exact Or.inl rfl

/-- A call whose allocation fails is what it is with it, does nothing, or leaves an object empty. -/
theorem call_false {a : Act ν} (ha : Honest (a, false)) (hs : call false s a = some (s', es)) :
    call true s a = some (s', es) ∨ s' = s ∨ ∃ x, s' = Function.update s x (some ⟨0, []⟩) := by
  have hmade : ∀ {x : ν} {r r' : Except BitsetException Bitset}, s.make x r = (s', es) →
      (∀ b, r = .ok b → r' = .ok b) →
      some (s.make x r') = some (s', es) ∨ s' = s ∨ ∃ x, s' = Function.update s x (some ⟨0, []⟩) := by
    intro x r r' hr hmono
    rcases make_false hmono hr with h | h
    · exact Or.inl (congrArg some h)
    · exact Or.inr (Or.inl h)
  cases a with
  | new x bits val => exact hmade (Option.some.inj hs) fun _ => new_mono
  | copy x y =>
    obtain ⟨b, hb, hs⟩ := Option.map_eq_some_iff.mp hs
    simp only [call, hb, Option.map_some]
    exact hmade hs fun _ => copy_mono
  | assign x y => cases ha
  | addAssign x y =>
    obtain ⟨b, o, hx, ho, -, hs⟩ := assignment_cases hs
    rcases addAssign_false b o with h | h
    · left
      rw [h] at hs
      simp only [call, World.assignment, hx, ho, Option.bind_some, Option.map_some, hs]
    · right; left
      obtain ⟨rfl, -⟩ := Prod.mk.inj hs
      rw [h, ← hx, Function.update_eq_self]
  | reset x bits val =>
    obtain ⟨b, hb, hs⟩ := Option.map_eq_some_iff.mp hs
    rcases reset_false b bits val with h | h
    · left
      rw [h] at hs
      simp only [call, hb, Option.map_some, hs]
    · right; right
      obtain ⟨rfl, -⟩ := Prod.mk.inj hs
      exact ⟨x, by rw [h]⟩
  | subits x y pos len =>
    obtain ⟨b, hb, hs⟩ := Option.map_eq_some_iff.mp hs
    simp only [call, hb, Option.map_some]
    exact hmade hs fun _ => subits_mono
  | compl x y =>
    obtain ⟨b, hb, hs⟩ := Option.map_eq_some_iff.mp hs
    simp only [call, hb, Option.map_some]
    exact hmade hs fun _ => compl_mono
  | _ => exact Or.inl hs

theorem AllWf.call (h : AllWf s) {a : Act ν} (ha : Honest (a, mem)) (hs : Bitset.call mem s a = some (s', es))
    (hsmall : Small s') : AllWf s' := by
  cases mem with
  | true =>
    rw [call_true] at hs
    exact h.step hs hsmall
  | false =>
    rcases call_false ha hs with hs | rfl | ⟨x, rfl⟩
    · rw [call_true] at hs
      exact h.step hs hsmall
    · exact h
    · exact h.update wf_empty

theorem Wf.hasBits (h : b.Wf) (hbits : b.bits_ ≠ 0) : b.hasBits = true := by
  have henough := h.enough
  have hpos : bitBytes b.bits_ ≠ 0 := fun hzero => hbits (bitBytes_eq_zero hzero)
  simp only [Bitset.hasBits, Bool.and_eq_true, decide_eq_true_eq]
  refine ⟨hbits, ?_⟩
  rintro hnil
  rw [hnil, List.length_nil] at henough
  omega

/-! ## The limit -/

/-- What the limit promises holds of a call on good objects. -/
theorem limited (hsmall : Small s) (hwf : AllWf s) {a : Act ν} (ha : Honest (a, mem))
    (hs : call mem s a = some (s', es)) : Limited ⟨s, (a, mem), es⟩ := by
  refine ⟨hsmall, ?_⟩
  cases a with
  | new x bits val =>
    intro hlong
    have hnew : new mem bits val = .error .illegalArgument := new_illegal_iff.mpr (seen_iff.mp ha hlong)
    have hs := Option.some.inj hs
    rw [hnew] at hs
    exact (Prod.mk.inj hs).2.symm
  | reset x bits val =>
    intro hlong
    obtain ⟨b, hb, hs⟩ := Option.map_eq_some_iff.mp hs
    have hreset : (b.reset mem bits val).2 = some .illegalArgument := reset_illegal_iff.mpr (seen_iff.mp ha hlong)
    obtain ⟨-, rfl⟩ := Prod.mk.inj hs
    rw [hreset]
    rfl
  | addAssign x y =>
    intro a b hx hy hlong
    obtain ⟨a', o, hx', -, hy', hs⟩ := assignment_cases hs
    obtain rfl := Option.some.inj (hx.symm.trans hx')
    obtain rfl := Option.some.inj (hy.symm.trans hy')
    have hbits : (o.getD a).bits_ ≠ 0 := by
      intro hzero
      have hle := hsmall x a hx
      rw [hzero] at hlong
      simp only [Nat.cast_zero, add_zero] at hlong
      omega
    rw [addAssign_illegal (hsmall x a hx) (hsmall y _ hy) hlong ((hwf y _ hy).hasBits hbits)] at hs
    exact (Prod.mk.inj hs).2.symm
  | _ => trivial

variable {π : List (Taken (World ν) (Act ν × Bool) BitsetException)}

theorem run_limited (hr : Run calls π s) (hC : Meets (fun _ a => Honest a) π) :
    Small s ∧ AllWf s ∧ ∀ t ∈ π, Limited t := by
  induction hr with
  | start => exact ⟨fun _ _ h => (by cases h), fun _ _ h => (by cases h), by simp⟩
  | @snoc π s s' a es _ hstep ih =>
    obtain ⟨hπ, ha⟩ := meets_snoc.mp hC
    obtain ⟨hsmall, hwf, hlim⟩ := ih hπ
    have hsmall' := hsmall.call ha hstep
    refine ⟨hsmall', hwf.call ha hstep hsmall', fun t ht => ?_⟩
    rcases List.mem_append.mp ht with ht | ht
    · exact hlim t ht
    · obtain rfl := List.mem_singleton.mp ht
      exact limited hsmall hwf ha hstep

/-- **The length limit.**  The constructor and `reset` refuse a length above `INT_MAX` in exactly the cases that
their test sees; and in every run that gives them no other length, and in which `=` gets its buffer, `+=` refuses
what is too long as well and no object ever has more than `INT_MAX` bits. -/
theorem length_limit :
    (∀ bits : ℕ, Seen bits ↔ (intMax < bits → ∀ mem val, new mem bits val = .error .illegalArgument ∧
        ∀ b : Bitset, (b.reset mem bits val).2 = some .illegalArgument)) ∧
      ∀ (π : List (Taken (World ν) (Act ν × Bool) BitsetException)) (s : World ν), Run calls π s →
        Meets (fun _ a => Honest a) π → Small s ∧ ∀ t ∈ π, Limited t := by
  refine ⟨fun bits => ?_, fun π s hr hC => ?_⟩
  · rw [seen_iff]
    refine forall_congr' fun _ => ?_
    constructor
    · exact fun h mem val => ⟨new_illegal_iff.mpr h, fun b => reset_illegal_iff.mpr h⟩
    · exact fun h => new_illegal_iff.mp (h true false).1
  · obtain ⟨hsmall, -, hlim⟩ := run_limited hr hC
    exact ⟨hsmall, hlim⟩

/-- `INT_MAX + 1` bits are refused, and so is as much as all bits of a `size_t`. -/
theorem length_limit_two :
    ∃ (π : List (Taken (World (Fin 2)) (Act (Fin 2) × Bool) BitsetException)) (s : World (Fin 2)), Run calls π s ∧
      events π = [.illegalArgument, .illegalArgument] ∧ Small s ∧ ∀ t ∈ π, Limited t := by
  obtain ⟨π, s, hr, hp⟩ := exists_run_of_replay (M := calls)
    (p := fun (π : List (Taken (World (Fin 2)) (Act (Fin 2) × Bool) BitsetException)) (_ : World (Fin 2)) =>
      decide (events π = [.illegalArgument, .illegalArgument] ∧ Meets (fun _ a => Honest a) π))
    [(.new 0 12 true, true), (.new 1 (2 ^ 31) false, true), (.copy 1 0, true), (.addAssign 0 1, true),
      (.reset 0 (2 ^ 64 - 1) true, true)] (by decide +kernel)
  obtain ⟨hevents, hC⟩ := of_decide_eq_true hp
  exact ⟨π, s, hr, hevents, length_limit.2 π s hr hC⟩

/-- `2 ^ 32` bits are seen as none, and the constructor makes the object. -/
theorem length_unlimited : ¬ ∀ bits : ℕ, bits < 2 ^ 64 → intMax < bits → ∀ mem val,
    new mem bits val = .error .illegalArgument := by
  intro hall
  have hillegal := hall (2 ^ 32) (by norm_num) (by decide) true false
  rw [new_illegal_iff, fits_iff] at hillegal
  exact hillegal (by norm_num)

end Store

end Lasagne.Daf.Bitset
