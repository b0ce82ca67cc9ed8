import Mathlib

/-!
# Lasagne.Wire.Lex — the lexicographic order, of lists and of the bits of words

* `append_lt_append_iff` : lists in two parts, of which the first ones are of one length;
* `flatMap_lt_flatMap_iff` : lists that are put together from pieces of one length;
* `msbs_lt_msbs_iff` : the bits of a word from the highest one down.
-/

namespace Lasagne.Wire

theorem append_lt_append_iff {α : Type*} [LinearOrder α] {l m r s : List α} (h : l.length = m.length) :
    l ++ r < m ++ s ↔ l < m ∨ l = m ∧ r < s := by
  induction l generalizing m with
  | nil =>
    obtain rfl : m = [] := List.length_eq_zero_iff.mp h.symm
    simp
  | cons a l ih =>
    obtain _ | ⟨b, m⟩ := m
    · simp at h
    · rw [List.cons_append, List.cons_append, List.cons_lt_cons_iff, List.cons_lt_cons_iff,
        ih (Nat.succ_injective h), List.cons_eq_cons]
      tauto

/-- Pieces of one length, in the order of what they stand for. -/
theorem flatMap_lt_flatMap_iff {α β : Type*} [LT α] [LinearOrder β] {f : α → List β} {n : ℕ}
    (hlength : ∀ a, (f a).length = n) (hlt : ∀ a b, f a < f b ↔ a < b) (hinj : Function.Injective f) {l m : List α}
    (h : l.length = m.length) : l.flatMap f < m.flatMap f ↔ l < m := by
  induction l generalizing m with
  | nil =>
    obtain rfl : m = [] := List.length_eq_zero_iff.mp h.symm
    simp
  | cons a l ih =>
    obtain _ | ⟨b, m⟩ := m
    · simp at h
    · rw [List.flatMap_cons, List.flatMap_cons, append_lt_append_iff ((hlength a).trans (hlength b).symm), hlt,
        hinj.eq_iff, ih (Nat.succ_injective h), List.cons_lt_cons_iff]

/-- Turning all bits over turns the order over. -/
theorem map_not_lt_map_not_iff {l m : List Bool} (h : l.length = m.length) : l.map not < m.map not ↔ m < l := by
  induction l generalizing m with
  | nil =>
    obtain rfl : m = [] := List.length_eq_zero_iff.mp h.symm
    rfl
  | cons a l ih =>
    obtain _ | ⟨b, m⟩ := m
    · simp at h
    · rw [List.map_cons, List.map_cons, List.cons_lt_cons_iff, List.cons_lt_cons_iff, ih (Nat.succ_injective h)]
      cases a <;> cases b <;> simp

/-! ## The bits of a word -/

variable {w : ℕ} {x y : BitVec w}

/-- From the highest one down. -/
def msbs (x : BitVec w) : List Bool := (List.range w).map x.getMsbD

@[simp] theorem length_msbs (x : BitVec w) : (msbs x).length = w := by
  rw [msbs, List.length_map, List.length_range]

theorem msbs_cons (a : Bool) (x : BitVec w) : msbs (BitVec.cons a x) = a :: msbs x := by
  unfold msbs
  rw [List.range_succ_eq_map, List.map_cons, List.map_map, BitVec.getMsbD_cons_zero]
  congr 1
  refine List.map_congr_left fun i _ => ?_
  exact BitVec.getMsbD_cons_succ

theorem msbs_injective : Function.Injective (msbs : BitVec w → List Bool) := by
  intro x y h
  refine BitVec.eq_of_getMsbD_eq fun i hi => ?_
  exact List.map_inj_left.mp h i (List.mem_range.mpr hi)

theorem msbs_lt_msbs_iff : msbs x < msbs y ↔ x < y := by
  induction w with
  | zero =>
    rw [Subsingleton.elim x y]
    exact iff_of_false (lt_irrefl _) (BitVec.lt_irrefl y)
  | succ w ih =>
    rw [← BitVec.cons_msb_setWidth x, ← BitVec.cons_msb_setWidth y, msbs_cons, msbs_cons, List.cons_lt_cons_iff, ih,
      BitVec.lt_def, BitVec.lt_def, BitVec.toNat_cons', BitVec.toNat_cons', Nat.shiftLeft_eq, Nat.shiftLeft_eq]
    -- the highest bit outweighs all others
    generalize x.setWidth w = x', y.setWidth w = y'
    have hx := x'.isLt
    have hy := y'.isLt
    have htrue : ¬ (true < false) := by decide
    cases x.msb <;> cases y.msb <;> simp [htrue] <;> omega

end Lasagne.Wire
