import Mathlib.Data.Fintype.Card

/-!
# Lasagne.Trans.Count — how many processes are at a control point

`count p f` is the number of indices whose value under `f` satisfies `p`.  A step moves one process,
so all that is needed is how `count` changes under `Function.update`.
-/

namespace Lasagne.Trans

variable {ι κ : Type*} [Fintype ι] {p : κ → Bool} {f : ι → κ}

/-- The number of indices `i` with `p (f i)`. -/
def count (p : κ → Bool) (f : ι → κ) : ℕ := (Finset.univ.filter fun i => p (f i) = true).card

theorem count_update [DecidableEq ι] (p : κ → Bool) (f : ι → κ) (i : ι) (x : κ) :
    count p (Function.update f i x) + (p (f i)).toNat = count p f + (p x).toNat := by
  have hsplit : ∀ g : ι → κ, count p g =
      (p (g i)).toNat + ((Finset.univ.erase i).filter fun j => p (g j) = true).card := by
    intro g
    unfold count
    rw [← Finset.insert_erase (Finset.mem_univ i), Finset.filter_insert]
    cases hp : p (g i)
    · simp
    · rw [if_pos rfl, Finset.card_insert_of_notMem (by simp)]
      simp [Nat.add_comm]
  have hrest : ((Finset.univ.erase i).filter fun j => p (Function.update f i x j) = true) =
      (Finset.univ.erase i).filter fun j => p (f j) = true := by
    refine Finset.filter_congr fun j hj => ?_
    rw [Function.update_of_ne (Finset.ne_of_mem_erase hj)]
  rw [hsplit (Function.update f i x), hsplit f, hrest, Function.update_self]
  omega

theorem count_congr {q : κ → Bool} {g : ι → κ} (h : ∀ i, p (f i) = q (g i)) : count p f = count q g := by
  unfold count
  simp only [h]

/-- Several processes come to where `p` holds. -/
theorem count_ite_mem [DecidableEq ι] {g : κ → κ} {ws : List ι} (hnodup : ws.Nodup)
    (hg : ∀ w ∈ ws, p (g (f w)) = true) (hf : ∀ w ∈ ws, p (f w) = false) :
    count p (fun i => if i ∈ ws then g (f i) else f i) = count p f + ws.length := by
  induction ws with
  | nil => simp
  | cons w ws ih =>
    obtain ⟨hw, hnodup⟩ := List.nodup_cons.mp hnodup
    have hstep : (fun i => if i ∈ w :: ws then g (f i) else f i) =
        Function.update (fun i => if i ∈ ws then g (f i) else f i) w (g (f w)) := by
      funext i
      by_cases hi : i = w
      · simp [hi]
      · simp [hi]
    have hone := count_update p (fun i => if i ∈ ws then g (f i) else f i) w (g (f w))
    rw [if_neg hw, hf w (by simp), hg w (by simp),
      ih hnodup (fun v hv => hg v (by simp [hv])) fun v hv => hf v (by simp [hv])] at hone
    rw [hstep, List.length_cons]
    simpa [Nat.add_assoc] using hone

theorem count_pos {i : ι} (h : p (f i) = true) : 0 < count p f :=
  Finset.card_pos.mpr ⟨i, by simpa using h⟩

theorem count_eq_zero : count p f = 0 ↔ ∀ i, p (f i) = false := by
  simp [count, Finset.filter_eq_empty_iff]

theorem count_pos_iff : 0 < count p f ↔ ∃ i, p (f i) = true := by
  rw [Nat.pos_iff_ne_zero, Ne, count_eq_zero]
  simp

theorem count_comp {κ' : Type*} (p : κ' → Bool) (g : κ → κ') (f : ι → κ) :
    count p (fun i => g (f i)) = count (fun x => p (g x)) f := rfl

/-- Where at most one process is, two are the same. -/
theorem eq_of_count_le_one (h : count p f ≤ 1) {i j : ι} (hi : p (f i) = true) (hj : p (f j) = true) :
    i = j :=
  Finset.card_le_one.mp h i (by simpa using hi) j (by simpa using hj)

end Lasagne.Trans
