import Mathlib.Data.List.Basic
import Mathlib.Data.List.Range

/-!
# Lasagne.Trans.Window — windows of a circular memory

A memory of `N` cells is used in a circle, and what is in it is the window of some length from some cell on.

* `window_add`: a window is cut at any point.
* `copyTo`: a block of cells is overwritten; `window_copyTo`: one that is copied behind a window makes it longer.
-/

namespace Lasagne.Trans

variable {β : Type*}

/-- The `len` cells from `start` on, round a circle of `N`. -/
def window (mem : ℕ → β) (N start len : ℕ) : List β := (List.range len).map fun i => mem ((start + i) % N)

/-- The first `len` cells of a memory. -/
def firstCells (mem : ℕ → β) (len : ℕ) : List β := (List.range len).map mem

/-- `dst`, with `n` cells from `j` on copied from `src`, from `i` on. -/
def copyTo (dst : ℕ → β) (j : ℕ) (src : ℕ → β) (i n : ℕ) : ℕ → β :=
  fun k => if j ≤ k ∧ k < j + n then src (i + (k - j)) else dst k

/-- Round the circle at most once. -/
theorem mod_cases {a N : ℕ} (h : a < 2 * N) : (a % N = a ∧ a < N) ∨ a % N + N = a := by
  by_cases ha : a < N
  · exact Or.inl ⟨Nat.mod_eq_of_lt ha, ha⟩
  · right
    rw [Nat.mod_eq_sub_mod (not_lt.mp ha), Nat.mod_eq_of_lt (by omega)]
    omega

@[simp] theorem length_window (mem : ℕ → β) (N start len : ℕ) : (window mem N start len).length = len := by
  simp [window]

@[simp] theorem length_firstCells (mem : ℕ → β) (len : ℕ) : (firstCells mem len).length = len := by
  simp [firstCells]

theorem window_add (mem : ℕ → β) (N start m n : ℕ) :
    window mem N start (m + n) = window mem N start m ++ window mem N (start + m) n := by
  simp only [window, List.range_add, List.map_append, List.map_map, Function.comp_def, Nat.add_assoc]

theorem firstCells_add (mem : ℕ → β) (m n : ℕ) :
    firstCells mem (m + n) = firstCells mem m ++ firstCells (fun i => mem (m + i)) n := by
  simp only [firstCells, List.range_add, List.map_append, List.map_map, Function.comp_def]

theorem window_mod (mem : ℕ → β) (N start len : ℕ) : window mem N (start % N) len = window mem N start len := by
  simp only [window, Nat.mod_add_mod]

/-- A window that does not go round is a block of cells. -/
theorem window_eq_firstCells (mem : ℕ → β) {N start len : ℕ} (h : start + len ≤ N) :
    window mem N start len = firstCells (fun i => mem (start + i)) len := by
  unfold window firstCells
  refine List.map_congr_left fun i hi => ?_
  rw [List.mem_range] at hi
  rw [Nat.mod_eq_of_lt (by omega)]

theorem window_congr {mem mem' : ℕ → β} {N start len : ℕ}
    (h : ∀ i < len, mem ((start + i) % N) = mem' ((start + i) % N)) :
    window mem N start len = window mem' N start len := by
  unfold window
  exact List.map_congr_left fun i hi => h i (List.mem_range.mp hi)

theorem firstCells_congr {mem mem' : ℕ → β} {len : ℕ} (h : ∀ i < len, mem i = mem' i) :
    firstCells mem len = firstCells mem' len := by
  unfold firstCells
  exact List.map_congr_left fun i hi => h i (List.mem_range.mp hi)

theorem copyTo_of_lt {dst src : ℕ → β} {j i n k : ℕ} (h : k < j) : copyTo dst j src i n k = dst k := by
  unfold copyTo
  rw [if_neg (by omega)]

theorem copyTo_add {dst src : ℕ → β} {j i n k : ℕ} (h : k < n) : copyTo dst j src i n (j + k) = src (i + k) := by
  unfold copyTo
  rw [if_pos (by omega), Nat.add_sub_cancel_left]

/-- Cells that are copied onto themselves. -/
theorem copyTo_self (mem : ℕ → β) (j n : ℕ) : copyTo mem j mem j n = mem := by
  funext k
  unfold copyTo
  split
  · next hk => rw [Nat.add_sub_cancel' hk.1]
  · rfl

/-- What was copied behind the first `m` cells. -/
theorem firstCells_copyTo (dst src : ℕ → β) (m i n : ℕ) :
    firstCells (copyTo dst m src i n) (m + n) = firstCells dst m ++ firstCells (fun k => src (i + k)) n := by
  rw [firstCells_add]
  congr 1
  · exact firstCells_congr fun k hk => copyTo_of_lt hk
  · exact firstCells_congr fun k hk => copyTo_add hk

/-- A block is copied behind a window, into cells that the window leaves free. -/
theorem window_copyTo {dst src : ℕ → β} {N start len i n : ℕ} (hstart : start < N) (hfree : len + n ≤ N)
    (hend : (start + len) % N + n ≤ N) :
    window (copyTo dst ((start + len) % N) src i n) N start (len + n) =
      window dst N start len ++ firstCells (fun k => src (i + k)) n := by
  rw [window_add]
  congr 1
  · refine window_congr fun k hk => ?_
    -- the block starts where the window ends, or a round before
    have hpos := mod_cases (a := start + k) (N := N) (by omega)
    have hblock := mod_cases (a := start + len) (N := N) (by omega)
    unfold copyTo
    rw [if_neg (by omega)]
  · rw [← window_mod, window_eq_firstCells _ hend]
    exact firstCells_congr fun k hk => copyTo_add hk

end Lasagne.Trans
