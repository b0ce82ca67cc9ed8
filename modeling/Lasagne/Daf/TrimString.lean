import Lasagne.Daf.Semaphore
import Mathlib.Data.List.Basic

/-!
# Lasagne.Daf.TrimString — character strings and `DAF::trim_string`

A `std::string` is a list of characters.  The positions that its searches give back are kept in an `int`, as the
callers keep them: `npos` is `-1`, and what does not fit wraps.

* `length_trimString_le` : trimming makes nothing longer;
* `trimString_of_plain` : and it leaves alone what has no blanks and is not closed in by the character;
* `trimString_tidy`, `trimString_of_tidy` : what it leaves has no blank at the ends, and trimming that changes nothing.
-/

namespace Lasagne.Daf

/-! ## The model -/

/-- `::isspace` and `::iscntrl`, of one character. -/
def isSpace (c : Char) : Bool := c == ' ' || (decide (9 ≤ c.toNat) && decide (c.toNat ≤ 13))

def isCntrl (c : Char) : Bool := decide (c.toNat < 32) || c.toNat == 127

/-- What `trim_string` takes off both ends. -/
def isBlank (c : Char) : Bool := isSpace c || isCntrl c

/-- The loop of `trim_string`, entered with `pos` characters still to be looked at. -/
def trimLoop (c : Char) : ℕ → List Char → List Char
  | 0, arg => arg
  | pos + 1, arg =>
    if isBlank (arg.getD pos '\x00') then trimLoop c pos (arg.eraseIdx pos)
    else if isBlank (arg.getD 0 '\x00') then trimLoop c pos (arg.eraseIdx 0)
    else if arg.getD 0 '\x00' = c ∧ arg.getD pos '\x00' = c then
      -- from both ends at once, and the one that is left over from the front
      match pos with
      | 0 => arg.eraseIdx 0
      | pos + 1 => trimLoop c pos ((arg.eraseIdx (pos + 1)).eraseIdx 0)
    else (arg.take (pos + 1)).map (fun a => if isCntrl a then ' ' else a) ++ arg.drop (pos + 1)

def trimString (param : List Char) (c : Char) : List Char := trimLoop c param.length param

/-- `int(s.find_first_of(c))`. -/
def findFirstOf (s : List Char) (c : Char) : ℤ := if c ∈ s then toInt (s.idxOf c) else -1

/-- `int(s.find_last_of(c))`. -/
def findLastOf (s : List Char) (c : Char) : ℤ := if c ∈ s then toInt (s.length - 1 - s.reverse.idxOf c) else -1

/-- `pos++` on an `int`. -/
def incr (pos : ℤ) : ℤ := Int.bmod (pos + 1) (2 ^ 32)

/-- `s.substr(0, size_t(pos))`: a negative position is past every end. -/
def substrTo (s : List Char) (pos : ℤ) : List Char := if 0 ≤ pos then s.take pos.toNat else s

/-- `s.substr(size_t(pos))`, which throws `std::out_of_range` past the end. -/
def substrFrom (s : List Char) (pos : ℤ) : Option (List Char) :=
  if 0 ≤ pos ∧ pos ≤ s.length then some (s.drop pos.toNat) else none

/-! ## Trimming -/

theorem length_trimLoop_le (c : Char) (pos : ℕ) (arg : List Char) : (trimLoop c pos arg).length ≤ arg.length := by
  fun_induction trimLoop c pos arg with
  | case1 arg => exact le_rfl
  | case2 arg pos _ ih => exact ih.trans (List.length_eraseIdx_le ..)
  | case3 arg pos _ _ ih => exact ih.trans (List.length_eraseIdx_le ..)
  | case4 arg => exact List.length_eraseIdx_le ..
  | case5 arg pos _ _ _ ih => exact ih.trans ((List.length_eraseIdx_le ..).trans (List.length_eraseIdx_le ..))
  | case6 arg pos =>
    rw [List.length_append, List.length_map, ← List.length_append, List.take_append_drop]

theorem length_trimString_le (s : List Char) (c : Char) : (trimString s c).length ≤ s.length :=
  length_trimLoop_le c s.length s

/-- No blank and no control character. -/
def Plain (s : List Char) : Prop := ∀ a ∈ s, isBlank a = false

instance (s : List Char) : Decidable (Plain s) := List.decidableBAll (fun a => isBlank a = false) s

theorem Plain.append {s t : List Char} (hs : Plain s) (ht : Plain t) : Plain (s ++ t) := by
  intro a ha
  rcases List.mem_append.mp ha with ha | ha
  · exact hs a ha
  · exact ht a ha

theorem map_cntrl {s : List Char} (h : Plain s) : s.map (fun a => if isCntrl a then ' ' else a) = s := by
  refine (List.map_congr_left fun a ha => ?_).trans (List.map_id s)
  have hcntrl : isCntrl a = false := (Bool.or_eq_false_iff.mp (h a ha)).2
  simp [hcntrl]

/-- Nothing is trimmed off a string without blanks that does not both begin and end with the character. -/
theorem trimString_of_plain {s : List Char} {c : Char} (h : Plain s)
    (hends : ¬ (s.head? = some c ∧ s.getLast? = some c)) : trimString s c = s := by
  unfold trimString
  cases s with
  | nil => rfl
  | cons a t =>
    have hlast : (a :: t).getD t.length '\x00' = (a :: t).getLast (List.cons_ne_nil a t) := by
      rw [List.getLast_eq_getElem, List.getD_eq_getElem _ _ (by simp)]
      rfl
    have hblank : isBlank ((a :: t).getD t.length '\x00') = false := by
      rw [hlast]
      exact h _ (List.getLast_mem _)
    have hblank' : isBlank ((a :: t).getD 0 '\x00') = false := h a List.mem_cons_self
    have hends' : ¬ ((a :: t).getD 0 '\x00' = c ∧ (a :: t).getD t.length '\x00' = c) := by
      rintro ⟨hfirst, hlast'⟩
      rw [hlast] at hlast'
      exact hends ⟨congrArg some hfirst, (List.getLast?_eq_some_getLast _).trans (congrArg some hlast')⟩
    rw [List.length_cons, trimLoop.eq_def]
    dsimp only
    rw [if_neg (by rw [hblank]; exact Bool.false_ne_true), if_neg (by rw [hblank']; exact Bool.false_ne_true),
      if_neg hends']
    rw [List.take_of_length_le (by simp), List.drop_of_length_le (by simp), List.append_nil, map_cntrl h]

/-! ## What trimming leaves -/

/-- No control characters, and no blank at either end. -/
structure Tidy (s : List Char) : Prop where
  cntrl : ∀ a ∈ s, isCntrl a = false
  head : ∀ a, s.head? = some a → isSpace a = false
  last : ∀ a, s.getLast? = some a → isSpace a = false

theorem Tidy.nil : Tidy [] := ⟨by simp, by simp, by simp⟩

theorem Plain.tidy {s : List Char} (h : Plain s) : Tidy s := by
  have hblank : ∀ a ∈ s, isSpace a = false ∧ isCntrl a = false := fun a ha => Bool.or_eq_false_iff.mp (h a ha)
  exact ⟨fun a ha => (hblank a ha).2, fun a ha => (hblank a (List.mem_of_head? ha)).1,
    fun a ha => (hblank a (List.mem_of_getLast? ha)).1⟩

theorem Tidy.singleton {c : Char} (h : isBlank c = false) : Tidy [c] := by
  refine Plain.tidy fun a ha => ?_
  rw [List.mem_singleton.mp ha]
  exact h

/-- `trim_string` leaves no blank at the ends, and blanks where control characters were. -/
theorem trimLoop_tidy (c : Char) (pos : ℕ) (arg : List Char) (hlen : arg.length = pos) :
    Tidy (trimLoop c pos arg) := by
  fun_induction trimLoop c pos arg with
  | case1 arg =>
    obtain rfl := List.eq_nil_of_length_eq_zero hlen
    exact Tidy.nil
  | case2 arg pos _ ih => exact ih (by rw [List.length_eraseIdx_of_lt (by omega)]; omega)
  | case3 arg pos _ _ ih => exact ih (by rw [List.length_eraseIdx_of_lt (by omega)]; omega)
  | case4 arg =>
    obtain ⟨a, rfl⟩ := List.length_eq_one_iff.mp hlen
    exact Tidy.nil
  | case5 arg _ pos _ _ ih =>
    refine ih ?_
    have hone := List.length_eraseIdx_of_lt (show pos + 1 < arg.length by omega)
    rw [List.length_eraseIdx_of_lt (by omega), hone]
    omega
  | case6 pos arg hlast hhead hends =>
    have hne : arg ≠ [] := List.ne_nil_of_length_pos (by omega)
    rw [List.take_of_length_le (by omega), List.drop_of_length_le (by omega), List.append_nil]
    have hspace : ∀ a, isBlank a = false → (if isCntrl a then ' ' else a) = a ∧ isSpace a = false := by
      intro a ha
      obtain ⟨hs, hc⟩ := Bool.or_eq_false_iff.mp ha
      simp [hs, hc]
    refine ⟨?_, ?_, ?_⟩
    · intro a ha
      obtain ⟨b, _, rfl⟩ := List.mem_map.mp ha
      cases hb : isCntrl b
      · simpa using hb
      · simp; decide
    · intro a ha
      obtain ⟨b, t, rfl⟩ := List.exists_cons_of_ne_nil hne
      obtain ⟨h1, h2⟩ := hspace b (by simpa using hhead)
      simp only [List.map_cons, List.head?_cons, Option.some.injEq] at ha
      rw [← ha, h1]
      exact h2
    · intro a ha
      have hget : arg.getD pos '\x00' = arg.getLast hne := by
        rw [List.getLast_eq_getElem, List.getD_eq_getElem _ _ (by omega)]
        congr 1
        omega
      rw [hget] at hlast
      obtain ⟨h1, h2⟩ := hspace (arg.getLast hne) (Bool.eq_false_of_not_eq_true hlast)
      rw [List.getLast?_map, List.getLast?_eq_some_getLast hne, Option.map_some, Option.some.injEq] at ha
      rw [← ha, h1]
      exact h2

theorem trimString_tidy (s : List Char) (c : Char) : Tidy (trimString s c) := trimLoop_tidy c s.length s rfl

/-- And what is like that stays as it is. -/
theorem trimString_of_tidy {s : List Char} (h : Tidy s) : trimString s ' ' = s := by
  unfold trimString
  cases s with
  | nil => rfl
  | cons a t =>
    have hget : (a :: t).getD t.length '\x00' = (a :: t).getLast (List.cons_ne_nil a t) := by
      rw [List.getLast_eq_getElem, List.getD_eq_getElem _ _ (by simp)]
      rfl
    have hlast : isBlank ((a :: t).getD t.length '\x00') = false := by
      rw [hget]
      exact Bool.or_eq_false_iff.mpr ⟨h.last _ (List.getLast?_eq_some_getLast _), h.cntrl _ (List.getLast_mem _)⟩
    have hhead : isBlank ((a :: t).getD 0 '\x00') = false :=
      Bool.or_eq_false_iff.mpr ⟨h.head a rfl, h.cntrl a List.mem_cons_self⟩
    have hspace : (a :: t).getD 0 '\x00' ≠ ' ' := by
      intro heq
      rw [heq] at hhead
      exact absurd hhead (by decide)
    rw [List.length_cons, trimLoop.eq_def]
    dsimp only
    rw [if_neg (by rw [hlast]; exact Bool.false_ne_true), if_neg (by rw [hhead]; exact Bool.false_ne_true),
      if_neg (fun hends => hspace hends.1)]
    rw [List.take_of_length_le (by simp), List.drop_of_length_le (by simp), List.append_nil]
    refine (List.map_congr_left fun b hb => ?_).trans (List.map_id _)
    simp [h.cntrl b hb]

/-- A blank at the end goes. -/
theorem trimString_append_space (s : List Char) (c : Char) : trimString (s ++ [' ']) c = trimString s c := by
  have hget : (s ++ [' ']).getD s.length '\x00' = ' ' := by simp
  unfold trimString
  rw [List.length_append, List.length_singleton, trimLoop.eq_def]
  dsimp only
  rw [hget, if_pos (by decide), List.eraseIdx_append_of_length_le le_rfl]
  simp

theorem Tidy.append {s t : List Char} (hs : Tidy s) (ht : Tidy t) (hs0 : s ≠ []) (ht0 : t ≠ []) : Tidy (s ++ t) := by
  refine ⟨fun a ha => ?_, fun a ha => hs.head a ?_, fun a ha => ht.last a ?_⟩
  · rcases List.mem_append.mp ha with ha | ha
    · exact hs.cntrl a ha
    · exact ht.cntrl a ha
  · rwa [List.head?_append_of_ne_nil s hs0] at ha
  · rwa [List.getLast?_append_of_ne_nil s ht0] at ha

theorem Tidy.append_space {s t : List Char} (hs : Tidy s) (ht : Tidy t) (hs0 : s ≠ []) (ht0 : t ≠ []) :
    Tidy (s ++ ' ' :: t) := by
  refine ⟨fun a ha => ?_, fun a ha => hs.head a ?_, fun a ha => ht.last a ?_⟩
  · rcases List.mem_append.mp ha with ha | ha
    · exact hs.cntrl a ha
    · rcases List.mem_cons.mp ha with rfl | ha
      · decide
      · exact ht.cntrl a ha
  · rwa [List.head?_append_of_ne_nil s hs0] at ha
  · rwa [List.getLast?_append_of_ne_nil s (List.cons_ne_nil _ _), List.getLast?_cons_of_ne_nil ht0] at ha

/-! ## Searching -/

/-- A search goes past what does not have the character. -/
theorem dropWhile_append {c : Char} {x : List Char} (hx : c ∉ x) (y : List Char) :
    (x ++ y).dropWhile (· ≠ c) = y.dropWhile (· ≠ c) ∧ (x ++ y).takeWhile (· ≠ c) = x ++ y.takeWhile (· ≠ c) := by
  have hall : ∀ a ∈ x, decide (a ≠ c) = true := by
    intro a ha
    exact decide_eq_true fun h => hx (h ▸ ha)
  exact ⟨List.dropWhile_append_of_pos hall, List.takeWhile_append_of_pos hall⟩

theorem dropWhile_of_notMem {c : Char} {x : List Char} (hx : c ∉ x) : x.dropWhile (· ≠ c) = [] := by
  simpa using (dropWhile_append hx []).1

/-- And stops at the first one. -/
theorem dropWhile_append_cons {c : Char} {x : List Char} (hx : c ∉ x) (y : List Char) :
    (x ++ c :: y).dropWhile (· ≠ c) = c :: y ∧ (x ++ c :: y).takeWhile (· ≠ c) = x := by
  rw [(dropWhile_append hx _).1, (dropWhile_append hx _).2]
  simp

theorem findFirstOf_of_notMem {s : List Char} {c : Char} (h : c ∉ s) : findFirstOf s c = -1 := if_neg h

theorem findLastOf_of_notMem {s : List Char} {c : Char} (h : c ∉ s) : findLastOf s c = -1 := if_neg h

theorem findFirstOf_append {s t : List Char} {c : Char} (h : c ∉ s) : findFirstOf (s ++ c :: t) c = toInt s.length := by
  unfold findFirstOf
  rw [if_pos (by simp), List.idxOf_append_of_notMem h, List.idxOf_cons_self, Nat.add_zero]

theorem findLastOf_append {s t : List Char} {c : Char} (h : c ∉ t) : findLastOf (s ++ c :: t) c = toInt s.length := by
  have hrev : (s ++ c :: t).reverse = t.reverse ++ c :: s.reverse := by simp
  unfold findLastOf
  rw [if_pos (by simp), hrev, List.idxOf_append_of_notMem (by simpa using h), List.idxOf_cons_self]
  congr 1
  simp only [List.length_append, List.length_cons, List.length_reverse]
  omega

/-- A character that is no blank, nor the one that is trimmed, is not taken off. -/
theorem mem_trimLoop {a c : Char} (ha : isBlank a = false) (hac : a ≠ c) {pos : ℕ} {arg : List Char} (h : a ∈ arg) :
    a ∈ trimLoop c pos arg := by
  have hkept : ∀ (s : List Char) (i : ℕ), a ∈ s → s.getD i '\x00' ≠ a → a ∈ s.eraseIdx i := by
    intro s i hmem hne
    obtain ⟨j, hj, rfl⟩ := List.mem_iff_getElem.mp hmem
    refine List.mem_eraseIdx_iff_getElem.mpr ⟨j, hj, ?_, rfl⟩
    rintro rfl
    exact hne (List.getD_eq_getElem _ _ hj)
  have hblank : ∀ b : Char, isBlank b = true → b ≠ a := by
    rintro b hb rfl
    rw [ha] at hb
    cases hb
  fun_induction trimLoop c pos arg with
  | case1 => exact h
  | case2 pos arg hlast ih => exact ih (hkept _ _ h (hblank _ hlast))
  | case3 pos arg _ hfirst ih => exact ih (hkept _ _ h (hblank _ hfirst))
  | case4 arg _ _ hends => exact hkept _ _ h (by rw [hends.1]; exact hac.symm)
  | case5 arg pos _ _ hends ih =>
    have hlast := hkept _ _ h (by rw [hends.2]; exact hac.symm)
    refine ih (hkept _ _ hlast ?_)
    cases arg with
    | nil => cases h
    | cons b arg =>
      rw [List.eraseIdx_cons_succ]
      exact hends.1 ▸ hac.symm
  | case6 pos arg =>
    have hcntrl : isCntrl a = false := (Bool.or_eq_false_iff.mp ha).2
    rw [← List.take_append_drop (pos + 1) arg] at h
    rcases List.mem_append.mp h with h | h
    · exact List.mem_append_left _ (List.mem_map.mpr ⟨a, h, by simp [hcntrl]⟩)
    · exact List.mem_append_right _ h

/-- Nothing but blanks comes in. -/
theorem mem_of_mem_trimLoop {a c : Char} {pos : ℕ} {arg : List Char} (h : a ∈ trimLoop c pos arg) :
    a ∈ arg ∨ a = ' ' := by
  fun_induction trimLoop c pos arg with
  | case1 => exact Or.inl h
  | case2 pos arg _ ih => exact (ih h).imp_left List.mem_of_mem_eraseIdx
  | case3 pos arg _ _ ih => exact (ih h).imp_left List.mem_of_mem_eraseIdx
  | case4 => exact Or.inl (List.mem_of_mem_eraseIdx h)
  | case5 arg pos _ _ _ ih => exact (ih h).imp_left fun h => List.mem_of_mem_eraseIdx (List.mem_of_mem_eraseIdx h)
  | case6 pos arg =>
    rcases List.mem_append.mp h with h | h
    · obtain ⟨b, hb, rfl⟩ := List.mem_map.mp h
      split
      · exact Or.inr rfl
      · exact Or.inl (List.mem_of_mem_take hb)
    · exact Or.inl (List.mem_of_mem_drop h)

/-! ## Positions -/

/-- An `int` that is not the position is less than it by a multiple of 2^32. -/
theorem toInt_far {n : ℕ} (h : 2 ^ 31 ≤ n) : toInt n + 2 ^ 32 ≤ n := by
  unfold toInt
  have hlt := Int.bmod_lt (x := n) (m := 2 ^ 32) (by decide)
  obtain ⟨k, hk⟩ := Int.dvd_bmod_sub_self (x := n) (m := 2 ^ 32)
  push_cast at hk hlt ⊢
  omega

/-- A position that is negative in an `int`. -/
theorem toInt_wrapped {n : ℕ} (h : 2 ^ 31 ≤ n) (hn : n < 2 ^ 32) : toInt n = n - 2 ^ 32 := by
  unfold toInt Int.bmod
  dsimp only
  split <;> omega

theorem incr_of_lt {n : ℕ} (h : n + 1 < 2 ^ 31) : incr n = (n + 1 : ℕ) := by
  unfold incr
  rw [Int.bmod_def]
  split <;> push_cast <;> omega

theorem incr_of_eq {n : ℕ} (h : n + 1 = 2 ^ 31) : incr n < 0 := by
  have hn : (n : ℤ) + 1 = 2 ^ 31 := by exact_mod_cast h
  rw [incr, hn]
  decide

theorem substrFrom_append (s t : List Char) : substrFrom (s ++ t) (s.length : ℕ) = some t := by
  unfold substrFrom
  rw [if_pos (by simp), Int.toNat_natCast, List.drop_left]

theorem substrTo_append (s t : List Char) : substrTo (s ++ t) (s.length : ℕ) = s := by
  unfold substrTo
  rw [if_pos (by simp), Int.toNat_natCast, List.take_left]

theorem substrFrom_cons (s t : List Char) (c : Char) : substrFrom (s ++ c :: t) (s.length + 1 : ℕ) = some t := by
  have hsplit : s ++ c :: t = (s ++ [c]) ++ t := by simp
  have hlength : s.length + 1 = (s ++ [c]).length := by simp
  rw [hsplit, hlength, substrFrom_append]

end Lasagne.Daf
