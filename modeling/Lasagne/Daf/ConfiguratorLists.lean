import Lasagne.Daf.Configurator
import Mathlib.Data.List.Basic

/-!
# Lasagne.Daf.ConfiguratorLists — what is in a list of profiles or sections

The loop over a list keeps its positions in an `int`, and stops at the position 0 as it does at the end.

* `separateLoop_eq` : the loop takes the pieces of an argument, unless it begins with the separator;
* `separateLoop_far` : and where the first separator is too far behind it takes the whole argument for one piece.
-/

namespace Lasagne.Daf

/-- The pieces between the separators, trimmed, without the empty ones. -/
def pieces (c : Char) (arg : Text) : List Text := ((arg.splitOn c).map (trimString · ' ')).filter (· ≠ [])

/-- What the loop takes out of an argument: it gives up one that begins with the separator. -/
def separated (c : Char) (arg : Text) : List Text := if arg.head? = some c then [] else pieces c arg

/-- No separator stands where an `int` does not hold the position behind it. -/
def Close (c : Char) (arg : Text) : Prop := ∀ x y, arg = x ++ c :: y → x.length + 1 < 2 ^ 31

theorem close_of_length {c : Char} {arg : Text} (h : arg.length < 2 ^ 31) : Close c arg := by
  rintro x y rfl
  rw [List.length_append, List.length_cons] at h
  omega

/-- A text up to a character, and after it. -/
theorem around {c : Char} {s : Text} (h : c ∈ s) : ∃ x y, c ∉ x ∧ s = x ++ c :: y := by
  obtain ⟨x, y, hs, hx⟩ := List.eq_append_cons_of_mem h
  exact ⟨x, y, hx, hs⟩

theorem pieces_of_notMem {c : Char} {s : Text} (h : c ∉ s) : pieces c s = [trimString s ' '].filter (· ≠ []) := by
  unfold pieces
  rw [List.splitOn_eq_singleton h]
  rfl

theorem pieces_append {c : Char} {x y : Text} (h : c ∉ x) :
    pieces c (x ++ c :: y) = [trimString x ' '].filter (· ≠ []) ++ pieces c y := by
  unfold pieces
  rw [List.splitOn_append_cons_self, List.splitOn_eq_singleton h, List.map_append, List.filter_append]
  rfl

theorem push_eq (list : List Text) (piece : Text) :
    (if piece ≠ [] then list ++ [piece] else list) = list ++ [piece].filter (· ≠ []) := by
  by_cases hpiece : piece = [] <;> simp [hpiece]

/-- A distance between two positions. -/
theorem asInt_distance {a b : ℕ} (h : a + b < 2 ^ 31) : asInt (((a + b : ℕ) : ℤ) - a) = b := by
  rw [asInt_eq_iff.mpr (by omega)]
  omega

/-- The loop from any position but a separator at the front. -/
theorem separateLoop_from {c : Char} {arg : Text} (hclose : Close c arg) {fuel pos : ℕ} {list : List Text}
    (hfuel : (arg.drop pos).length < fuel) (hpos : 0 < pos ∨ (arg.drop pos).head? ≠ some c) (hint : pos < 2 ^ 31) :
    separateLoop c arg fuel pos list = some (list ++ pieces c (arg.drop pos)) := by
  induction fuel generalizing pos list with
  | zero => omega
  | succ fuel ih =>
    have hthere : ¬ (pos : ℤ) < 0 := by omega
    rw [separateLoop, if_neg hthere]
    dsimp only
    rw [push_eq, Int.toNat_natCast]
    by_cases hc : c ∈ arg.drop pos
    · obtain ⟨x, y, hx, hsplit⟩ := around hc
      have harg : arg = (arg.take pos ++ x) ++ c :: y := by rw [List.append_assoc, ← hsplit, List.take_append_drop]
      have hlen : pos ≤ arg.length := by
        by_contra hlong
        rw [List.drop_of_length_le (by omega)] at hc
        cases hc
      have hnear : pos + x.length + 1 < 2 ^ 31 := by
        have hpos' := hclose _ _ harg
        rwa [List.length_append, List.length_take_of_le hlen] at hpos'
      have hfind : intFind arg c pos = (pos + x.length : ℕ) := by
        rw [intFind, if_pos hc, hsplit, List.idxOf_append_of_notMem hx, List.idxOf_cons_self]
        exact toInt_eq_iff.mpr (by omega)
      have hsub : substr arg pos x.length = x := by
        rw [substr, if_pos (by omega), Int.toNat_natCast, Int.toNat_natCast, hsplit]
        simp
      have hrest : arg.drop (pos + x.length + 1) = y := by
        rw [Nat.add_assoc, ← List.drop_drop, hsplit]
        simp
      have hgoes : ((pos + x.length : ℕ) : ℤ) > 0 := by
        rcases hpos with hpos | hpos
        · omega
        · cases x with
          | nil => simp [hsplit] at hpos
          | cons a x =>
            rw [List.length_cons]
            omega
      have hshorter : (arg.drop (pos + x.length + 1)).length < fuel := by
        rw [hrest]
        rw [hsplit, List.length_append, List.length_cons] at hfuel
        omega
      rw [hfind, asInt_distance (by omega), hsub, if_pos hgoes, incr_of_lt (by omega),
        ih hshorter (Or.inl (by omega)) (by omega), hrest, hsplit, pieces_append hx, List.append_assoc]
    · have hfind : intFind arg c pos = -1 := if_neg hc
      have hsub : substr arg pos (asInt (-1 - pos)) = arg.drop pos := by
        rw [asInt_eq_iff.mpr (by omega), substr, if_neg (by omega), Int.toNat_natCast]
      rw [hfind, hsub, if_neg (by omega), pieces_of_notMem hc]

/-- The loop takes the pieces of an argument, unless it begins with the separator. -/
theorem separateLoop_eq {c : Char} {arg : Text} (hclose : Close c arg) {fuel : ℕ} (hfuel : arg.length < fuel)
    (list : List Text) : separateLoop c arg fuel 0 list = some (list ++ separated c arg) := by
  unfold separated
  split_ifs with hhead
  · obtain ⟨rest, rfl⟩ : ∃ rest, arg = c :: rest := by
      cases arg with
      | nil => cases hhead
      | cons a rest => exact ⟨rest, by rw [Option.some.inj hhead]⟩
    obtain ⟨fuel, rfl⟩ := Nat.exists_eq_succ_of_ne_zero (Nat.ne_zero_of_lt hfuel)
    -- found at 0, so the loop ends there with an empty piece
    have hfind : intFind (c :: rest) c 0 = 0 := by
      rw [intFind, List.drop_zero, if_pos List.mem_cons_self, List.idxOf_cons_self]
      rfl
    have hsub : substr (c :: rest) 0 (asInt (0 - 0)) = [] := rfl
    have hnil : trimString [] ' ' = [] := rfl
    rw [separateLoop, if_neg (lt_irrefl 0)]
    dsimp only
    rw [Int.toNat_zero, hfind, hsub, hnil, if_neg (lt_irrefl 0), push_eq]
    rfl
  · have hint : (0 : ℕ) < 2 ^ 31 := by decide
    exact @separateLoop_from _ _ hclose _ 0 _ hfuel (Or.inr hhead) hint

theorem separateLoop_mono {c : Char} {arg : Text} {fuel fuel' : ℕ} (hfuel : fuel ≤ fuel') {pos : ℤ}
    {list list' : List Text} (h : separateLoop c arg fuel pos list = some list') :
    separateLoop c arg fuel' pos list = some list' := by
  induction fuel generalizing fuel' pos list with
  | zero => cases h
  | succ fuel ih =>
    obtain ⟨fuel', rfl⟩ := Nat.exists_eq_add_of_le' hfuel
    change separateLoop c arg (fuel' + fuel + 1) pos list = some list'
    rw [separateLoop] at h ⊢
    dsimp only at h ⊢
    split_ifs at h ⊢
    all_goals first | exact ih (by omega) h | exact h

theorem separateEach_mono {c : Char} {fuel fuel' : ℕ} (hfuel : fuel ≤ fuel') {args list list' : List Text}
    (h : separateEach c fuel args list = some list') : separateEach c fuel' args list = some list' := by
  induction args generalizing list with
  | nil => exact h
  | cons arg args ih =>
    rw [separateEach] at h ⊢
    split_ifs at h ⊢
    · split at h
      · cases h
      · next hloop =>
        rw [separateLoop_mono hfuel hloop]
        exact ih h
    · exact ih h

/-- The loop over the arguments takes what the loop over each of them does. -/
theorem separateEach_eq {c : Char} {args : List Text} (hclose : ∀ arg ∈ args, Close c arg) :
    ∃ fuel₀, ∀ fuel ≥ fuel₀, ∀ list, separateEach c fuel args list = some (list ++ args.flatMap (separated c)) := by
  induction args with
  | nil => exact ⟨0, fun fuel _ list => by rw [separateEach, List.flatMap_nil, List.append_nil]⟩
  | cons arg args ih =>
    obtain ⟨fuel₀, hargs⟩ := ih fun arg harg => hclose arg (List.mem_cons_of_mem _ harg)
    refine ⟨max (arg.length + 1) fuel₀, fun fuel hfuel list => ?_⟩
    rw [separateEach, List.flatMap_cons]
    split_ifs with harg
    · rw [separateLoop_eq (hclose arg List.mem_cons_self) (by omega) list]
      dsimp only
      rw [hargs fuel (by omega), List.append_assoc]
    · rw [not_not] at harg
      rw [hargs fuel (by omega), harg]
      rfl

theorem flatMap_separated_length_le (c : Char) (args : List Text) :
    (args.flatMap (separated c)).length ≤ (args.flatMap (pieces c)).length := by
  induction args with
  | nil => exact le_rfl
  | cons arg args ih =>
    have hone : (separated c arg).length ≤ (pieces c arg).length := by
      unfold separated
      split
      · exact Nat.zero_le _
      · exact le_rfl
    rw [List.flatMap_cons, List.flatMap_cons, List.length_append, List.length_append]
    omega

theorem flatMap_separated_iff (c : Char) (args : List Text) :
    args.flatMap (separated c) = args.flatMap (pieces c) ↔
      ∀ arg ∈ args, arg.head? = some c → pieces c arg = [] := by
  induction args with
  | nil => simp
  | cons arg args ih =>
    rw [List.flatMap_cons, List.flatMap_cons, List.forall_mem_cons, ← ih]
    by_cases hhead : arg.head? = some c
    · have hsep : separated c arg = [] := if_pos hhead
      rw [hsep, List.nil_append]
      constructor
      · intro h
        have hlen := congrArg List.length h
        rw [List.length_append] at hlen
        have hle := flatMap_separated_length_le c args
        have hnil : pieces c arg = [] := List.eq_nil_of_length_eq_zero (by omega)
        rw [hnil, List.nil_append] at h
        exact ⟨fun _ => hnil, h⟩
      · rintro ⟨hnil, h⟩
        rw [hnil hhead, h]
        rfl
    · have hsep : separated c arg = pieces c arg := if_neg hhead
      rw [hsep, List.append_cancel_left_eq]
      exact ⟨fun h => ⟨fun hc => absurd hc hhead, h⟩, fun h => h.2⟩

/-- The list is the one of the pieces exactly if no argument that begins with the separator has one. -/
theorem separateEach_iff {c : Char} {args : List Text} (hclose : ∀ arg ∈ args, Close c arg) (list : List Text) :
    (∃ fuel, separateEach c fuel args list = some (list ++ args.flatMap (pieces c))) ↔
      ∀ arg ∈ args, arg.head? = some c → pieces c arg = [] := by
  rw [← flatMap_separated_iff]
  obtain ⟨fuel₀, htaken⟩ := separateEach_eq hclose
  constructor
  · rintro ⟨fuel, h⟩
    have hmax := separateEach_mono (le_max_left fuel fuel₀) h
    rw [htaken _ (le_max_right fuel fuel₀), Option.some.injEq, List.append_cancel_left_eq] at hmax
    exact hmax
  · intro h
    exact ⟨fuel₀, by rw [htaken fuel₀ le_rfl, h]⟩

/-- No piece has the separator in it. -/
theorem notMem_of_mem_pieces {c : Char} (hblank : isBlank c = false) {arg piece : Text} (h : piece ∈ pieces c arg) :
    c ∉ piece := by
  have hone : ∀ x : Text, c ∉ x → piece ∈ [trimString x ' '].filter (· ≠ []) → c ∉ piece := by
    intro x hx hpiece hmem
    obtain rfl := List.mem_singleton.mp (List.mem_filter.mp hpiece).1
    rcases mem_of_mem_trimLoop hmem with hmem | rfl
    · exact hx hmem
    · cases hblank
  induction hlen : arg.length using Nat.strong_induction_on generalizing arg with
  | _ n ih =>
    by_cases hc : c ∈ arg
    · obtain ⟨x, y, hx, rfl⟩ := around hc
      rw [pieces_append hx] at h
      rcases List.mem_append.mp h with h | h
      · exact hone x hx h
      · refine ih y.length ?_ h rfl
        rw [← hlen, List.length_append, List.length_cons]
        omega
    · rw [pieces_of_notMem hc] at h
      exact hone arg hc h

/-- Where the first separator is so far behind that its position is negative in an `int`, the argument is taken whole. -/
theorem separateLoop_far {c : Char} (hblank : isBlank c = false) {x y : Text} (hx : c ∉ x) (hfar : 2 ^ 31 ≤ x.length)
    (hlen : x.length < 2 ^ 32) {fuel : ℕ} {list list' : List Text}
    (h : separateLoop c (x ++ c :: y) fuel 0 list = some list') : list' ≠ list ++ pieces c (x ++ c :: y) := by
  have hfind : intFind (x ++ c :: y) c 0 = x.length - 2 ^ 32 := by
    rw [intFind, List.drop_zero, if_pos (by simp), List.idxOf_append_of_notMem hx, List.idxOf_cons_self, zero_add,
      add_zero]
    exact toInt_wrapped hfar hlen
  have hcount : asInt (x.length - 2 ^ 32 - 0) = x.length - 2 ^ 32 := by
    rw [sub_zero, asInt_eq_iff.mpr (by omega)]
  have htrim : c ∈ trimString (x ++ c :: y) ' ' := by
    refine mem_trimLoop hblank ?_ (by simp)
    rintro rfl
    cases hblank
  cases fuel with
  | zero => cases h
  | succ fuel =>
    have hsub : substr (x ++ c :: y) 0 (x.length - 2 ^ 32) = x ++ c :: y := if_neg (by omega)
    rw [separateLoop, if_neg (by omega)] at h
    dsimp only at h
    rw [Int.toNat_zero, hfind, hcount, hsub, if_neg (by omega), push_eq] at h
    rintro rfl
    have hall := List.append_cancel_left (Option.some.inj h)
    have hpiece : trimString (x ++ c :: y) ' ' ∈ pieces c (x ++ c :: y) := by
      rw [← hall]
      exact List.mem_filter.mpr ⟨List.mem_singleton_self _, decide_eq_true (List.ne_nil_of_mem htrim)⟩
    exact notMem_of_mem_pieces hblank hpiece htrim

/-- **Lists.**  Where no separator is too far behind, the profiles and the sections of an argument are the pieces of its
tokens, in order, exactly if no token that begins with the separator has a piece; and a token of which the first
separator is too far behind does not come to its pieces. -/
theorem make_config_lists_iff (host : Host) (arg : Text) (sections : List Text) :
    ((∀ token ∈ host.argv true arg, Close ';' token) →
      ((∃ fuel, host.makeConfigProfiles fuel arg = some ((host.argv true arg).flatMap (pieces ';'))) ↔
        ∀ token ∈ host.argv true arg, token.head? = some ';' → pieces ';' token = [])) ∧
    ((∀ token ∈ host.argv true arg, Close ',' token) →
      ((∃ fuel, host.makeConfigSections fuel arg sections =
          some (sections ++ (host.argv true arg).flatMap (pieces ','))) ↔
        ∀ token ∈ host.argv true arg, token.head? = some ',' → pieces ',' token = [])) ∧
    ∀ c x y, isBlank c = false → c ∉ x → 2 ^ 31 ≤ x.length → x.length < 2 ^ 32 → ∀ fuel list list',
      separateLoop c (x ++ c :: y) fuel 0 list = some list' → list' ≠ list ++ pieces c (x ++ c :: y) :=
  ⟨fun hclose => separateEach_iff hclose [], fun hclose => separateEach_iff hclose sections,
    fun _ _ _ hblank hx hfar hlen _ _ _ => separateLoop_far hblank hx hfar hlen⟩

theorem make_config_lists_iff_two : ∃ fuel, Host.bareHost.makeConfigSections fuel ['a', ',', ',', 'b', ','] [['c']] =
    some [['c'], ['a'], ['b']] :=
  ((make_config_lists_iff Host.bareHost ['a', ',', ',', 'b', ','] [['c']]).2.1 fun token htoken =>
    close_of_length (by
      obtain rfl := List.mem_singleton.mp htoken
      decide)).mpr (by decide)

/-- The section `b` is lost. -/
theorem make_config_lists_fail : ¬ ∀ (host : Host) (arg : Text) (sections : List Text),
    ∃ fuel, host.makeConfigSections fuel arg sections = some (sections ++ (host.argv true arg).flatMap (pieces ',')) := by
  intro h
  have hclose : ∀ token ∈ Host.bareHost.argv true [',', 'b'], Close ',' token := by
    intro token htoken
    obtain rfl := List.mem_singleton.mp htoken
    exact close_of_length (by decide)
  have hnone := (separateEach_iff hclose []).mp (h Host.bareHost [',', 'b'] []) [',', 'b'] (by decide) rfl
  revert hnone
  decide

end Lasagne.Daf
