import Lasagne.Taf.NamingAgreement

/-!
# Lasagne.Taf.NamingFrame — what `bind_name` changes

A path is made of components, each of them at least one character without slashes, blanks and control characters.

* `site_pathOf` : where such a path leads, when its last slash is not too far out for an `int`;
* `frame_iff` : `bind_name` changes the binding at the path and makes the contexts on the way that were not there,
  and nothing else, exactly if the last slash is not too far out;
* `agree_of_pathOf` : and then the three operations agree.
-/

namespace Lasagne.Taf.NamingContext

open Lasagne.Daf Lasagne.Taf

variable {ω : Type*} {N N' N'' : Naming ω} {this : Option ℕ} {k : ℕ} {s t u v : List Char} {c last : Name}
  {dirs : List Name} {absolute : Bool}

/-! ## Paths -/

def Component (n : Name) : Prop := n ≠ [] ∧ '/' ∉ n ∧ Plain n

/-- The names that lead to the last one, with a slash behind each of them. -/
def steps (dirs : List Name) : List Char := dirs.flatMap (· ++ ['/'])

/-- What comes in front of the last name of a path. -/
def front (absolute : Bool) (dirs : List Name) : List Char := (if absolute then ['/'] else []) ++ steps dirs

def pathOf (absolute : Bool) (dirs : List Name) (last : Name) : List Char := front absolute dirs ++ last

theorem Component.head?_ne (hc : Component c) (t : List Char) : (c ++ t).head? ≠ some '/' := by
  obtain ⟨hne, hslash, -⟩ := hc
  cases c with
  | nil => exact absurd rfl hne
  | cons a c =>
    intro h
    obtain rfl : a = '/' := Option.some.inj h
    exact hslash List.mem_cons_self

theorem Component.getLast?_ne (hc : Component c) (t : List Char) : (t ++ c).getLast? ≠ some '/' := by
  obtain ⟨hne, hslash, -⟩ := hc
  rw [List.getLast?_append_of_ne_nil _ hne]
  exact fun h => hslash (List.mem_of_getLast? h)

theorem plain_slash : Plain ['/'] := by decide

theorem plain_steps (hdirs : ∀ n ∈ dirs, Component n) : Plain (steps dirs) := by
  intro a ha
  obtain ⟨n, hn, ha⟩ := List.mem_flatMap.mp ha
  exact (hdirs n hn).2.2.append plain_slash a ha

theorem steps_cons (n : Name) (dirs : List Name) : steps (n :: dirs) = n ++ '/' :: steps dirs := by
  simp [steps]

/-! ## Trimming and moving -/

theorem trimContext_eq (hplain : Plain s) (hhead : s.head? ≠ some '/') (hfirst : findFirstOf s '/' ≠ 0) :
    trimContext s = s := by
  unfold trimContext
  rw [if_neg hfirst, trimString_of_plain hplain fun h => hhead h.1]

theorem trimContext_root (hplain : Plain s) (hends : ¬ (s.head? = some '/' ∧ s.getLast? = some '/')) :
    trimContext ('/' :: s) = '/' :: s := by
  have hfirst : findFirstOf ('/' :: s) '/' = 0 := findFirstOf_append (s := []) (by simp)
  unfold trimContext
  rw [if_pos hfirst, List.drop_one, List.tail_cons, trimString_of_plain hplain hends]

theorem trimContext_component (hc : Component c) : trimContext c = c := by
  have hhead := hc.head?_ne []
  rw [List.append_nil] at hhead
  refine trimContext_eq hc.2.2 hhead ?_
  rw [findFirstOf_of_notMem hc.2.1]
  decide

theorem toInt_of_lt {n : ℕ} (h : n < 2 ^ 31) : toInt n = n := toInt_eq_iff.mpr h

theorem trimContext_cons (hc : Component c) (ht : Plain t) (hlen : c.length < 2 ^ 31) :
    trimContext (c ++ '/' :: t) = c ++ '/' :: t := by
  refine trimContext_eq (hc.2.2.append (plain_slash.append ht)) (hc.head?_ne _) ?_
  have hpos := List.length_pos_of_ne_nil hc.1
  rw [findFirstOf_append hc.2.1, toInt_of_lt hlen]
  omega

theorem movesIn_cons (hc : Component c) (ht : Plain t) (hlen : c.length + 1 < 2 ^ 31) :
    movesIn (k + 1) (c ++ '/' :: t) = .down c :: movesIn k t := by
  have hpos := List.length_pos_of_ne_nil hc.1
  have hsplit : c ++ '/' :: t = (c ++ ['/']) ++ t := by simp
  have hlength : (c ++ ['/']).length = c.length + 1 := by simp
  rw [movesIn]
  dsimp only
  rw [trimContext_cons hc ht (by omega), findFirstOf_append hc.2.1, toInt_of_lt (by omega), if_neg (by omega),
    substrTo_append, trimContext_component hc, if_neg hc.1, incr_of_lt hlen, if_pos (by omega)]
  rw [hsplit, ← hlength, substrFrom_append]

theorem movesIn_component (hc : Component c) : movesIn (k + 1) c = [.down c] := by
  rw [movesIn]
  dsimp only
  rw [trimContext_component hc, findFirstOf_of_notMem hc.2.1, if_neg (by decide)]
  have hall : substrTo c (-1) = c := if_neg (by decide)
  rw [hall, trimContext_component hc, if_neg hc.1, if_neg (by decide)]

theorem movesIn_root (hplain : Plain s) (hends : ¬ (s.head? = some '/' ∧ s.getLast? = some '/')) :
    movesIn (k + 1) ('/' :: s) = .root :: movesIn k s := by
  have hfirst : findFirstOf ('/' :: s) '/' = 0 := findFirstOf_append (s := []) (by simp)
  rw [movesIn]
  dsimp only
  rw [trimContext_root hplain hends, if_pos hfirst]
  rfl

theorem movesIn_steps (hdirs : ∀ n ∈ dirs, Component n) (hlen : (steps dirs).length < 2 ^ 31)
    (hk : (steps dirs).length < k) : movesIn k (steps dirs) = dirs.map .down := by
  induction dirs generalizing k with
  | nil =>
    cases k with
    | zero => cases hk
    | succ k => rfl
  | cons n dirs ih =>
    rw [steps_cons] at hlen hk ⊢
    rw [List.length_append, List.length_cons] at hlen hk
    have hrest : ∀ m ∈ dirs, Component m := fun m hm => hdirs m (List.mem_cons_of_mem _ hm)
    cases k with
    | zero => cases hk
    | succ k =>
      rw [movesIn_cons (hdirs n List.mem_cons_self) (plain_steps hrest) (by omega), ih hrest (by omega) (by omega)]
      rfl

/-- Without its last slash the path of a context has the same moves. -/
theorem movesIn_steps_append (hdirs : ∀ n ∈ dirs, Component n) (hc : Component c)
    (hlen : (steps dirs ++ c).length < 2 ^ 31) (hk : (steps dirs ++ c).length < k) :
    movesIn k (steps dirs ++ c) = (dirs ++ [c]).map .down := by
  induction dirs generalizing k with
  | nil =>
    cases k with
    | zero => cases hk
    | succ k => exact movesIn_component hc
  | cons n dirs ih =>
    have hcons : steps (n :: dirs) ++ c = n ++ '/' :: (steps dirs ++ c) := by
      rw [steps_cons, List.append_assoc, List.cons_append]
    rw [hcons] at hlen hk ⊢
    rw [List.length_append, List.length_cons] at hlen hk
    have hrest : ∀ m ∈ dirs, Component m := fun m hm => hdirs m (List.mem_cons_of_mem _ hm)
    cases k with
    | zero => cases hk
    | succ k =>
      rw [movesIn_cons (hdirs n List.mem_cons_self) ((plain_steps hrest).append hc.2.2) (by omega),
        ih hrest (by omega) (by omega)]
      rfl

/-- Where a path starts. -/
def rootMoves (absolute : Bool) : List Move := if absolute then [.root] else []

def startOf (absolute : Bool) (this : Option ℕ) : Option ℕ := if absolute then some 0 else this

theorem steps_append (dirs : List Name) (c : Name) : steps (dirs ++ [c]) = steps dirs ++ c ++ ['/'] := by
  simp [steps]

theorem front_append (absolute : Bool) (dirs : List Name) (c : Name) :
    front absolute (dirs ++ [c]) = front absolute dirs ++ c ++ ['/'] := by
  unfold front
  rw [steps_append]
  simp only [List.append_assoc]

theorem plain_front (hdirs : ∀ n ∈ dirs, Component n) : Plain (front absolute dirs) := by
  unfold front
  cases absolute with
  | false => exact plain_steps hdirs
  | true => exact plain_slash.append (plain_steps hdirs)

theorem moves_front (hdirs : ∀ n ∈ dirs, Component n) (hlen : (front absolute dirs).length < 2 ^ 31) :
    moves (front absolute dirs) = rootMoves absolute ++ dirs.map .down := by
  unfold front rootMoves moves at *
  cases absolute with
  | false => exact movesIn_steps hdirs hlen (Nat.lt_succ_self _)
  | true =>
    have hends : ¬ ((steps dirs).head? = some '/' ∧ (steps dirs).getLast? = some '/') := by
      rintro ⟨hhead, -⟩
      cases dirs with
      | nil => cases hhead
      | cons n dirs =>
        rw [steps_cons] at hhead
        exact (hdirs n List.mem_cons_self).head?_ne _ hhead
    rw [List.length_append] at hlen
    have hmoves := movesIn_root (k := (steps dirs).length + 1) (plain_steps hdirs) hends
    rw [movesIn_steps hdirs (by omega) (Nat.lt_succ_self _)] at hmoves
    exact hmoves

theorem moves_front_append (hdirs : ∀ n ∈ dirs, Component n) (hc : Component c)
    (hlen : (front absolute dirs ++ c).length < 2 ^ 31) :
    moves (front absolute dirs ++ c) = rootMoves absolute ++ (dirs ++ [c]).map .down := by
  unfold front rootMoves moves at *
  cases absolute with
  | false => exact movesIn_steps_append hdirs hc hlen (Nat.lt_succ_self _)
  | true =>
    have hends : ¬ ((steps dirs ++ c).head? = some '/' ∧ (steps dirs ++ c).getLast? = some '/') :=
      fun h => hc.getLast?_ne _ h.2
    rw [List.append_assoc, List.length_append] at hlen
    have hmoves := movesIn_root (k := (steps dirs ++ c).length + 1) ((plain_steps hdirs).append hc.2.2) hends
    rw [movesIn_steps_append hdirs hc (by omega) (Nat.lt_succ_self _)] at hmoves
    exact hmoves

theorem trimContext_pathOf (hdirs : ∀ n ∈ dirs, Component n) (hlast : Component last)
    (hlen : (front absolute dirs).length < 2 ^ 31) :
    trimContext (pathOf absolute dirs last) = pathOf absolute dirs last := by
  unfold pathOf front at *
  cases absolute with
  | true =>
    have hends : ¬ ((steps dirs ++ last).head? = some '/' ∧ (steps dirs ++ last).getLast? = some '/') :=
      fun h => hlast.getLast?_ne _ h.2
    exact trimContext_root ((plain_steps hdirs).append hlast.2.2) hends
  | false =>
    cases dirs with
    | nil => exact trimContext_component hlast
    | cons n dirs =>
      have hcons : steps (n :: dirs) ++ last = n ++ '/' :: (steps dirs ++ last) := by
        rw [steps_cons, List.append_assoc, List.cons_append]
      have hrest : ∀ m ∈ dirs, Component m := fun m hm => hdirs m (List.mem_cons_of_mem _ hm)
      rw [steps_cons] at hlen
      simp only [Bool.false_eq_true, ite_false, List.nil_append, List.length_append] at hlen
      simp only [Bool.false_eq_true, ite_false, List.nil_append, hcons]
      exact trimContext_cons (hdirs n List.mem_cons_self) ((plain_steps hrest).append hlast.2.2) (by omega)

theorem siteIn_component (hc : Component c) : siteIn (k + 1) c = some ⟨[], [], c⟩ := by
  rw [siteIn]
  dsimp only
  rw [trimContext_component hc, if_neg hc.1, findLastOf_of_notMem hc.2.1, if_neg (by decide), if_neg (by decide)]

/-- A name in the root. -/
theorem site_root (hv : Component v) (htrim : trimContext ('/' :: v) = '/' :: v) :
    site ('/' :: v) = some ⟨[.root], [.root], v⟩ := by
  have hlastOf : findLastOf ('/' :: v) '/' = 0 := findLastOf_append (s := []) hv.2.1
  have hrest : siteIn ('/' :: v).length (('/' :: v).drop 1) = some ⟨[], [], v⟩ := siteIn_component hv
  unfold site
  rw [siteIn]
  dsimp only
  rw [htrim, if_neg (List.cons_ne_nil _ _), hlastOf, if_neg (by decide), if_pos rfl, hrest]
  rfl

/-- A name behind a slash: the walk goes to what is in front of it, with the slash and without. -/
theorem site_cut (hv : Component v) (hpos : 0 < u.length) (hlen : u.length + 1 < 2 ^ 31)
    (htrim : trimContext (u ++ '/' :: v) = u ++ '/' :: v) :
    site (u ++ '/' :: v) = some ⟨moves (u ++ ['/']), moves u, v⟩ := by
  have hsplit : u ++ '/' :: v = (u ++ ['/']) ++ v := by rw [List.append_assoc, List.singleton_append]
  have hlength : (u ++ ['/']).length = u.length + 1 := by rw [List.length_append, List.length_singleton]
  have hlastOf : findLastOf (u ++ '/' :: v) '/' = (u.length : ℕ) := by
    rw [findLastOf_append hv.2.1, toInt_of_lt (by omega)]
  have hfrom : substrFrom (u ++ '/' :: v) (u.length + 1 : ℕ) = some v := by
    rw [hsplit, ← hlength, substrFrom_append]
  have hkept : substrTo (u ++ '/' :: v) (u.length + 1 : ℕ) = u ++ ['/'] := by
    rw [hsplit, ← hlength, substrTo_append]
  have hrest : siteIn (u ++ '/' :: v).length v = some ⟨[], [], v⟩ := by
    rw [hsplit, List.length_append, hlength, Nat.add_right_comm]
    exact siteIn_component hv
  unfold site
  rw [siteIn]
  dsimp only
  rw [htrim, if_neg (List.append_ne_nil_of_right_ne_nil _ (List.cons_ne_nil _ _)), hlastOf, if_pos (by omega),
    incr_of_lt hlen, hfrom, hkept, substrTo_append]
  dsimp only
  rw [hrest]
  simp only [Option.map_some, Site.after, List.append_nil]

/-- A path of components leads down along them, with the last slash and without it. -/
theorem site_pathOf (hdirs : ∀ n ∈ dirs, Component n) (hlast : Component last)
    (hlen : (front absolute dirs).length < 2 ^ 31) : site (pathOf absolute dirs last) =
      some ⟨rootMoves absolute ++ dirs.map .down, rootMoves absolute ++ dirs.map .down, last⟩ := by
  have htrim := trimContext_pathOf hdirs hlast hlen
  rcases List.eq_nil_or_concat dirs with rfl | ⟨ds, c, hds⟩
  · cases absolute with
    | false => exact siteIn_component hlast
    | true => exact site_root hlast htrim
  · obtain rfl : dirs = ds ++ [c] := hds.trans (List.concat_eq_append ..)
    have hc : Component c := hdirs c (by simp)
    have hrest : ∀ m ∈ ds, Component m := fun m hm => hdirs m (by simp [hm])
    have hfront := front_append absolute ds c
    have hpath : pathOf absolute (ds ++ [c]) last = (front absolute ds ++ c) ++ '/' :: last := by
      unfold pathOf
      rw [hfront, List.append_assoc _ ['/'], List.singleton_append]
    have hlen' := hlen
    rw [hfront, List.length_append, List.length_singleton] at hlen'
    have hpos : 0 < (front absolute ds ++ c).length := by
      have hcpos := List.length_pos_of_ne_nil hc.1
      rw [List.length_append]
      omega
    rw [hpath] at htrim ⊢
    rw [site_cut hlast hpos hlen' htrim, ← hfront, moves_front hdirs hlen,
      moves_front_append hrest hc (by omega)]

/-! ## A slash too far out -/

theorem trimContext_cut (hu : Plain u) (hv : Component v) :
    ∃ u', u'.length = u.length ∧ Plain u' ∧ trimContext (u ++ '/' :: v) = u' ++ '/' :: v := by
  have hlast (t : List Char) : ¬ ((t ++ '/' :: v).head? = some '/' ∧ (t ++ '/' :: v).getLast? = some '/') := by
    rintro ⟨-, hends⟩
    rw [List.append_cons] at hends
    exact hv.getLast?_ne _ hends
  have hplain {t : List Char} (ht : Plain t) : Plain (t ++ '/' :: v) := ht.append (plain_slash.append hv.2.2)
  unfold trimContext
  split
  · cases u with
    | nil =>
      refine ⟨[], rfl, hu, ?_⟩
      rw [List.nil_append, List.drop_one, List.tail_cons,
        trimString_of_plain hv.2.2 fun h => hv.getLast?_ne [] h.2]
    | cons a t =>
      have ht : Plain t := fun b hb => hu b (List.mem_cons_of_mem _ hb)
      refine ⟨'/' :: t, rfl, plain_slash.append ht, ?_⟩
      rw [List.cons_append, List.drop_one, List.tail_cons, trimString_of_plain (hplain ht) (hlast t)]
      rfl
  · exact ⟨u, rfl, hu, trimString_of_plain (hplain hu) (hlast u)⟩

/-- A negative position is taken for no slash at all. -/
theorem slash_of_neg {σ : Site} (hu : Plain u) (hv : Component v) (hneg : toInt u.length < 0)
    (hσ : siteIn (k + 1) (u ++ '/' :: v) = some σ) : '/' ∈ σ.name := by
  obtain ⟨u', hlength, -, htrim⟩ := trimContext_cut hu hv
  rw [siteIn] at hσ
  dsimp only at hσ
  rw [htrim, if_neg (by simp), findLastOf_append hv.2.1, hlength, if_neg (by omega), if_neg (by omega)] at hσ
  obtain rfl := Option.some.inj hσ
  simp

theorem toInt_neg_one {q : ℕ} (hq : 0 < q) : toInt (2 ^ 32 * q - 1) = -1 := by
  unfold toInt
  rw [Int.bmod_def]
  omega

theorem exists_toInt (n : ℕ) : ∃ q : ℤ, (n : ℤ) = toInt n + 2 ^ 32 * q := by
  refine ⟨(n - toInt n) / 2 ^ 32, ?_⟩
  unfold toInt
  rw [Int.bmod_def]
  split <;> omega

/-- A position that is one short of a multiple of `2 ^ 32` is `-1`. -/
theorem slash_of_short {σ : Site} {q : ℤ} (hu : Plain u) (hv : Component v) (hlen : (u.length : ℤ) = 2 ^ 32 * q - 1)
    (hσ : siteIn k (u ++ '/' :: v) = some σ) : '/' ∈ σ.name := by
  cases k with
  | zero => cases hσ
  | succ k =>
    have hlen' : u.length = 2 ^ 32 * q.toNat - 1 := by omega
    refine slash_of_neg hu hv ?_ hσ
    rw [hlen', toInt_neg_one (by omega)]
    decide

/-- Where `pos++` does not wrap. -/
theorem incr_of_nonneg {pos : ℤ} (h : 0 ≤ incr pos) (hpos : 0 ≤ pos) (hlt : pos < 2 ^ 31) :
    incr pos = pos + 1 ∧ pos + 1 < 2 ^ 31 := by
  unfold incr at *
  rw [Int.bmod_def] at *
  split at h <;> omega

theorem eq_of_substrFrom {pos : ℤ} {rest : List Char} (h : substrFrom s pos = some rest) :
    0 ≤ pos ∧ rest = s.drop pos.toNat := by
  unfold substrFrom at h
  split at h
  · next hpos => exact ⟨hpos.1, (Option.some.inj h).symm⟩
  · cases h

/-- When the last slash is too far out for an `int`, the name that is left has a slash in it. -/
theorem slash_of_far {σ : Site} (hu : Plain u) (hv : Component v) (hfar : 2 ^ 31 ≤ u.length + 1)
    (hσ : siteIn k (u ++ '/' :: v) = some σ) : '/' ∈ σ.name := by
  cases k with
  | zero => cases hσ
  | succ k =>
    obtain ⟨q, hq⟩ := exists_toInt u.length
    have hlt := toInt_lt u.length
    obtain ⟨u', hlength, hu', htrim⟩ := trimContext_cut hu hv
    have hplain (j : ℕ) : Plain (u'.drop j) := fun a ha => hu' a (List.mem_of_mem_drop ha)
    by_cases hneg : toInt u.length < 0
    · exact slash_of_neg hu hv hneg hσ
    -- the next round finds the slash one short of a multiple of 2 ^ 32
    rw [siteIn] at hσ
    dsimp only at hσ
    rw [htrim, if_neg (by simp), findLastOf_append hv.2.1, hlength] at hσ
    split at hσ
    · next hpos =>
      split at hσ
      · next rest hrest =>
        obtain ⟨τ, hτ, rfl⟩ := Option.map_eq_some_iff.mp hσ
        obtain ⟨hnonneg, hdrop⟩ := eq_of_substrFrom hrest
        obtain ⟨hincr, hone⟩ := incr_of_nonneg hnonneg (by omega) hlt
        rw [hdrop, hincr, List.drop_append_of_le_length (by omega)] at hτ
        rw [Site.after_name]
        refine slash_of_short (q := q) (hplain _) hv ?_ hτ
        rw [List.length_drop]
        omega
      · cases hσ
    · next hpos =>
      rw [if_pos (by omega)] at hσ
      obtain ⟨τ, hτ, rfl⟩ := Option.map_eq_some_iff.mp hσ
      rw [List.drop_append_of_le_length (by omega)] at hτ
      rw [Site.after_name]
      refine slash_of_short (q := q) (hplain _) hv ?_ hτ
      rw [List.length_drop]
      omega

/-! ## The frame -/

/-- `N''` is `N` with an object bound to `last` in the context that `dirs` lead to from `start`, where no context
was, and with the contexts on the way that were not there.  Nothing was bound in these, so that what they have now
is on the way too. -/
def Framed (N : Naming ω) (start : Option ℕ) (dirs : List Name) (last : Name) (o : ω) (N'' : Naming ω) : Prop :=
  ∃ c, N''.follow start (dirs.map .down) = .ok (some c) ∧ N''.bindings c last = some (.obj o) ∧
    (∀ d, N.bindings c last ≠ some (.cxt d)) ∧
    ∀ c' n, ¬ (c' = c ∧ n = last) → N''.bindings c' n = N.bindings c' n ∨
      N.bindings c' n = none ∧ (∃ d, N''.bindings c' n = some (.cxt d) ∧ N.next ≤ d) ∧
        ∃ above, above ++ [n] <+: dirs ∧ N''.follow start (above.map .down) = .ok (some c')

theorem make_root (absolute : Bool) (this : Option ℕ) (dirs : List Name) :
    N.make this (rootMoves absolute ++ dirs.map .down) = N.make (startOf absolute this) (dirs.map .down) := by
  cases absolute <;> rfl

/-- A walk down that was made, and an object that was bound where it ended. -/
theorem framed_of_make {start x : Option ℕ} {o : ω} (hmake : N.make start (dirs.map .down) = (.ok x, N'))
    (hre : N'.rebindRef x last (.obj o) = (.ok (), N'')) : Framed N start dirs last o N'' := by
  obtain ⟨c, rfl, hsets, hkind⟩ := Naming.rebindRef_eq_ok hre
  have hgrows := Naming.make_grows hmake
  have hobj (d : ℕ) : N'.bindings c last ≠ some (.cxt d) := by
    intro hd
    obtain ⟨o', ho'⟩ := (hkind _ hd).mp ⟨o, rfl⟩
    cases ho'
  refine ⟨c, Naming.follow_sets_obj hsets hobj (Naming.follow_make_downs hmake), hsets.self,
    fun d hd => hobj d (hgrows.kept hd), fun c' n hne => ?_⟩
  rw [hsets.other hne]
  by_cases heq : N'.bindings c' n = N.bindings c' n
  · exact Or.inl heq
  · obtain ⟨above, hpre, hfollow⟩ := Naming.make_downs_frame hmake heq
    cases hb : N'.bindings c' n with
    | none =>
      cases hb' : N.bindings c' n with
      | none => exact Or.inl rfl
      | some r => cases hb.symm.trans (hgrows.kept hb')
    | some r =>
      rcases hgrows.new hb with hold | ⟨hnone, d, rfl, hle⟩
      · exact absurd (hb.trans hold.symm) heq
      · exact Or.inr ⟨hnone, ⟨d, rfl, hle⟩, above, hpre, Naming.follow_sets_obj hsets hobj hfollow⟩

/-- An object under a name with a slash in it is not part of the frame. -/
theorem not_framed {start : Option ℕ} {o : ω} {d : ℕ} {n : Name} (hlast : Component last) (hslash : '/' ∈ n)
    (hb : N''.bindings d n = some (.obj o)) (hnew : N.bindings d n ≠ some (.obj o)) :
    ¬ Framed N start dirs last o N'' := by
  rintro ⟨y, -, -, -, hframe⟩
  have hne : ¬ (d = y ∧ n = last) := fun h => hlast.2.1 (h.2 ▸ hslash)
  rcases hframe d n hne with hold | ⟨-, ⟨e, he, -⟩, -⟩
  · exact hnew (hold.symm.trans hb)
  · cases hb.symm.trans he

/-- **Frame.**  When `bind_name` has bound an object under a path of components, the service differs from the one
before by that binding and by the contexts on the way that were not there, if the position behind the last slash
fits an `int`; and, where the object was not bound under a name with a slash before, only if it does. -/
theorem frame_iff {o : ω} (hdirs : ∀ n ∈ dirs, Component n) (hlast : Component last)
    (hbind : bindName N this (pathOf absolute dirs last) (some (.obj o)) = (.ok (), N'')) :
    ((front absolute dirs).length < 2 ^ 31 → Framed N (startOf absolute this) dirs last o N'') ∧
    ((∀ c n, '/' ∈ n → N.bindings c n ≠ some (.obj o)) → Framed N (startOf absolute this) dirs last o N'' →
      (front absolute dirs).length < 2 ^ 31) := by
  obtain ⟨σ, x, N', hσ, hmake, hre⟩ := bindName_eq_ok (Nat.lt_succ_self _) hbind
  constructor
  · intro hlen
    obtain rfl := Option.some.inj (hσ.symm.trans (site_pathOf hdirs hlast hlen))
    rw [make_root] at hmake
    exact framed_of_make hmake hre
  · intro hnew hframed
    by_contra hfar
    obtain ⟨u, hfront, hu⟩ : ∃ u, front absolute dirs = u ++ ['/'] ∧ Plain u := by
      rcases List.eq_nil_or_concat dirs with rfl | ⟨ds, c, hds⟩
      · cases absolute with
        | false => exact absurd (by decide) hfar
        | true => exact ⟨[], rfl, by decide⟩
      · obtain rfl : dirs = ds ++ [c] := hds.trans (List.concat_eq_append ..)
        refine ⟨_, front_append absolute ds c, (plain_front fun m hm => hdirs m (by simp [hm])).append ?_⟩
        exact (hdirs c (by simp)).2.2
    have hpath : pathOf absolute dirs last = u ++ '/' :: last := by
      unfold pathOf
      rw [hfront, List.append_assoc, List.singleton_append]
    rw [hfront, List.length_append, List.length_singleton] at hfar
    rw [hpath] at hσ
    have hslash := slash_of_far hu hlast (by omega) hσ
    obtain ⟨c, rfl, hsets, hkind⟩ := Naming.rebindRef_eq_ok hre
    exact not_framed hlast hslash hsets.self (hnew c σ.name hslash) hframed

theorem agree_of_pathOf {r : Ref ω} (hN : N.Acyclic) (hdirs : ∀ n ∈ dirs, Component n) (hlast : Component last)
    (hlen : (front absolute dirs).length < 2 ^ 31)
    (hbind : bindName N this (pathOf absolute dirs last) (some r) = (.ok (), N'')) :
    Agree N'' this (pathOf absolute dirs last) r := by
  have hσ := site_pathOf hdirs hlast hlen
  have hstraight : rootMoves absolute ++ dirs.map .down = dirs.map .down ∨
      rootMoves absolute ++ dirs.map .down = .root :: dirs.map .down := by
    cases absolute
    · exact Or.inl rfl
    · exact Or.inr rfl
  obtain ⟨σ, c, hσ', hkept, hdropped⟩ := met_of_straight hN hbind hσ rfl hstraight
  obtain ⟨τ, c', N', hτ, hmake, hsets⟩ := exists_of_bindName hbind
  obtain rfl := Option.some.inj (hσ'.symm.trans hτ)
  obtain rfl := Option.some.inj (Naming.follow_of_make hN hmake hsets hkept)
  exact agree_of_met hσ' hsets.self hkept hdropped

theorem component_a : Component ['a'] := ⟨by decide, by decide, by decide⟩

/-- On a service with one context an object is bound two contexts below it. -/
theorem frame_iff_two : ∃ N : Naming ℕ,
    bindName Naming.empty (some 0) (pathOf true [['a'], ['a']] ['a']) (some (.obj 7)) = (.ok (), N) ∧
    Framed Naming.empty (some 0) [['a'], ['a']] ['a'] 7 N := by
  have hdirs : ∀ n ∈ [['a'], ['a']], Component n := by
    simp only [List.mem_cons, List.not_mem_nil, or_false, or_self, forall_eq]
    exact component_a
  have hlen : (front true [['a'], ['a']]).length < 2 ^ 31 := by decide
  have hσ := site_pathOf hdirs component_a hlen
  have hmake : (Naming.empty : Naming ℕ).make (some 0) (rootMoves true ++ [['a'], ['a']].map .down) =
    (.ok (some 2), _) := rfl
  have hbind : bindName (Naming.empty : Naming ℕ) (some 0) (pathOf true [['a'], ['a']] ['a']) (some (.obj 7)) =
    (.ok (), _) := (bindName_eq hσ hmake).trans rfl
  exact ⟨_, hbind, (frame_iff hdirs component_a hbind).1 hlen⟩

/-- A slash at a position that is taken for none. -/
theorem siteIn_far (hu : Component u) (hv : Component v) (hneg : toInt u.length < 0) :
    siteIn (k + 1) (u ++ '/' :: v) = some ⟨[], [], u ++ '/' :: v⟩ := by
  have htrim : trimContext (u ++ '/' :: v) = u ++ '/' :: v := by
    refine trimContext_eq (hu.2.2.append (plain_slash.append hv.2.2)) (hu.head?_ne _) ?_
    rw [findFirstOf_append hu.2.1]
    omega
  rw [siteIn]
  dsimp only
  rw [htrim, if_neg (by simp), findLastOf_append hv.2.1, if_neg (by omega), if_neg (by omega)]

/-- Behind a context with a name of 2 ^ 31 letters nothing can be bound: the object gets the whole path for a name,
in the context that `bind_name` was called on. -/
theorem frame_fails_far : ∃ (dir : Name) (N : Naming ℕ), Component dir ∧ dir.length = 2 ^ 31 ∧
    bindName Naming.empty (some 0) (pathOf false [dir] ['a']) (some (.obj 7)) = (.ok (), N) ∧
    N.bindings 0 (pathOf false [dir] ['a']) = some (.obj 7) ∧ ¬ Framed Naming.empty (some 0) [dir] ['a'] 7 N := by
  obtain ⟨dir, hdir, hlength⟩ : ∃ dir, Component dir ∧ dir.length = 2 ^ 31 := by
    refine ⟨List.replicate (2 ^ 31) 'a', ⟨?_, ?_, ?_⟩, List.length_replicate⟩
    · rw [ne_eq, List.replicate_eq_nil_iff]
      decide
    · rw [List.mem_replicate]
      decide
    · intro a ha
      obtain rfl := (List.mem_replicate.mp ha).2
      decide
  have hpath : pathOf false [dir] ['a'] = dir ++ '/' :: ['a'] := by
    simp [pathOf, front, steps]
  have hneg : toInt dir.length < 0 := by
    rw [hlength]
    decide
  have hσ : site (dir ++ '/' :: ['a']) = _ := siteIn_far hdir component_a hneg
  have hmake : (Naming.empty : Naming ℕ).make (some 0) [] = (.ok (some 0), Naming.empty) := rfl
  obtain ⟨N, hbind, hthere⟩ : ∃ N : Naming ℕ,
      bindName Naming.empty (some 0) (dir ++ '/' :: ['a']) (some (.obj 7)) = (.ok (), N) ∧
      N.bindings 0 (dir ++ '/' :: ['a']) = some (.obj 7) :=
    ⟨_, (bindName_eq hσ hmake).trans rfl, if_pos ⟨rfl, rfl⟩⟩
  rw [← hpath] at hbind hthere
  refine ⟨dir, N, hdir, hlength, hbind, hthere, not_framed component_a ?_ hthere ?_⟩
  · rw [hpath]
    exact List.mem_append_right _ List.mem_cons_self
  · intro h
    cases h

end Lasagne.Taf.NamingContext
