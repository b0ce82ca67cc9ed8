import Lasagne.Daf.TrimString
import Lasagne.Taf.CosNaming

/-!
# Lasagne.Taf.NamingContext — `TAF::NamingContext`, paths into a naming service

A path is cut at its slashes, trimmed and walked; a context is `this`, nil or not.

* `findContext_eq`, `bindContext_eq` : `find_context` follows the `moves` of its path, and `bind_context` makes them;
* `bindName_eq`, `unbindName_eq`, `resolveName_eq` : the three operations on names go to the `site` of their path:
  `bind_name` and `unbind_name` with the last slash of what is in front of the name, `resolve_name` without.
-/

namespace Lasagne.Taf.NamingContext

open Lasagne.Daf Lasagne.Taf

variable {ω : Type*}

/-! ## The model -/

def trimContext (context : List Char) : List Char :=
  if findFirstOf context '/' = 0 then '/' :: trimString (context.drop 1) '/' else trimString context '/'

theorem ne_nil_of_findFirstOf {s : List Char} (h : findFirstOf s '/' = 0) : 0 < s.length := by
  cases s with
  | nil => cases h
  | cons a s => exact Nat.succ_pos _

theorem length_trimContext_le (s : List Char) : (trimContext s).length ≤ s.length := by
  unfold trimContext
  split
  · next h =>
    have hle := length_trimString_le (s.drop 1) '/'
    have hpos := ne_nil_of_findFirstOf h
    rw [List.length_drop] at hle
    rw [List.length_cons]
    omega
  · exact length_trimString_le s '/'

theorem length_drop_lt {s : List Char} (h : findFirstOf (trimContext s) '/' = 0) :
    ((trimContext s).drop 1).length < s.length := by
  have hle := length_trimContext_le s
  have hpos := ne_nil_of_findFirstOf h
  rw [List.length_drop]
  omega

theorem length_substrFrom_lt {s rest : List Char} {pos : ℤ} (h : substrFrom (trimContext s) pos = some rest)
    (hpos : pos ≠ 0) : rest.length < s.length := by
  have hle := length_trimContext_le s
  unfold substrFrom at h
  split at h
  · obtain rfl := Option.some.inj h
    rw [List.length_drop]
    omega
  · cases h

theorem findLastOf_lt (s : List Char) (c : Char) : findLastOf s c < 2 ^ 31 := by
  unfold findLastOf
  split
  · exact toInt_lt _
  · decide

theorem incr_ne_zero {pos : ℤ} (hpos : 0 < pos) (hlt : pos < 2 ^ 31) : incr pos ≠ 0 := by
  unfold incr
  rw [Int.bmod_def]
  split <;> omega

theorem length_drop_lt' {s : List Char} (h : findLastOf (trimContext s) '/' = 0) :
    ((trimContext s).drop 1).length < s.length := by
  have hle := length_trimContext_le s
  have hpos : 0 < (trimContext s).length := by
    cases hs : trimContext s with
    | nil =>
      rw [hs] at h
      cases h
    | cons a t => exact Nat.succ_pos _
  rw [List.length_drop]
  omega

/-- `find_context`, called on `this`. -/
def findContext (N : Naming ω) (this : Option ℕ) (cxt_pathname : List Char) : Except NamingErr (Option ℕ) :=
  let cxt_path := trimContext cxt_pathname
  let pos := findFirstOf cxt_path '/'
  if _hpos : pos = 0 then findContext N (some 0) (cxt_path.drop 1)
  else
    let cxt_name := trimContext (substrTo cxt_path pos)
    if cxt_name = [] then .ok this
    else
      match N.resolve this cxt_name with
      | .ok (.cxt cxt_obj) =>
        if _hnext : incr pos ≠ 0 then
          match _hrest : substrFrom cxt_path (incr pos) with
          | some rest => findContext N (some cxt_obj) rest
          | none => .error .outOfRange
        else .ok (some cxt_obj)
      | .ok (.obj _) => .error .notFound
      | .error e => .error e
termination_by cxt_pathname.length
decreasing_by
  · exact length_drop_lt _hpos
  · exact length_substrFrom_lt _hrest _hnext

def bindContext (N : Naming ω) (this : Option ℕ) (cxt_pathname : List Char) :
    Except NamingErr (Option ℕ) × Naming ω :=
  let cxt_path := trimContext cxt_pathname
  let pos := findFirstOf cxt_path '/'
  if _hpos : pos = 0 then bindContext N (some 0) (cxt_path.drop 1)
  else
    let cxt_name := trimContext (substrTo cxt_path pos)
    if cxt_name = [] then (.ok this, N)
    else
      match N.enter this cxt_name with
      | (.ok cxt_obj, N') =>
        if _hnext : incr pos ≠ 0 then
          match _hrest : substrFrom cxt_path (incr pos) with
          | some rest => bindContext N' cxt_obj rest
          | none => (.error .outOfRange, N')
        else (.ok cxt_obj, N')
      | (.error e, N') => (.error e, N')
termination_by cxt_pathname.length
decreasing_by
  · exact length_drop_lt _hpos
  · exact length_substrFrom_lt _hrest _hnext

/-- `bind_name`: a nil object is not bound, but the contexts on the way are made for it too. -/
def bindName (N : Naming ω) (this : Option ℕ) (obj_pathname : List Char) (obj : Option (Ref ω)) :
    Except NamingErr Unit × Naming ω :=
  let obj_name := trimContext obj_pathname
  if obj_name = [] then (.error .badParam, N)
  else
    let pos := findLastOf obj_name '/'
    if _hpos : 0 < pos then
      match bindContext N this (substrTo obj_name (incr pos)) with
      | (.ok cxt, N') =>
        match _hrest : substrFrom obj_name (incr pos) with
        | some rest => bindName N' cxt rest obj
        | none => (.error .outOfRange, N')
      | (.error e, N') => (.error e, N')
    else if _hzero : pos = 0 then bindName N (some 0) (obj_name.drop 1) obj
    else
      match obj with
      | none => (.ok (), N)
      | some r => N.rebindRef this obj_name r
termination_by obj_pathname.length
decreasing_by
  · exact length_substrFrom_lt _hrest (incr_ne_zero _hpos (findLastOf_lt _ _))
  · exact length_drop_lt' _hzero

def unbindName (N : Naming ω) (this : Option ℕ) (obj_pathname : List Char) : Except NamingErr Unit × Naming ω :=
  let obj_name := trimContext obj_pathname
  if obj_name = [] then (.error .badParam, N)
  else
    let pos := findLastOf obj_name '/'
    if _hpos : 0 < pos then
      match findContext N this (substrTo obj_name (incr pos)) with
      | .ok cxt =>
        match _hrest : substrFrom obj_name (incr pos) with
        | some rest => unbindName N cxt rest
        | none => (.error .outOfRange, N)
      | .error e => (.error e, N)
    else if _hzero : pos = 0 then unbindName N (some 0) (obj_name.drop 1)
    else N.unbind this obj_name
termination_by obj_pathname.length
decreasing_by
  · exact length_substrFrom_lt _hrest (incr_ne_zero _hpos (findLastOf_lt _ _))
  · exact length_drop_lt' _hzero

/-- `resolve_name`: here the slash in front of the name is not part of what `find_context` is called with. -/
def resolveName (N : Naming ω) (this : Option ℕ) (obj_pathname : List Char) : Except NamingErr (Ref ω) :=
  let obj_name := trimContext obj_pathname
  if obj_name = [] then .error .notFound
  else
    let pos := findLastOf obj_name '/'
    if _hpos : 0 < pos then
      match findContext N this (substrTo obj_name pos) with
      | .ok cxt =>
        match _hrest : substrFrom obj_name (incr pos) with
        | some rest => resolveName N cxt rest
        | none => .error .outOfRange
      | .error e => .error e
    else if _hzero : pos = 0 then resolveName N (some 0) (obj_name.drop 1)
    else N.resolve this obj_name
termination_by obj_pathname.length
decreasing_by
  · exact length_substrFrom_lt _hrest (incr_ne_zero _hpos (findLastOf_lt _ _))
  · exact length_drop_lt' _hzero

/-! ## The moves of a path -/

/-- The moves of a path, the first `k` at least. -/
def movesIn : ℕ → List Char → List Move
  | 0, _ => []
  | k + 1, cxt_pathname =>
    let cxt_path := trimContext cxt_pathname
    let pos := findFirstOf cxt_path '/'
    if pos = 0 then .root :: movesIn k (cxt_path.drop 1)
    else
      let cxt_name := trimContext (substrTo cxt_path pos)
      if cxt_name = [] then []
      else if incr pos ≠ 0 then
        match substrFrom cxt_path (incr pos) with
        | some rest => .down cxt_name :: movesIn k rest
        | none => [.down cxt_name, .beyond]
      else [.down cxt_name]

def moves (s : List Char) : List Move := movesIn (s.length + 1) s

theorem findContext_eq_follow {N : Naming ω} {k : ℕ} {s : List Char} (hk : s.length < k) (this : Option ℕ) :
    findContext N this s = N.follow this (movesIn k s) := by
  induction k generalizing s this with
  | zero => cases hk
  | succ k ih =>
    rw [findContext, movesIn]
    dsimp only
    split
    · next hpos =>
      have hlt := length_drop_lt hpos
      exact ih (by omega) (some 0)
    split
    · rfl
    by_cases hnext : incr (findFirstOf (trimContext s) '/') = 0
    · simp only [hnext, ne_eq, not_true_eq_false, dite_false, ite_false]
      rfl
    · simp only [hnext, ne_eq, not_false_eq_true, dite_true, ite_true]
      cases hrest : substrFrom (trimContext s) (incr (findFirstOf (trimContext s) '/')) with
      | none =>
        rfl
      | some rest =>
        have hlt := length_substrFrom_lt hrest hnext
        simp only [ih (show rest.length < k by omega)]
        rfl

theorem bindContext_eq_make {N : Naming ω} {k : ℕ} {s : List Char} (hk : s.length < k) (this : Option ℕ) :
    bindContext N this s = N.make this (movesIn k s) := by
  induction k generalizing N s this with
  | zero => cases hk
  | succ k ih =>
    rw [bindContext, movesIn]
    dsimp only
    split
    · next hpos =>
      have hlt := length_drop_lt hpos
      exact ih (by omega) (some 0)
    split
    · rfl
    by_cases hnext : incr (findFirstOf (trimContext s) '/') = 0
    · simp only [hnext, ne_eq, not_true_eq_false, dite_false, ite_false]
      rfl
    · simp only [hnext, ne_eq, not_false_eq_true, dite_true, ite_true]
      cases hrest : substrFrom (trimContext s) (incr (findFirstOf (trimContext s) '/')) with
      | none =>
        rfl
      | some rest =>
        have hlt := length_substrFrom_lt hrest hnext
        simp only [ih (show rest.length < k by omega)]
        rfl

theorem findContext_eq (N : Naming ω) (this : Option ℕ) (s : List Char) :
    findContext N this s = N.follow this (moves s) :=
  findContext_eq_follow (Nat.lt_succ_self _) this

theorem bindContext_eq (N : Naming ω) (this : Option ℕ) (s : List Char) :
    bindContext N this s = N.make this (moves s) :=
  bindContext_eq_make (Nat.lt_succ_self _) this

/-! ## The site of a name -/

/-- Where a path leads: the walk of `bind_name` and of `unbind_name`, the walk of `resolve_name`, and the name. -/
structure Site where
  kept : List Move
  dropped : List Move
  name : Name
  deriving DecidableEq

/-- A walk that comes before. -/
def Site.after (kept dropped : List Move) (σ : Site) : Site := ⟨kept ++ σ.kept, dropped ++ σ.dropped, σ.name⟩

@[simp] theorem Site.after_name (kept dropped : List Move) (σ : Site) : (σ.after kept dropped).name = σ.name := rfl

/-- The site of a path, if it is found in `k` rounds. -/
def siteIn : ℕ → List Char → Option Site
  | 0, _ => none
  | k + 1, obj_pathname =>
    let obj_name := trimContext obj_pathname
    if obj_name = [] then none
    else
      let pos := findLastOf obj_name '/'
      if 0 < pos then
        match substrFrom obj_name (incr pos) with
        | some rest =>
          (siteIn k rest).map (Site.after (moves (substrTo obj_name (incr pos))) (moves (substrTo obj_name pos)))
        | none => none
      else if pos = 0 then (siteIn k (obj_name.drop 1)).map (Site.after [.root] [.root])
      else some ⟨[], [], obj_name⟩

def site (s : List Char) : Option Site := siteIn (s.length + 1) s

variable {N N' N'' : Naming ω} {this x : Option ℕ} {k : ℕ} {s : List Char} {r : Ref ω} {σ : Site}

/-- `bind_name` makes the walk to the site, and binds the name there. -/
theorem bindName_eq_ok (hk : s.length < k) (h : bindName N this s (some r) = (.ok (), N'')) :
    ∃ σ x N', siteIn k s = some σ ∧ N.make this σ.kept = (.ok x, N') ∧ N'.rebindRef x σ.name r = (.ok (), N'') := by
  induction k generalizing N this s with
  | zero => cases hk
  | succ k ih =>
    rw [bindName] at h
    rw [siteIn]
    dsimp only at h ⊢
    split at h
    · cases h
    next hne =>
    rw [if_neg hne]
    split at h
    · next hpos =>
      rw [if_pos hpos]
      split at h
      · next cxt N₁ hbind =>
        rw [bindContext_eq] at hbind
        split at h
        · next rest hrest =>
          have hlt := length_substrFrom_lt hrest (incr_ne_zero hpos (findLastOf_lt _ _))
          obtain ⟨σ, x, N', hσ, hmake, hre⟩ := ih (by omega) h
          simp only [hrest, hσ]
          exact ⟨_, x, N', rfl, (Naming.make_append hbind).trans hmake, hre⟩
        · cases h
      · cases h
    next hpos =>
    rw [if_neg hpos]
    split at h
    · next hzero =>
      have hlt := length_drop_lt' hzero
      obtain ⟨σ, x, N', hσ, hmake, hre⟩ := ih (by omega) h
      rw [if_pos hzero, hσ]
      exact ⟨_, x, N', rfl, hmake, hre⟩
    · next hzero =>
      rw [if_neg hzero]
      exact ⟨_, this, N, rfl, rfl, h⟩

/-- What holds of the sites of the rest of a path, and of what is behind the root, holds of the site of the path. -/
theorem siteIn_induction {P : List Char → Site → Prop}
    (part : ∀ s rest σ, trimContext s ≠ [] → 0 < findLastOf (trimContext s) '/' →
      substrFrom (trimContext s) (incr (findLastOf (trimContext s) '/')) = some rest → P rest σ →
      P s (σ.after (moves (substrTo (trimContext s) (incr (findLastOf (trimContext s) '/'))))
        (moves (substrTo (trimContext s) (findLastOf (trimContext s) '/')))))
    (root : ∀ s σ, trimContext s ≠ [] → findLastOf (trimContext s) '/' = 0 → P ((trimContext s).drop 1) σ →
      P s (σ.after [.root] [.root]))
    (name : ∀ s, trimContext s ≠ [] → ¬0 < findLastOf (trimContext s) '/' → findLastOf (trimContext s) '/' ≠ 0 →
      P s ⟨[], [], trimContext s⟩)
    (hσ : siteIn k s = some σ) : P s σ := by
  induction k generalizing s σ with
  | zero => cases hσ
  | succ k ih =>
    rw [siteIn] at hσ
    dsimp only at hσ
    split at hσ
    · cases hσ
    next hne =>
    split at hσ
    · next hpos =>
      split at hσ
      · next rest hrest =>
        obtain ⟨τ, hτ, rfl⟩ := Option.map_eq_some_iff.mp hσ
        exact part s rest τ hne hpos hrest (ih hτ)
      · cases hσ
    next hpos =>
    split at hσ
    · next hzero =>
      obtain ⟨τ, hτ, rfl⟩ := Option.map_eq_some_iff.mp hσ
      exact root s τ hne hzero (ih hτ)
    · next hzero =>
      obtain rfl := Option.some.inj hσ
      exact name s hne hpos hzero

/-- If the walk to the site can be made, `bind_name` binds the name there. -/
theorem bindName_eq (hσ : siteIn k s = some σ) (hmake : N.make this σ.kept = (.ok x, N')) :
    bindName N this s (some r) = N'.rebindRef x σ.name r := by
  revert N this
  refine siteIn_induction (P := fun s σ => ∀ {N : Naming ω} {this : Option ℕ},
    N.make this σ.kept = (.ok x, N') → bindName N this s (some r) = N'.rebindRef x σ.name r) ?_ ?_ ?_ hσ
  · intro s rest σ hne hpos hrest ih N this hmake
    obtain ⟨y, N₁, hfirst, hthen⟩ := Naming.exists_of_make_append hmake
    rw [bindName]
    dsimp only
    rw [if_neg hne, dif_pos hpos, bindContext_eq, hfirst]
    dsimp only
    split
    · next rest' hrest' =>
      obtain rfl := Option.some.inj (hrest.symm.trans hrest')
      exact ih hthen
    · next hnone =>
      rw [hrest] at hnone
      cases hnone
  · intro s σ hne hzero ih N this hmake
    rw [bindName]
    dsimp only
    rw [if_neg hne, dif_neg (by omega), dif_pos hzero]
    exact ih (show N.make (some 0) σ.kept = (.ok x, N') from hmake)
  · intro s hne hpos hzero N this hmake
    rw [bindName]
    dsimp only
    rw [if_neg hne, dif_neg hpos, dif_neg hzero]
    obtain ⟨hx, rfl⟩ := Prod.mk.inj hmake
    obtain rfl := Except.ok.inj hx
    rfl

/-- `unbind_name` follows the walk of `bind_name`. -/
theorem unbindName_eq (hσ : siteIn k s = some σ) : unbindName N this s =
    match N.follow this σ.kept with
    | .ok x => N.unbind x σ.name
    | .error e => (.error e, N) := by
  revert this
  refine siteIn_induction (P := fun s σ => ∀ {this : Option ℕ}, unbindName N this s =
    match N.follow this σ.kept with
    | .ok x => N.unbind x σ.name
    | .error e => (.error e, N)) ?_ ?_ ?_ hσ
  · intro s rest σ hne hpos hrest ih this
    rw [unbindName]
    dsimp only [Site.after]
    rw [if_neg hne, dif_pos hpos, findContext_eq]
    split
    · next y hy =>
      rw [Naming.follow_append hy]
      split
      · next rest' hrest' =>
        obtain rfl := Option.some.inj (hrest.symm.trans hrest')
        exact ih
      · next hnone =>
        rw [hrest] at hnone
        cases hnone
    · next e he => rw [Naming.follow_append_error he]
  · intro s σ hne hzero ih this
    rw [unbindName]
    dsimp only
    rw [if_neg hne, dif_neg (by omega), dif_pos hzero]
    exact ih
  · intro s hne hpos hzero this
    rw [unbindName]
    dsimp only
    rw [if_neg hne, dif_neg hpos, dif_neg hzero]
    rfl

/-- `resolve_name` follows a walk of its own. -/
theorem resolveName_eq (hσ : siteIn k s = some σ) : resolveName N this s =
    match N.follow this σ.dropped with
    | .ok x => N.resolve x σ.name
    | .error e => .error e := by
  revert this
  refine siteIn_induction (P := fun s σ => ∀ {this : Option ℕ}, resolveName N this s =
    match N.follow this σ.dropped with
    | .ok x => N.resolve x σ.name
    | .error e => .error e) ?_ ?_ ?_ hσ
  · intro s rest σ hne hpos hrest ih this
    rw [resolveName]
    dsimp only [Site.after]
    rw [if_neg hne, dif_pos hpos, findContext_eq]
    split
    · next y hy =>
      rw [Naming.follow_append hy]
      split
      · next rest' hrest' =>
        obtain rfl := Option.some.inj (hrest.symm.trans hrest')
        exact ih
      · next hnone =>
        rw [hrest] at hnone
        cases hnone
    · next e he => rw [Naming.follow_append_error he]
  · intro s σ hne hzero ih this
    rw [resolveName]
    dsimp only
    rw [if_neg hne, dif_neg (by omega), dif_pos hzero]
    exact ih
  · intro s hne hpos hzero this
    rw [resolveName]
    dsimp only
    rw [if_neg hne, dif_neg hpos, dif_neg hzero]
    rfl

end Lasagne.Taf.NamingContext
