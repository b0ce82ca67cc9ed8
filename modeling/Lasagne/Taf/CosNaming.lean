import Mathlib.Data.List.Basic
import Mathlib.Order.Nat

/-!
# Lasagne.Taf.CosNaming — a naming service, and walks through it

A naming service keeps contexts, and in each of them references under names: to objects, or to contexts.  A walk
goes through it, name by name, and now and then back to the root.

* `make_grows`, `make_downs_frame` : what making the contexts on the way does to a service;
* `follow_make_downs` : what was made can be followed, if it does not go back to the root;
* `follow_of_make` : and if it can be followed, it ends where it was made to end, also when a name was set there.
-/

namespace Lasagne.Taf

/-! ## The service -/

abbrev Name := List Char

/-- What a name is bound to: an object, or a context. -/
inductive Ref (ω : Type*)
  | obj (o : ω)
  | cxt (c : ℕ)
  deriving DecidableEq

/-- What an operation can throw.  A call through a nil reference is `nilContext`. -/
inductive NamingErr
  | badParam
  | notFound
  | alreadyBound
  | nilContext
  | objectNotExist
  | outOfRange
  deriving DecidableEq

/-- A naming service: the contexts are the numbers below `next`, and `0` is the root. -/
structure Naming (ω : Type*) where
  bindings : ℕ → Name → Option (Ref ω)
  next : ℕ
  root_lt : 0 < next
  bound_lt {c : ℕ} {n : Name} {d : ℕ} : bindings c n = some (.cxt d) → d < next
  fresh {c : ℕ} {n : Name} : next ≤ c → bindings c n = none

/-- One step of a walk: to the root, to what a name is bound to, or off the end of a path. -/
inductive Move
  | root
  | down (n : Name)
  | beyond
  deriving DecidableEq

variable {ω : Type*}

namespace Naming

/-- A service with nothing in it. -/
def empty : Naming ω where
  bindings _ _ := none
  next := 1
  root_lt := Nat.one_pos
  bound_lt h := by cases h
  fresh _ := rfl

/-- One name of one context is bound to something else. -/
def assign (b : ℕ → Name → Option (Ref ω)) (c : ℕ) (n : Name) (r : Option (Ref ω)) : ℕ → Name → Option (Ref ω) :=
  fun c' n' => if c' = c ∧ n' = n then r else b c' n'

/-- A name is bound to a reference. -/
def put (N : Naming ω) {c : ℕ} (hc : c < N.next) (n : Name) (r : Ref ω) (hr : ∀ d, r = .cxt d → d < N.next) :
    Naming ω where
  bindings := assign N.bindings c n (some r)
  next := N.next
  root_lt := N.root_lt
  bound_lt {c' n' d} h := by
    unfold assign at h
    split at h
    · exact hr d (Option.some.inj h)
    · exact N.bound_lt h
  fresh {c' n'} h := by
    unfold assign
    rw [if_neg (by omega)]
    exact N.fresh h

/-- A name is bound to nothing. -/
def cut (N : Naming ω) (c : ℕ) (n : Name) : Naming ω where
  bindings := assign N.bindings c n none
  next := N.next
  root_lt := N.root_lt
  bound_lt {c' n' d} h := by
    unfold assign at h
    split at h
    · cases h
    · exact N.bound_lt h
  fresh {c' n'} h := by
    unfold assign
    split
    · rfl
    · exact N.fresh h

/-- A name is bound to a context that was not there before. -/
def grow (N : Naming ω) {c : ℕ} (hc : c < N.next) (n : Name) : Naming ω where
  bindings := assign N.bindings c n (some (.cxt N.next))
  next := N.next + 1
  root_lt := Nat.succ_pos _
  bound_lt {c' n' d} h := by
    unfold assign at h
    split at h
    · obtain rfl := Ref.cxt.inj (Option.some.inj h)
      exact Nat.lt_succ_self _
    · exact Nat.lt_succ_of_lt (N.bound_lt h)
  fresh {c' n'} h := by
    unfold assign
    rw [if_neg (by omega)]
    exact N.fresh (by omega)

/-- `resolve`, called on `this`. -/
def resolve (N : Naming ω) (this : Option ℕ) (n : Name) : Except NamingErr (Ref ω) :=
  match this with
  | none => .error .nilContext
  | some c =>
    if c < N.next then
      match N.bindings c n with
      | some r => .ok r
      | none => .error .notFound
    else .error .objectNotExist

def bindNewContext (N : Naming ω) (this : Option ℕ) (n : Name) : Except NamingErr ℕ × Naming ω :=
  match this with
  | none => (.error .nilContext, N)
  | some c =>
    if hc : c < N.next then
      match N.bindings c n with
      | some _ => (.error .alreadyBound, N)
      | none => (.ok N.next, N.grow hc n)
    else (.error .objectNotExist, N)

/-- `rebind` takes the place of an object, and not of a context. -/
def rebind (N : Naming ω) (this : Option ℕ) (n : Name) (o : ω) : Except NamingErr Unit × Naming ω :=
  match this with
  | none => (.error .nilContext, N)
  | some c =>
    if hc : c < N.next then
      match N.bindings c n with
      | some (.cxt _) => (.error .notFound, N)
      | _ => (.ok (), N.put hc n (.obj o) fun _ h => (by cases h))
    else (.error .objectNotExist, N)

/-- `rebind_context` takes the place of a context, and not of an object. -/
def rebindContext (N : Naming ω) (this : Option ℕ) (n : Name) (d : ℕ) : Except NamingErr Unit × Naming ω :=
  match this with
  | none => (.error .nilContext, N)
  | some c =>
    if hc : c < N.next then
      if hd : d < N.next then
        match N.bindings c n with
        | some (.obj _) => (.error .notFound, N)
        | _ => (.ok (), N.put hc n (.cxt d) fun _ h => Ref.cxt.inj h ▸ hd)
      else (.error .objectNotExist, N)
    else (.error .objectNotExist, N)

def unbind (N : Naming ω) (this : Option ℕ) (n : Name) : Except NamingErr Unit × Naming ω :=
  match this with
  | none => (.error .nilContext, N)
  | some c =>
    if c < N.next then
      match N.bindings c n with
      | some _ => (.ok (), N.cut c n)
      | none => (.error .notFound, N)
    else (.error .objectNotExist, N)

/-! ## What the operations do -/

variable {N N' N'' : Naming ω} {this x : Option ℕ} {c d : ℕ} {n : Name} {r : Ref ω}

theorem lt_next (h : N.bindings c n = some r) : c < N.next := by
  by_contra hge
  rw [N.fresh (Nat.le_of_not_lt hge)] at h
  cases h

theorem resolve_eq_ok : N.resolve this n = .ok r ↔ ∃ c, this = some c ∧ N.bindings c n = some r := by
  constructor
  · intro h
    unfold resolve at h
    split at h
    · cases h
    · next c =>
      split_ifs at h
      split at h
      · next r' heq => exact ⟨c, rfl, heq.trans (congrArg some (Except.ok.inj h))⟩
      · cases h
  · rintro ⟨c, rfl, h⟩
    simp only [resolve]
    rw [if_pos (lt_next h), h]

theorem resolve_eq_notFound (hc : c < N.next) (h : N.bindings c n = none) :
    N.resolve (some c) n = .error .notFound := by
  simp only [resolve]
  rw [if_pos hc, h]

/-- `N'` is `N` with one name of one context bound to `r`. -/
structure Sets (N : Naming ω) (c : ℕ) (n : Name) (r : Option (Ref ω)) (N' : Naming ω) : Prop where
  lt : c < N.next
  next_eq : N'.next = N.next
  bindings_eq (c' : ℕ) (n' : Name) : N'.bindings c' n' = if c' = c ∧ n' = n then r else N.bindings c' n'

theorem Sets.self (h : N.Sets c n (some r) N') : N'.bindings c n = some r := by
  rw [h.bindings_eq, if_pos ⟨rfl, rfl⟩]

theorem Sets.other {o : Option (Ref ω)} {c' : ℕ} {n' : Name} (h : N.Sets c n o N') (hne : ¬ (c' = c ∧ n' = n)) :
    N'.bindings c' n' = N.bindings c' n' := by
  rw [h.bindings_eq, if_neg hne]

/-- A reference is bound, with `rebind` or with `rebind_context`. -/
def rebindRef (N : Naming ω) (this : Option ℕ) (n : Name) : Ref ω → Except NamingErr Unit × Naming ω
  | .obj o => N.rebind this n o
  | .cxt d => N.rebindContext this n d

/-- It is bound in place of nothing, or of a reference of its own kind. -/
theorem rebindRef_eq_ok (h : N.rebindRef this n r = (.ok (), N')) : ∃ c, this = some c ∧ N.Sets c n (some r) N' ∧
    ∀ r', N.bindings c n = some r' → ((∃ o, r = .obj o) ↔ ∃ o, r' = .obj o) := by
  unfold rebindRef at h
  cases r with
  | obj o =>
    dsimp only [rebind] at h
    split at h
    · cases h
    · next c =>
      by_cases hc : c < N.next
      · rw [dif_pos hc] at h
        split at h
        · cases h
        · next hno =>
          obtain rfl := (Prod.mk.inj h).2
          refine ⟨c, rfl, ⟨hc, rfl, fun _ _ => rfl⟩, fun r' hr' => ?_⟩
          cases r' with
          | obj o' => exact iff_of_true ⟨o, rfl⟩ ⟨o', rfl⟩
          | cxt d' => exact absurd hr' (hno d')
      · rw [dif_neg hc] at h
        cases h
  | cxt d =>
    dsimp only [rebindContext] at h
    split at h
    · cases h
    · next c =>
      by_cases hc : c < N.next
      · rw [dif_pos hc] at h
        by_cases hd : d < N.next
        · rw [dif_pos hd] at h
          split at h
          · cases h
          · next hno =>
            obtain rfl := (Prod.mk.inj h).2
            refine ⟨c, rfl, ⟨hc, rfl, fun _ _ => rfl⟩, fun r' hr' => ?_⟩
            cases r' with
            | obj o' => exact absurd hr' (hno o')
            | cxt d' => exact iff_of_false (by rintro ⟨o, ho⟩; cases ho) (by rintro ⟨o, ho⟩; cases ho)
        · rw [dif_neg hd] at h
          cases h
      · rw [dif_neg hc] at h
        cases h

theorem unbind_eq_ok : N.unbind this n = (.ok (), N') ↔
    ∃ c r, this = some c ∧ N.bindings c n = some r ∧ N' = N.cut c n := by
  constructor
  · intro h
    unfold unbind at h
    split at h
    · cases h
    · next c =>
      by_cases hc : c < N.next
      · rw [if_pos hc] at h
        split at h
        · next r hr => exact ⟨c, r, rfl, hr, (Prod.mk.inj h).2.symm⟩
        · cases h
      · rw [if_neg hc] at h
        cases h
  · rintro ⟨c, r, rfl, hr, rfl⟩
    simp only [unbind]
    rw [if_pos (lt_next hr), hr]

/-- A name that is bound can be unbound. -/
theorem sets_cut (h : N.bindings c n = some r) : N.Sets c n none (N.cut c n) :=
  ⟨lt_next h, rfl, fun _ _ => rfl⟩

/-! ## Walks -/

/-- The contexts on the way are all there: what comes after a name that is not bound to one is an error. -/
def follow (N : Naming ω) : Option ℕ → List Move → Except NamingErr (Option ℕ)
  | this, [] => .ok this
  | _, .root :: ms => follow N (some 0) ms
  | this, .down n :: ms =>
    match N.resolve this n with
    | .ok (.cxt c) => follow N (some c) ms
    | .ok (.obj _) => .error .notFound
    | .error e => .error e
  | _, .beyond :: _ => .error .outOfRange

/-- The context that a name is bound to, which is made if there is none, and nil where the name is an object's. -/
def enter (N : Naming ω) (this : Option ℕ) (n : Name) : Except NamingErr (Option ℕ) × Naming ω :=
  match N.resolve this n with
  | .ok (.cxt c) => (.ok (some c), N)
  | .ok (.obj _) => (.ok none, N)
  | .error .notFound =>
    match N.bindNewContext this n with
    | (.ok c, N') => (.ok (some c), N')
    | (.error e, N') => (.error e, N')
  | .error e => (.error e, N)

/-- The contexts on the way are made. -/
def make : Naming ω → Option ℕ → List Move → Except NamingErr (Option ℕ) × Naming ω
  | N, this, [] => (.ok this, N)
  | N, _, .root :: ms => make N (some 0) ms
  | N, this, .down n :: ms =>
    match N.enter this n with
    | (.ok x, N') => make N' x ms
    | (.error e, N') => (.error e, N')
  | N, _, .beyond :: _ => (.error .outOfRange, N)

variable {ms as bs : List Move} {dirs : List Name} {y : Option ℕ}

/-- No context is below itself. -/
def Acyclic (N : Naming ω) : Prop := ∃ rank : ℕ → ℕ, ∀ c n d, N.bindings c n = some (.cxt d) → rank c < rank d

/-- `N'` is `N` with new contexts under names that were not bound. -/
structure Grows (N N' : Naming ω) : Prop where
  next_le : N.next ≤ N'.next
  kept {c : ℕ} {n : Name} {r : Ref ω} : N.bindings c n = some r → N'.bindings c n = some r
  new {c : ℕ} {n : Name} {r : Ref ω} : N'.bindings c n = some r →
    N.bindings c n = some r ∨ N.bindings c n = none ∧ ∃ d, r = .cxt d ∧ N.next ≤ d

theorem Grows.refl (N : Naming ω) : N.Grows N := ⟨le_rfl, id, Or.inl⟩

theorem Grows.trans (h : N.Grows N') (h' : N'.Grows N'') : N.Grows N'' := by
  refine ⟨h.next_le.trans h'.next_le, fun hr => h'.kept (h.kept hr), fun {c n r} hr => ?_⟩
  rcases h'.new hr with hr' | ⟨hnone, d, rfl, hle⟩
  · exact h.new hr'
  · refine Or.inr ⟨?_, d, rfl, h.next_le.trans hle⟩
    cases hb : N.bindings c n with
    | none => rfl
    | some r' =>
      rw [h.kept hb] at hnone
      cases hnone

theorem grows_grow (hc : c < N.next) (h : N.bindings c n = none) : N.Grows (N.grow hc n) := by
  refine ⟨Nat.le_succ _, fun {c' n' r} hr => ?_, fun {c' n' r} hr => ?_⟩
  · show assign N.bindings c n _ c' n' = some r
    unfold assign
    split
    · next heq =>
      obtain ⟨rfl, rfl⟩ := heq
      rw [h] at hr
      cases hr
    · exact hr
  · replace hr : assign N.bindings c n _ c' n' = some r := hr
    unfold assign at hr
    split at hr
    · next heq =>
      obtain ⟨rfl, rfl⟩ := heq
      exact Or.inr ⟨h, N.next, (Option.some.inj hr).symm, le_rfl⟩
    · exact Or.inl hr

/-- A new context is below the one that it is made in, and above none. -/
theorem acyclic_grow (hc : c < N.next) (h : N.Acyclic) : (N.grow hc n).Acyclic := by
  obtain ⟨rank, hrank⟩ := h
  refine ⟨fun d => if d = N.next then rank c + 1 else rank d, fun c' n' d hd => ?_⟩
  replace hd : assign N.bindings c n _ c' n' = some (.cxt d) := hd
  unfold assign at hd
  split at hd
  · next heq =>
    obtain ⟨rfl, rfl⟩ := heq
    obtain rfl := Ref.cxt.inj (Option.some.inj hd)
    dsimp only
    rw [if_neg hc.ne, if_pos rfl]
    exact Nat.lt_succ_self _
  · have hlt := lt_next hd
    have hlt' := N.bound_lt hd
    dsimp only
    rw [if_neg hlt.ne, if_neg hlt'.ne]
    exact hrank c' n' d hd

/-- What entering the name `n` of the context `c` does. -/
structure Enters (N : Naming ω) (c : ℕ) (n : Name) (x : Option ℕ) (N' : Naming ω) : Prop where
  grows : N.Grows N'
  same {c' : ℕ} {n' : Name} : ¬ (c' = c ∧ n' = n) → N'.bindings c' n' = N.bindings c' n'
  acyclic : N.Acyclic → N'.Acyclic
  bound : (∃ o, N'.bindings c n = some (.obj o)) ∧ x = none ∨ ∃ d, N'.bindings c n = some (.cxt d) ∧ x = some d

theorem enter_eq_ok (h : N.enter this n = (.ok x, N')) : ∃ c, this = some c ∧ N.Enters c n x N' := by
  unfold enter at h
  split at h
  · next d hres =>
    obtain ⟨c, rfl, hb⟩ := resolve_eq_ok.mp hres
    obtain ⟨hx, rfl⟩ := Prod.mk.inj h
    exact ⟨c, rfl, Grows.refl N, fun _ => rfl, id, Or.inr ⟨d, hb, (Except.ok.inj hx).symm⟩⟩
  · next o hres =>
    obtain ⟨c, rfl, hb⟩ := resolve_eq_ok.mp hres
    obtain ⟨hx, rfl⟩ := Prod.mk.inj h
    exact ⟨c, rfl, Grows.refl N, fun _ => rfl, id, Or.inl ⟨⟨o, hb⟩, (Except.ok.inj hx).symm⟩⟩
  · cases this with
    | none => cases h
    | some c =>
      dsimp only [bindNewContext] at h
      by_cases hc : c < N.next
      · rw [dif_pos hc] at h
        cases hb : N.bindings c n with
        | some r =>
          rw [hb] at h
          cases h
        | none =>
          rw [hb] at h
          obtain ⟨hx, rfl⟩ := Prod.mk.inj h
          refine ⟨c, rfl, grows_grow hc hb, fun hne => if_neg hne, acyclic_grow hc, Or.inr ⟨N.next, ?_, ?_⟩⟩
          · exact if_pos ⟨rfl, rfl⟩
          · exact (Except.ok.inj hx).symm
      · rw [dif_neg hc] at h
        cases h
  · cases h

theorem follow_down_eq_ok : N.follow this (.down n :: ms) = .ok y ↔
    ∃ c d, this = some c ∧ N.bindings c n = some (.cxt d) ∧ N.follow (some d) ms = .ok y := by
  constructor
  · intro h
    rw [follow] at h
    split at h
    · next d hres =>
      obtain ⟨c, rfl, hb⟩ := resolve_eq_ok.mp hres
      exact ⟨c, d, rfl, hb, h⟩
    · cases h
    · cases h
  · rintro ⟨c, d, rfl, hb, h⟩
    rw [follow, resolve_eq_ok.mpr ⟨c, rfl, hb⟩]
    exact h

theorem make_down_eq_ok (h : N.make this (.down n :: ms) = (.ok y, N')) :
    ∃ c x N₁, this = some c ∧ N.Enters c n x N₁ ∧ N₁.make x ms = (.ok y, N') := by
  rw [make] at h
  split at h
  · next x N₁ henter =>
    obtain ⟨c, rfl, hin⟩ := enter_eq_ok henter
    exact ⟨c, x, N₁, rfl, hin, h⟩
  · cases h

theorem make_grows (h : N.make this ms = (.ok x, N')) : N.Grows N' := by
  induction ms generalizing N this with
  | nil =>
    obtain ⟨-, rfl⟩ := Prod.mk.inj h
    exact Grows.refl N
  | cons m ms ih =>
    cases m with
    | root => exact ih h
    | down n =>
      obtain ⟨c, z, N₁, rfl, hin, hrest⟩ := make_down_eq_ok h
      exact hin.grows.trans (ih hrest)
    | beyond => cases h

theorem make_acyclic (h : N.make this ms = (.ok x, N')) (hN : N.Acyclic) : N'.Acyclic := by
  induction ms generalizing N this with
  | nil =>
    obtain ⟨-, rfl⟩ := Prod.mk.inj h
    exact hN
  | cons m ms ih =>
    cases m with
    | root => exact ih h hN
    | down n =>
      obtain ⟨c, z, N₁, rfl, hin, hrest⟩ := make_down_eq_ok h
      exact ih hrest (hin.acyclic hN)
    | beyond => cases h

/-! ### Walks in two parts -/

theorem follow_append (h : N.follow this as = .ok x) : N.follow this (as ++ bs) = N.follow x bs := by
  induction as generalizing this with
  | nil =>
    obtain rfl := Except.ok.inj h
    rfl
  | cons m as ih =>
    cases m with
    | root => exact ih h
    | down n =>
      obtain ⟨c, d, rfl, hb, hrest⟩ := follow_down_eq_ok.mp h
      rw [List.cons_append, follow, resolve_eq_ok.mpr ⟨c, rfl, hb⟩]
      exact ih hrest
    | beyond => cases h

theorem follow_append_error {e : NamingErr} (h : N.follow this as = .error e) :
    N.follow this (as ++ bs) = .error e := by
  induction as generalizing this with
  | nil => cases h
  | cons m as ih =>
    cases m with
    | root => exact ih h
    | down n =>
      rw [List.cons_append]
      rw [follow] at h ⊢
      split at h
      · exact ih h
      · exact h
      · exact h
    | beyond => exact h

theorem exists_of_follow_append (h : N.follow this (as ++ bs) = .ok y) :
    ∃ x, N.follow this as = .ok x ∧ N.follow x bs = .ok y := by
  cases hx : N.follow this as with
  | error e =>
    rw [follow_append_error hx] at h
    cases h
  | ok x => exact ⟨x, rfl, (follow_append hx).symm.trans h⟩

theorem make_append (h : N.make this as = (.ok x, N')) : N.make this (as ++ bs) = N'.make x bs := by
  induction as generalizing N this with
  | nil =>
    obtain ⟨hx, rfl⟩ := Prod.mk.inj h
    obtain rfl := Except.ok.inj hx
    rfl
  | cons m as ih =>
    cases m with
    | root => exact ih h
    | down n =>
      rw [List.cons_append]
      rw [make] at h ⊢
      split at h
      · exact ih h
      · cases h
    | beyond => cases h

theorem exists_of_make_append (h : N.make this (as ++ bs) = (.ok y, N'')) :
    ∃ x N', N.make this as = (.ok x, N') ∧ N'.make x bs = (.ok y, N'') := by
  induction as generalizing N this with
  | nil => exact ⟨this, N, rfl, h⟩
  | cons m as ih =>
    cases m with
    | root => exact ih h
    | down n =>
      rw [List.cons_append] at h
      rw [make] at h ⊢
      split at h
      · exact ih h
      · cases h
    | beyond => cases h

/-! ### What was made can be followed -/

theorem follow_none (h : N.follow none (dirs.map .down) = .ok y) : y = none := by
  cases dirs with
  | nil => exact (Except.ok.inj h).symm
  | cons m dirs => cases h

theorem make_none (h : N.make none (dirs.map .down) = (.ok y, N')) : y = none := by
  cases dirs with
  | nil => exact (Except.ok.inj (Prod.mk.inj h).1).symm
  | cons m dirs => cases h

/-- A walk that never goes back to the root can be followed when it was made. -/
theorem follow_make_downs (h : N.make this (dirs.map .down) = (.ok (some c), N')) :
    N'.follow this (dirs.map .down) = .ok (some c) := by
  induction dirs generalizing N this with
  | nil => exact (Prod.mk.inj h).1
  | cons m dirs ih =>
    obtain ⟨t, z, N₁, rfl, hin, hrest⟩ := make_down_eq_ok h
    rcases hin.bound with ⟨-, rfl⟩ | ⟨d, hd, rfl⟩
    · cases make_none hrest
    · exact follow_down_eq_ok.mpr ⟨t, d, rfl, (make_grows hrest).kept hd, ih hrest⟩

/-- Only names on the way are bound to something else. -/
theorem make_downs_frame (h : N.make this (dirs.map .down) = (.ok x, N'))
    (hne : N'.bindings c n ≠ N.bindings c n) :
    ∃ above, above ++ [n] <+: dirs ∧ N'.follow this (above.map .down) = .ok (some c) := by
  induction dirs generalizing N this with
  | nil =>
    obtain ⟨-, rfl⟩ := Prod.mk.inj h
    exact absurd rfl hne
  | cons m dirs ih =>
    obtain ⟨t, z, N₁, rfl, hin, hrest⟩ := make_down_eq_ok h
    by_cases heq : c = t ∧ n = m
    · obtain ⟨rfl, rfl⟩ := heq
      exact ⟨[], List.prefix_append [n] dirs, rfl⟩
    · rw [← hin.same heq] at hne
      obtain ⟨above, hpre, hfollow⟩ := ih hrest hne
      refine ⟨m :: above, List.cons_prefix_cons.mpr ⟨rfl, hpre⟩, ?_⟩
      rcases hin.bound with ⟨-, rfl⟩ | ⟨d, hd, rfl⟩
      · cases follow_none hfollow
      · exact follow_down_eq_ok.mpr ⟨t, d, rfl, (make_grows hrest).kept hd, hfollow⟩

/-! ### Setting one name -/

theorem rank_le_of_follow {rank : ℕ → ℕ} (hrank : ∀ c n d, N.bindings c n = some (.cxt d) → rank c < rank d)
    (h : N.follow (some c) (dirs.map .down) = .ok (some d)) : rank c ≤ rank d := by
  induction dirs generalizing c with
  | nil =>
    obtain rfl := Option.some.inj (Except.ok.inj h)
    exact le_rfl
  | cons m dirs ih =>
    obtain ⟨t, e, ht, hb, hrest⟩ := follow_down_eq_ok.mp h
    obtain rfl := Option.some.inj ht
    exact (hrank _ _ _ hb).le.trans (ih hrest)

/-- In an acyclic service a walk down to a context does not go through the names in it. -/
theorem follow_sets_downs {o : Option (Ref ω)} (hN : N.Acyclic) (hsets : N.Sets c n o N')
    (h : N.follow this (dirs.map .down) = .ok (some c)) : N'.follow this (dirs.map .down) = .ok (some c) := by
  obtain ⟨rank, hrank⟩ := hN
  induction dirs generalizing this with
  | nil => exact h
  | cons m dirs ih =>
    obtain ⟨t, e, rfl, hb, hrest⟩ := follow_down_eq_ok.mp h
    refine follow_down_eq_ok.mpr ⟨t, e, rfl, ?_, ih hrest⟩
    refine (hsets.other fun heq => ?_).trans hb
    obtain ⟨rfl, rfl⟩ := heq
    have hlt := hrank _ _ _ hb
    have hle := rank_le_of_follow hrank hrest
    omega

/-- A walk does not go through a name that is not bound to a context. -/
theorem follow_sets_obj {o : Option (Ref ω)} (hsets : N.Sets c n o N') (hobj : ∀ d, N.bindings c n ≠ some (.cxt d))
    (h : N.follow this ms = .ok y) : N'.follow this ms = .ok y := by
  induction ms generalizing this with
  | nil => exact h
  | cons m ms ih =>
    cases m with
    | root => exact ih h
    | down m =>
      obtain ⟨t, e, rfl, hb, hrest⟩ := follow_down_eq_ok.mp h
      refine follow_down_eq_ok.mpr ⟨t, e, rfl, ?_, ih hrest⟩
      refine (hsets.other fun heq => ?_).trans hb
      obtain ⟨rfl, rfl⟩ := heq
      exact hobj e hb
    | beyond => cases h

/-- When a name is unbound, a walk goes where it went, or the name is not found. -/
theorem follow_cut (hsets : N.Sets c n none N') (h : N.follow this ms = .ok y) :
    N'.follow this ms = .ok y ∨ N'.follow this ms = .error .notFound := by
  induction ms generalizing this with
  | nil => exact Or.inl h
  | cons m ms ih =>
    cases m with
    | root => exact ih h
    | down m =>
      obtain ⟨t, e, rfl, hb, hrest⟩ := follow_down_eq_ok.mp h
      by_cases heq : t = c ∧ m = n
      · obtain ⟨rfl, rfl⟩ := heq
        refine Or.inr ?_
        rw [follow, resolve_eq_notFound (by rw [hsets.next_eq]; exact hsets.lt) ?_]
        rw [hsets.bindings_eq, if_pos ⟨rfl, rfl⟩]
      · rw [follow, resolve_eq_ok.mpr ⟨t, rfl, (hsets.other heq).trans hb⟩]
        exact ih hrest
    | beyond => cases h

/-- The last part of a walk goes down only. -/
theorem exists_downs (ms : List Move) : (∃ dirs : List Name, ms = dirs.map .down) ∨
    (∃ (above : List Move) (dirs : List Name), ms = above ++ .root :: dirs.map .down) ∨
    ∃ (above : List Move) (dirs : List Name), ms = above ++ .beyond :: dirs.map .down := by
  induction ms with
  | nil => exact Or.inl ⟨[], rfl⟩
  | cons m ms ih =>
    rcases ih with ⟨dirs, rfl⟩ | ⟨above, dirs, rfl⟩ | ⟨above, dirs, rfl⟩
    · cases m with
      | root => exact Or.inr (Or.inl ⟨[], dirs, rfl⟩)
      | down n => exact Or.inl ⟨n :: dirs, rfl⟩
      | beyond => exact Or.inr (Or.inr ⟨[], dirs, rfl⟩)
    · exact Or.inr (Or.inl ⟨m :: above, dirs, rfl⟩)
    · exact Or.inr (Or.inr ⟨m :: above, dirs, rfl⟩)

/-- A walk was made in an acyclic service, and a name was set in the context where it ended: if it can be followed
then it ends there. -/
theorem follow_of_make {o : Option (Ref ω)} (hN : N.Acyclic) (hmake : N.make this ms = (.ok (some c), N'))
    (hsets : N'.Sets c n o N'') (h : N''.follow this ms = .ok y) : y = some c := by
  have hdowns {M : Naming ω} {t : Option ℕ} {dirs : List Name} (hM : M.make t (dirs.map .down) = (.ok (some c), N'))
      (ht : N''.follow t (dirs.map .down) = .ok y) : y = some c := by
    have hthere := follow_sets_downs (make_acyclic hmake hN) hsets (follow_make_downs hM)
    exact Except.ok.inj (ht.symm.trans hthere)
  rcases exists_downs ms with ⟨dirs, rfl⟩ | ⟨above, dirs, rfl⟩ | ⟨above, dirs, rfl⟩
  · exact hdowns hmake h
  · obtain ⟨x, N₁, -, hM⟩ := exists_of_make_append hmake
    obtain ⟨z, -, ht⟩ := exists_of_follow_append h
    exact hdowns (t := some 0) hM ht
  · obtain ⟨x, N₁, -, hM⟩ := exists_of_make_append hmake
    cases hM

end Naming

end Lasagne.Taf
