import Lasagne.Taf.CosNaming
import Mathlib.Data.List.Nodup

/-!
# Lasagne.Taf.NamingPlaces — where walks lead, by the service as it is before

A walk that makes the contexts on its way leads to places that are not there yet: below a context, under names of which the
first is not bound in it.  What was made is numbered in the order it was made.

* `make_places` : the contexts that are made are the places that are to be made;
* `follow_iff_walk` : and who follows a walk then, also when a name has been set, comes where it leads by the plan.
-/

namespace Lasagne.Taf

/-- A context of a service, or one that is to be made below it. -/
structure Place where
  base : ℕ
  names : List Name
  deriving DecidableEq, Repr

namespace Place

/-- A context that is there. -/
def there (c : ℕ) : Place := ⟨c, []⟩

def child (P : Place) (n : Name) : Place := ⟨P.base, P.names ++ [n]⟩

theorem child_inj {P Q : Place} {n m : Name} (h : P.child n = Q.child m) : P = Q ∧ n = m := by
  obtain ⟨hbase, hnames⟩ := Place.mk.inj h
  obtain ⟨hnames, hname⟩ := List.append_inj' hnames rfl
  refine ⟨?_, List.singleton_inj.mp hname⟩
  cases P
  cases Q
  simp_all

theorem child_names_ne (P : Place) (n : Name) : (P.child n).names ≠ [] := by simp [child]

theorem child_ne (P : Place) (n : Name) : P.child n ≠ P := by
  intro h
  have hlen := congrArg (fun Q => Q.names.length) h
  simp [child] at hlen

end Place

namespace Naming

variable {ω : Type*} (N : Naming ω)

/-! ## Plans -/

/-- What a name is bound to at a place: nothing is bound in a context that is to be made. -/
def bound (P : Place) (n : Name) : Option (Ref ω) := if P.names = [] then N.bindings P.base n else none

/-- Where a name leads from a place, if the context is made that is not there. -/
def toward (P : Place) (n : Name) : Option Place :=
  match N.bound P n with
  | some (.cxt d) => some (.there d)
  | some (.obj _) => none
  | none => some (P.child n)

/-- The places that are to be made, with one more if it is not there. -/
def mark (L : List Place) (P : Place) (n : Name) : List Place :=
  if N.bound P n = none ∧ P.child n ∉ L then L ++ [P.child n] else L

/-- Where a walk leads that makes the contexts on its way. -/
def lead : Option Place → List Move → Option Place
  | P, [] => P
  | _, .root :: ms => lead (some (.there 0)) ms
  | some P, .down n :: ms => lead (N.toward P n) ms
  | none, .down _ :: _ => none
  | _, .beyond :: _ => none

/-- The contexts that it makes, in order. -/
def made : List Place → Option Place → List Move → List Place
  | L, _, [] => L
  | L, _, .root :: ms => made L (some (.there 0)) ms
  | L, some P, .down n :: ms => made (N.mark L P n) (N.toward P n) ms
  | L, none, .down _ :: _ => L
  | L, _, .beyond :: _ => L

/-- What is to be there: the contexts that are to be made, and a name that is to be bound. -/
structure Plan (ω : Type*) where
  made : List Place
  target : Place
  name : Name
  ref : Ref ω

/-- Where a name leads from a place, when all is there. -/
def Plan.step (plan : Plan ω) (P : Place) (n : Name) : Option Place :=
  if P = plan.target ∧ n = plan.name then
    match plan.ref with
    | .cxt d => some (.there d)
    | .obj _ => none
  else
    match N.bound P n with
    | some (.cxt d) => some (.there d)
    | some (.obj _) => none
    | none => if P.child n ∈ plan.made then some (P.child n) else none

/-- Where a walk leads then. -/
def Plan.walk (plan : Plan ω) : Option Place → List Move → Option Place
  | P, [] => P
  | _, .root :: ms => walk plan (some (.there 0)) ms
  | some P, .down n :: ms =>
    match plan.step N P n with
    | some Q => walk plan (some Q) ms
    | none => none
  | none, .down _ :: _ => none
  | _, .beyond :: _ => none

/-! ## Numbers -/

/-- The number of the context at a place, when the places `L` have been made. -/
def num (L : List Place) (P : Place) : ℕ := if P.names = [] then P.base else N.next + L.idxOf P

/-- A place where there is a context then. -/
def Stands (L : List Place) (P : Place) : Prop := P.base < N.next ∧ (P.names = [] ∨ P ∈ L)

/-- `M` is `N` with the places `L` made. -/
structure Planned (M : Naming ω) (L : List Place) : Prop where
  next_eq : M.next = N.next + L.length
  parent {P : Place} {n : Name} : P.child n ∈ L → N.bound P n = none ∧ (P.names = [] ∨ P ∈ L)
  bindings_eq {P : Place} (n : Name) : N.Stands L P → M.bindings (N.num L P) n =
    (N.bound P n).or (if P.child n ∈ L then some (.cxt (N.num L (P.child n))) else none)

variable {N} {M N' : Naming ω} {L : List Place} {P Q : Place} {n : Name} {cur : Option Place} {ms : List Move} {c : ℕ}

@[simp] theorem num_there (L : List Place) (c : ℕ) : N.num L (.there c) = c := if_pos rfl

theorem num_of_mem (hP : P.names ≠ []) : N.num L P = N.next + L.idxOf P := if_neg hP

theorem stands_there (L : List Place) (hc : c < N.next) : N.Stands L (.there c) := ⟨hc, Or.inl rfl⟩

theorem num_inj (hP : N.Stands L P) (hQ : N.Stands L Q) (h : N.num L P = N.num L Q) : P = Q := by
  obtain ⟨hPlt, hP⟩ := hP
  obtain ⟨hQlt, hQ⟩ := hQ
  by_cases hPn : P.names = []
  · by_cases hQn : Q.names = []
    · rw [num, num, if_pos hPn, if_pos hQn] at h
      cases P
      cases Q
      simp_all
    · rw [num, num, if_pos hPn, if_neg hQn] at h
      omega
  · by_cases hQn : Q.names = []
    · rw [num, num, if_neg hPn, if_pos hQn] at h
      omega
    · rw [num, num, if_neg hPn, if_neg hQn] at h
      exact (List.idxOf_inj (hP.resolve_left hPn)).mp (by omega)

/-- What is made later changes no number. -/
theorem num_append (hP : N.Stands L P) (L' : List Place) : N.num (L ++ L') P = N.num L P := by
  rcases hP.2 with hnames | hmem
  · rw [num, num, if_pos hnames, if_pos hnames]
  · rw [num, num, List.idxOf_append_of_mem hmem]

theorem Stands.append (hP : N.Stands L P) (L' : List Place) : N.Stands (L ++ L') P :=
  ⟨hP.1, hP.2.imp_right fun h => List.mem_append_left _ h⟩

theorem Planned.num_lt (hM : N.Planned M L) (hP : N.Stands L P) : N.num L P < M.next := by
  rw [hM.next_eq]
  rcases hP.2 with hnames | hmem
  · rw [num, if_pos hnames]
    have hlt := hP.1
    omega
  · have hlt := List.idxOf_lt_length_of_mem hmem
    rw [num]
    split
    · have hbase := hP.1
      omega
    · omega

theorem planned_nil (N : Naming ω) : N.Planned N [] := by
  refine ⟨rfl, fun h => (by cases h), fun {P} n hP => ?_⟩
  have hnames : P.names = [] := hP.2.resolve_right (by simp)
  rw [num, bound, if_pos hnames, if_pos hnames, if_neg (by simp), Option.or_none]

/-- One more place is made. -/
theorem Planned.grow (hM : N.Planned M L) (hP : N.Stands L P) (hbound : N.bound P n = none) (hnew : P.child n ∉ L) :
    N.Planned (M.grow (hM.num_lt hP) n) (L ++ [P.child n]) := by
  have hnum : N.num (L ++ [P.child n]) (P.child n) = M.next := by
    rw [num_of_mem (P.child_names_ne n), List.idxOf_append_of_notMem hnew, List.idxOf_cons_self, hM.next_eq]
    omega
  refine ⟨?_, fun {Q m} hQ => ?_, fun {Q} m hQ => ?_⟩
  · show M.next + 1 = _
    rw [hM.next_eq, List.length_append, List.length_singleton]
    omega
  · rcases List.mem_append.mp hQ with hQ | hQ
    · exact ⟨(hM.parent hQ).1, (hM.parent hQ).2.imp_right fun h => List.mem_append_left _ h⟩
    · obtain ⟨rfl, rfl⟩ := Place.child_inj (List.mem_singleton.mp hQ)
      exact ⟨hbound, hP.2.imp_right fun h => List.mem_append_left _ h⟩
  · show assign M.bindings (N.num L P) n (some (.cxt M.next)) _ _ = _
    unfold assign
    by_cases hchild : Q = P.child n
    · -- nothing is bound in what has just been made
      subst hchild
      have hne : M.next ≠ N.num L P := (hM.num_lt hP).ne'
      have hnone : (P.child n).child m ∉ L ++ [P.child n] := by
        intro hmem
        rcases List.mem_append.mp hmem with hmem | hmem
        · exact ((hM.parent hmem).2.resolve_left (P.child_names_ne n)) |> hnew
        · exact Place.child_ne _ _ (List.mem_singleton.mp hmem)
      rw [hnum, if_neg (fun h => hne h.1), if_neg hnone, M.fresh le_rfl, bound, if_neg (P.child_names_ne n)]
      rfl
    · have hQL : N.Stands L Q := by
        refine ⟨hQ.1, hQ.2.imp_right fun hmem => ?_⟩
        exact (List.mem_append.mp hmem).resolve_right fun h => hchild (List.mem_singleton.mp h)
      have hmem : Q.child m ∈ L ++ [P.child n] ↔ Q.child m ∈ L ∨ Q = P ∧ m = n := by
        rw [List.mem_append, List.mem_singleton]
        refine or_congr_right ⟨Place.child_inj, ?_⟩
        rintro ⟨rfl, rfl⟩
        rfl
      rw [num_append hQL]
      by_cases hhere : Q = P ∧ m = n
      · obtain ⟨rfl, rfl⟩ := hhere
        rw [if_pos ⟨rfl, rfl⟩, if_pos (hmem.mpr (Or.inr ⟨rfl, rfl⟩)), hnum, hbound]
        rfl
      · have hother : ¬ (N.num L Q = N.num L P ∧ m = n) := fun h => hhere ⟨num_inj hQL hP h.1, h.2⟩
        rw [if_neg hother, hM.bindings_eq m hQL]
        by_cases hL : Q.child m ∈ L
        · have hthere : N.Stands L (Q.child m) := ⟨hQ.1, Or.inr hL⟩
          rw [if_pos hL, if_pos (hmem.mpr (Or.inl hL)), num_append hthere]
        · rw [if_neg hL, if_neg (fun h => (hmem.mp h).elim hL hhere)]

/-! ## Making -/

/-- A name is entered. -/
theorem Planned.enter (hM : N.Planned M L) (hP : N.Stands L P) (n : Name) :
    ∃ M', M.enter (some (N.num L P)) n = (.ok ((N.toward P n).map (N.num (N.mark L P n))), M') ∧
      N.Planned M' (N.mark L P n) ∧ ∀ Q, N.toward P n = some Q → N.Stands (N.mark L P n) Q := by
  have hlt := hM.num_lt hP
  have hbindings := hM.bindings_eq n hP
  unfold Naming.enter Naming.toward Naming.mark
  simp only [resolve, if_pos hlt, hbindings]
  cases hbound : N.bound P n with
  | some r =>
    have hkept : ¬ (some r = none ∧ P.child n ∉ L) := fun h => by cases h.1
    rw [if_neg hkept, Option.some_or]
    cases r with
    | obj o => exact ⟨M, rfl, hM, fun Q h => (by cases h)⟩
    | cxt d =>
      refine ⟨M, by simp, hM, fun Q h => ?_⟩
      obtain rfl := Option.some.inj h
      refine stands_there L ?_
      unfold bound at hbound
      split at hbound
      · exact N.bound_lt hbound
      · cases hbound
  | none =>
    rw [Option.none_or]
    by_cases hmem : P.child n ∈ L
    · have hkept : ¬ ((none : Option (Ref ω)) = none ∧ P.child n ∉ L) := fun h => h.2 hmem
      rw [if_neg hkept, if_pos hmem]
      refine ⟨M, rfl, hM, fun Q h => ?_⟩
      obtain rfl := Option.some.inj h
      exact ⟨hP.1, Or.inr hmem⟩
    · have hmarked : (none : Option (Ref ω)) = none ∧ P.child n ∉ L := ⟨rfl, hmem⟩
      rw [if_pos hmarked, if_neg hmem]
      have hgrown := hM.grow hP hbound hmem
      have hnum : N.num (L ++ [P.child n]) (P.child n) = M.next := by
        rw [num_of_mem (P.child_names_ne n), List.idxOf_append_of_notMem hmem, List.idxOf_cons_self, hM.next_eq]
        omega
      rw [hbound, if_neg hmem, Option.none_or] at hbindings
      refine ⟨M.grow hlt n, ?_, hgrown, fun Q h => ?_⟩
      · simp only [bindNewContext, dif_pos hlt, hbindings, Option.map_some, hnum]
      · obtain rfl := Option.some.inj h
        exact ⟨hP.1, Or.inr (List.mem_append_right _ (List.mem_singleton_self _))⟩

/-- The contexts that are made on a walk are the places that are to be made, and it ends where it leads. -/
theorem make_places (hM : N.Planned M L) (hcur : ∀ P, cur = some P → N.Stands L P)
    (h : M.make (cur.map (N.num L)) ms = (.ok (some c), N')) : N.Planned N' (N.made L cur ms) ∧
      ∃ P, N.lead cur ms = some P ∧ N.Stands (N.made L cur ms) P ∧ N.num (N.made L cur ms) P = c := by
  induction ms generalizing M L cur with
  | nil =>
    obtain ⟨hx, rfl⟩ := Prod.mk.inj h
    obtain ⟨P, rfl, hnum⟩ := Option.map_eq_some_iff.mp (Except.ok.inj hx)
    exact ⟨hM, P, rfl, hcur P rfl, hnum⟩
  | cons m ms ih =>
    cases m with
    | root =>
      have hroot : ∀ P, some (Place.there 0) = some P → N.Stands L P := by
        rintro P ⟨⟩
        exact stands_there L N.root_lt
      refine ih hM hroot ?_
      rw [Option.map_some, num_there]
      exact h
    | down n =>
      cases cur with
      | none => cases h
      | some P =>
        obtain ⟨M', henter, hM', hstands⟩ := hM.enter (hcur P rfl) n
        rw [Option.map_some, make, henter] at h
        exact ih hM' hstands h
    | beyond => cases h

/-! ## Following -/

variable {plan : Plan ω} {N'' : Naming ω}

/-- What a name is bound to when all is there. -/
theorem Planned.step (hM : N.Planned M plan.made) (hsets : M.Sets (N.num plan.made plan.target) plan.name (some plan.ref) N'')
    (htarget : N.Stands plan.made plan.target) (href : ∀ d, plan.ref = .cxt d → d < N.next) (hP : N.Stands plan.made P)
    (n : Name) :
    (∀ Q, plan.step N P n = some Q → N.Stands plan.made Q ∧
      N''.bindings (N.num plan.made P) n = some (.cxt (N.num plan.made Q))) ∧
    (plan.step N P n = none → ∀ d, N''.bindings (N.num plan.made P) n ≠ some (.cxt d)) := by
  rw [hsets.bindings_eq, hM.bindings_eq n hP]
  unfold Plan.step
  by_cases hhere : P = plan.target ∧ n = plan.name
  · rw [if_pos hhere, if_pos ⟨by rw [hhere.1], hhere.2⟩]
    cases href' : plan.ref with
    | obj o => exact ⟨fun Q h => (by cases h), fun _ d h => (by cases h)⟩
    | cxt d =>
      refine ⟨fun Q h => ?_, fun h => (by cases h)⟩
      obtain rfl := Option.some.inj h
      exact ⟨stands_there _ (href d href'), by rw [num_there]⟩
  · have hother : ¬ (N.num plan.made P = N.num plan.made plan.target ∧ n = plan.name) := fun h =>
      hhere ⟨num_inj hP htarget h.1, h.2⟩
    rw [if_neg hhere, if_neg hother]
    cases hbound : N.bound P n with
    | some r =>
      rw [Option.some_or]
      cases r with
      | obj o => exact ⟨fun Q h => (by cases h), fun _ d h => (by cases h)⟩
      | cxt d =>
        refine ⟨fun Q h => ?_, fun h => (by cases h)⟩
        obtain rfl := Option.some.inj h
        refine ⟨stands_there _ ?_, by rw [num_there]⟩
        unfold bound at hbound
        split at hbound
        · exact N.bound_lt hbound
        · cases hbound
    | none =>
      rw [Option.none_or]
      dsimp only
      by_cases hmem : P.child n ∈ plan.made
      · rw [if_pos hmem, if_pos hmem]
        refine ⟨fun Q h => ?_, fun h => (by cases h)⟩
        obtain rfl := Option.some.inj h
        exact ⟨⟨hP.1, Or.inr hmem⟩, rfl⟩
      · rw [if_neg hmem, if_neg hmem]
        exact ⟨fun Q h => (by cases h), fun _ d h => (by cases h)⟩

/-- Who follows a walk when all is there comes where it leads by the plan. -/
theorem follow_iff_walk (hM : N.Planned M plan.made)
    (hsets : M.Sets (N.num plan.made plan.target) plan.name (some plan.ref) N'')
    (htarget : N.Stands plan.made plan.target) (href : ∀ d, plan.ref = .cxt d → d < N.next)
    (hcur : ∀ P, cur = some P → N.Stands plan.made P) :
    N''.follow (cur.map (N.num plan.made)) ms = .ok (some c) ↔
      ∃ P, plan.walk N cur ms = some P ∧ N.Stands plan.made P ∧ N.num plan.made P = c := by
  induction ms generalizing cur with
  | nil =>
    show Except.ok _ = _ ↔ _
    constructor
    · intro h
      obtain ⟨P, rfl, hnum⟩ := Option.map_eq_some_iff.mp (Except.ok.inj h)
      exact ⟨P, rfl, hcur P rfl, hnum⟩
    · rintro ⟨P, hP, -, rfl⟩
      obtain rfl : cur = some P := hP
      rfl
  | cons m ms ih =>
    cases m with
    | root =>
      have hroot : ∀ P, some (Place.there 0) = some P → N.Stands plan.made P := by
        rintro P ⟨⟩
        exact stands_there _ N.root_lt
      have hwalk := ih hroot
      rw [Option.map_some, num_there] at hwalk
      exact hwalk
    | down n =>
      cases cur with
      | none => exact iff_of_false (fun h => by cases h) (by rintro ⟨P, h, -⟩; cases h)
      | some P =>
        obtain ⟨hsome, hnone⟩ := hM.step hsets htarget href (hcur P rfl) n
        rw [Option.map_some, follow_down_eq_ok, Plan.walk]
        cases hstep : plan.step N P n with
        | some Q =>
          obtain ⟨hQ, hbindings⟩ := hsome Q hstep
          have hnext : ∀ P, some Q = some P → N.Stands plan.made P := by
            rintro P ⟨⟩
            exact hQ
          rw [← ih hnext]
          constructor
          · rintro ⟨c', d, hc', hd, hfollow⟩
            obtain rfl := Option.some.inj hc'
            rw [hbindings] at hd
            obtain rfl := Ref.cxt.inj (Option.some.inj hd)
            exact hfollow
          · intro hfollow
            exact ⟨_, _, rfl, hbindings, hfollow⟩
        | none =>
          refine iff_of_false ?_ (by rintro ⟨P, h, -⟩; cases h)
          rintro ⟨c', d, hc', hd, -⟩
          obtain rfl := Option.some.inj hc'
          exact hnone hstep d hd
    | beyond => exact iff_of_false (fun h => by cases h) (by rintro ⟨P, h, -⟩; cases cur <;> cases h)

end Naming

end Lasagne.Taf
