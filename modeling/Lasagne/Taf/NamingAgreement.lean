import Lasagne.Taf.NamingContext
import Lasagne.Taf.NamingPlaces

/-!
# Lasagne.Taf.NamingAgreement — binding, resolving and unbinding one path

* `agree_iff_met` : what `bind_name` bound is what `resolve_name` finds and `unbind_name` unbinds, exactly if the walk
  with the last slash and the walk without it lead to the same context;
* `agreement_iff` : which is to be seen in the service as it was before;
* `met_of_straight` : they do on a path that is walked straight down, from `this` or from the root.
-/

namespace Lasagne.Taf.NamingContext

open Lasagne.Daf Lasagne.Taf

variable {ω : Type*} {N N' N'' : Naming ω} {this : Option ℕ} {p : List Char} {r : Ref ω} {σ : Site}

/-- The path resolves to the reference, and when it has been unbound it is not found. -/
def Agree (N : Naming ω) (this : Option ℕ) (p : List Char) (r : Ref ω) : Prop :=
  resolveName N this p = .ok r ∧ ∃ N', unbindName N this p = (.ok (), N') ∧
    resolveName N' this p = .error .notFound

/-- What comes in front of the name is found, with its last slash and without, and it is the same context. -/
def Met (N : Naming ω) (this : Option ℕ) (p : List Char) : Prop :=
  ∃ σ c, site p = some σ ∧ N.follow this σ.kept = .ok (some c) ∧ N.follow this σ.dropped = .ok (some c)

/-- A context is bound under one name only. -/
def BoundOnce (N : Naming ω) (d : ℕ) : Prop :=
  ∀ c n c' n', N.bindings c n = some (.cxt d) → N.bindings c' n' = some (.cxt d) → c = c' ∧ n = n'

/-- Where `bind_name` bound the reference. -/
theorem exists_of_bindName (hbind : bindName N this p (some r) = (.ok (), N'')) : ∃ σ c N', site p = some σ ∧
    N.make this σ.kept = (.ok (some c), N') ∧ N'.Sets c σ.name (some r) N'' := by
  obtain ⟨σ, x, N', hσ, hmake, hre⟩ := bindName_eq_ok (Nat.lt_succ_self _) hbind
  obtain ⟨c, rfl, hsets, -⟩ := Naming.rebindRef_eq_ok hre
  exact ⟨σ, c, N', hσ, hmake, hsets⟩

theorem resolveName_eq_ok (hσ : site p = some σ) (h : resolveName N this p = .ok r) :
    ∃ c, N.follow this σ.dropped = .ok (some c) ∧ N.bindings c σ.name = some r := by
  rw [resolveName_eq hσ] at h
  split at h
  · next x hx =>
    obtain ⟨c, rfl, hb⟩ := Naming.resolve_eq_ok.mp h
    exact ⟨c, hx, hb⟩
  · cases h

theorem unbindName_eq_ok (hσ : site p = some σ) (h : unbindName N this p = (.ok (), N')) :
    ∃ c r, N.follow this σ.kept = .ok (some c) ∧ N.bindings c σ.name = some r ∧ N' = N.cut c σ.name := by
  rw [unbindName_eq hσ] at h
  split at h
  · next x hx =>
    obtain ⟨c, r, rfl, hb, rfl⟩ := Naming.unbind_eq_ok.mp h
    exact ⟨c, r, hx, hb, rfl⟩
  · cases h

/-- Two walks that meet at the name: it resolves, and it is not found when it has been unbound. -/
theorem agree_of_met {c : ℕ} (hσ : site p = some σ) (hb : N.bindings c σ.name = some r)
    (hkept : N.follow this σ.kept = .ok (some c)) (hdropped : N.follow this σ.dropped = .ok (some c)) :
    Agree N this p r := by
  have hcut := Naming.sets_cut hb
  refine ⟨?_, N.cut c σ.name, ?_, ?_⟩
  · rw [resolveName_eq hσ, hdropped]
    exact Naming.resolve_eq_ok.mpr ⟨c, rfl, hb⟩
  · rw [unbindName_eq hσ, hkept]
    exact Naming.unbind_eq_ok.mpr ⟨c, r, rfl, hb, rfl⟩
  · rw [resolveName_eq hσ]
    rcases Naming.follow_cut hcut hdropped with hthere | hlost
    · rw [hthere]
      refine Naming.resolve_eq_notFound hcut.lt ?_
      rw [hcut.bindings_eq, if_pos ⟨rfl, rfl⟩]
    · rw [hlost]

/-- It resolves to what it was bound to, and it can be unbound and then is not found, exactly if what comes in front of it
is found, with its last slash, as `bind_name` and `unbind_name` take it, and without, as `resolve_name` does, and is the
same context. -/
theorem agree_iff_met (hN : N.Acyclic) (hbind : bindName N this p (some r) = (.ok (), N''))
    (hone : ∀ d, r = .cxt d → BoundOnce N'' d) : Agree N'' this p r ↔ Met N'' this p := by
  obtain ⟨σ, c, N', hσ, hmake, hsets⟩ := exists_of_bindName hbind
  constructor
  · rintro ⟨hresolve, M, hunbind, hgone⟩
    obtain ⟨c', hdropped, hb'⟩ := resolveName_eq_ok hσ hresolve
    obtain ⟨c₂, r₂, hkept, hb₂, rfl⟩ := unbindName_eq_ok hσ hunbind
    obtain rfl := Option.some.inj (Naming.follow_of_make hN hmake hsets hkept)
    refine ⟨σ, c₂, hσ, hkept, ?_⟩
    cases r with
    | cxt d =>
      obtain ⟨rfl, -⟩ := hone d rfl _ _ _ _ hsets.self hb'
      exact hdropped
    | obj o =>
      -- elsewhere the name would still be there when it has been unbound here
      have hobj : ∀ d, N''.bindings c₂ σ.name ≠ some (.cxt d) := fun d hd => by
        rw [hsets.self] at hd
        cases hd
      have hcut := Naming.sets_cut hb₂
      rw [resolveName_eq hσ, Naming.follow_sets_obj hcut hobj hdropped] at hgone
      by_cases heq : c' = c₂
      · rwa [heq] at hdropped
      · have hthere : (N''.cut c₂ σ.name).resolve (some c') σ.name = .ok (.obj o) :=
          Naming.resolve_eq_ok.mpr ⟨c', rfl, (hcut.other fun h => heq h.1).trans hb'⟩
        cases hthere.symm.trans hgone
  · rintro ⟨τ, c', hτ, hkept, hdropped⟩
    obtain rfl := Option.some.inj (hσ.symm.trans hτ)
    obtain rfl := Option.some.inj (Naming.follow_of_make hN hmake hsets hkept)
    exact agree_of_met hσ hsets.self hkept hdropped

/-- A path that is walked straight down, from `this` or from the root, is no exception. -/
theorem met_of_straight {dirs : List Name} (hN : N.Acyclic) (hbind : bindName N this p (some r) = (.ok (), N''))
    (hσ : site p = some σ) (hsame : σ.kept = σ.dropped)
    (hstraight : σ.kept = dirs.map .down ∨ σ.kept = .root :: dirs.map .down) : Met N'' this p := by
  obtain ⟨τ, c, N', hτ, hmake, hsets⟩ := exists_of_bindName hbind
  obtain rfl := Option.some.inj (hσ.symm.trans hτ)
  have hN' := Naming.make_acyclic hmake hN
  have hkept : N''.follow this σ.kept = .ok (some c) := by
    rcases hstraight with h | h
    · rw [h] at hmake ⊢
      exact Naming.follow_sets_downs hN' hsets (Naming.follow_make_downs hmake)
    · rw [h] at hmake ⊢
      have hroot : N.make (some 0) (dirs.map .down) = (.ok (some c), N') := hmake
      exact Naming.follow_sets_downs hN' hsets (Naming.follow_make_downs hroot)
  exact ⟨σ, c, hσ, hkept, hsame ▸ hkept⟩

/-- A path leads to one place in the service as it is, with the contexts that are to be made on the way: with its last
slash, as it is when the name has been bound there, and without. -/
def Meets (N : Naming ω) (this : Option ℕ) (p : List Char) (r : Ref ω) : Prop :=
  ∃ σ P, site p = some σ ∧ N.lead (this.map .there) σ.kept = some P ∧
    Naming.Plan.walk N ⟨N.made [] (this.map .there) σ.kept, P, σ.name, r⟩ (this.map .there) σ.kept = some P ∧
    Naming.Plan.walk N ⟨N.made [] (this.map .there) σ.kept, P, σ.name, r⟩ (this.map .there) σ.dropped = some P

/-- The context `d` is bound nowhere else than where the path leads. -/
def Unbound (N : Naming ω) (this : Option ℕ) (p : List Char) (d : ℕ) : Prop :=
  ∀ c n, N.bindings c n = some (.cxt d) →
    ∃ σ, site p = some σ ∧ N.lead (this.map .there) σ.kept = some (.there c) ∧ n = σ.name

theorem map_num_there (L : List Place) (this : Option ℕ) : (this.map Place.there).map (N.num L) = this := by
  cases this with
  | none => rfl
  | some t => rw [Option.map_some, Option.map_some, Naming.num_there]

/-- The places of the service before, and the contexts of the service after. -/
theorem exists_place (hthis : ∀ t, this = some t → t < N.next) {c : ℕ}
    (hmake : N.make this σ.kept = (.ok (some c), N')) :
    N.Planned N' (N.made [] (this.map .there) σ.kept) ∧ ∃ P, N.lead (this.map .there) σ.kept = some P ∧
      N.Stands (N.made [] (this.map .there) σ.kept) P ∧ N.num (N.made [] (this.map .there) σ.kept) P = c := by
  refine Naming.make_places (Naming.planned_nil N) (fun P hP => ?_) (by rwa [map_num_there])
  obtain ⟨t, ht, rfl⟩ := Option.map_eq_some_iff.mp hP
  exact Naming.stands_there [] (hthis t ht)

theorem met_iff_meets (hN : N.Acyclic) (hthis : ∀ t, this = some t → t < N.next) (hr : ∀ d, r = .cxt d → d < N.next)
    (hbind : bindName N this p (some r) = (.ok (), N'')) : Met N'' this p ↔ Meets N this p r := by
  obtain ⟨σ, c, N', hσ, hmake, hsets⟩ := exists_of_bindName hbind
  obtain ⟨hplanned, P, hlead, hP, rfl⟩ := exists_place hthis hmake
  have hcur : ∀ Q, this.map Place.there = some Q → N.Stands (N.made [] (this.map .there) σ.kept) Q := by
    intro Q hQ
    obtain ⟨t, ht, rfl⟩ := Option.map_eq_some_iff.mp hQ
    exact Naming.stands_there _ (hthis t ht)
  have hwalk : ∀ {ms : List Move} {c' : ℕ}, N''.follow this ms = .ok (some c') ↔ ∃ Q,
      Naming.Plan.walk N ⟨N.made [] (this.map .there) σ.kept, P, σ.name, r⟩ (this.map .there) ms = some Q ∧
      N.Stands (N.made [] (this.map .there) σ.kept) Q ∧ N.num (N.made [] (this.map .there) σ.kept) Q = c' := by
    intro ms c'
    let plan : Naming.Plan ω := ⟨N.made [] (this.map .there) σ.kept, P, σ.name, r⟩
    have h : N''.follow ((this.map Place.there).map (N.num plan.made)) ms = .ok (some c') ↔
        ∃ Q, plan.walk N (this.map .there) ms = some Q ∧ N.Stands plan.made Q ∧ N.num plan.made Q = c' :=
      Naming.follow_iff_walk hplanned hsets hP hr hcur
    rwa [map_num_there] at h
  constructor
  · rintro ⟨τ, c', hτ, hkept, hdropped⟩
    obtain rfl := Option.some.inj (hσ.symm.trans hτ)
    obtain rfl := Option.some.inj (Naming.follow_of_make hN hmake hsets hkept)
    obtain ⟨Q, hQ, hstands, hnum⟩ := hwalk.mp hkept
    obtain rfl := Naming.num_inj hstands hP hnum
    obtain ⟨Q', hQ', hstands', hnum'⟩ := hwalk.mp hdropped
    obtain rfl := Naming.num_inj hstands' hP hnum'
    exact ⟨σ, _, hσ, hlead, hQ, hQ'⟩
  · rintro ⟨τ, Q, hτ, hlead', hkept, hdropped⟩
    obtain rfl := Option.some.inj (hσ.symm.trans hτ)
    obtain rfl := Option.some.inj (hlead.symm.trans hlead')
    exact ⟨σ, _, hσ, hwalk.mpr ⟨P, hkept, hP, rfl⟩, hwalk.mpr ⟨P, hdropped, hP, rfl⟩⟩

/-- A context that was bound nowhere else is bound once. -/
theorem boundOnce_of_unbound (hthis : ∀ t, this = some t → t < N.next) {d : ℕ} (hd : d < N.next)
    (hbind : bindName N this p (some (.cxt d)) = (.ok (), N'')) (hunbound : Unbound N this p d) : BoundOnce N'' d := by
  obtain ⟨σ, c, N', hσ, hmake, hsets⟩ := exists_of_bindName hbind
  obtain ⟨-, P, hlead, -, hnum⟩ := exists_place hthis hmake
  have hhere : ∀ c' n', N''.bindings c' n' = some (.cxt d) → c' = c ∧ n' = σ.name := by
    intro c' n' hb
    by_contra hother
    rw [hsets.other hother] at hb
    rcases (Naming.make_grows hmake).new hb with hold | ⟨-, e, he, hle⟩
    · obtain ⟨τ, hτ, hlead', rfl⟩ := hunbound c' n' hold
      obtain rfl := Option.some.inj (hσ.symm.trans hτ)
      obtain rfl := Option.some.inj (hlead.symm.trans hlead')
      rw [Naming.num_there] at hnum
      exact hother ⟨hnum, rfl⟩
    · obtain rfl := Ref.cxt.inj he
      omega
  intro c₁ n₁ c₂ n₂ h₁ h₂
  obtain ⟨rfl, rfl⟩ := hhere c₁ n₁ h₁
  obtain ⟨rfl, rfl⟩ := hhere c₂ n₂ h₂
  exact ⟨rfl, rfl⟩

/-- **Path agreement.**  A name was bound in an acyclic service, to an object or to a context that is bound nowhere else.
It resolves to what it was bound to, and it can be unbound and then is not found, exactly if what comes in front of it
leads to one place in the service as it was before, with its last slash, as `bind_name` and `unbind_name` take it, and
without, as `resolve_name` does. -/
theorem agreement_iff (hN : N.Acyclic) (hthis : ∀ t, this = some t → t < N.next)
    (hr : ∀ d, r = .cxt d → d < N.next ∧ Unbound N this p d) (hbind : bindName N this p (some r) = (.ok (), N'')) :
    Agree N'' this p r ↔ Meets N this p r := by
  rw [← met_iff_meets hN hthis (fun d hd => (hr d hd).1) hbind]
  refine agree_iff_met hN hbind fun d hd => ?_
  subst hd
  exact boundOnce_of_unbound hthis (hr d rfl).1 hbind (hr d rfl).2

theorem acyclic_empty : (Naming.empty : Naming ω).Acyclic := ⟨fun _ => 0, fun _ _ _ h => (by cases h)⟩

/-- An object is bound under a path of two names, with a slash in front and a blank behind. -/
theorem agreement_iff_two : ∃ N : Naming ℕ,
    bindName Naming.empty (some 0) ['/', 'a', '/', 'b', ' '] (some (.obj 7)) = (.ok (), N) ∧
    Agree N (some 0) ['/', 'a', '/', 'b', ' '] (.obj 7) := by
  have hσ : site ['/', 'a', '/', 'b', ' '] = some ⟨[.root, .down ['a']], [.root, .down ['a']], ['b']⟩ := by decide
  have hmake : (Naming.empty : Naming ℕ).make (some 0) [.root, .down ['a']] = (.ok (some 1), _) := rfl
  have hbind : bindName (Naming.empty : Naming ℕ) (some 0) ['/', 'a', '/', 'b', ' '] (some (.obj 7)) = (.ok (), _) :=
    (bindName_eq hσ hmake).trans rfl
  have hthis : ∀ t, some 0 = some t → t < (Naming.empty : Naming ℕ).next := by
    intro t ht
    obtain rfl := Option.some.inj ht
    exact Naming.root_lt _
  exact ⟨_, hbind, (agreement_iff acyclic_empty hthis (fun d h => (by cases h)) hbind).mpr
    ⟨_, ⟨0, [['a']]⟩, hσ, rfl, rfl, rfl⟩⟩

/-- On an empty service `a//b` binds `b` in the root, and resolves `b` in `a`. -/
theorem agreement_fails_root : ∃ N : Naming ℕ, (Naming.empty : Naming ℕ).Acyclic ∧
    bindName Naming.empty (some 0) ['a', '/', '/', 'b'] (some (.obj 7)) = (.ok (), N) ∧
    resolveName N (some 0) ['a', '/', '/', 'b'] = .error .notFound ∧
    N.bindings 0 ['b'] = some (.obj 7) := by
  have hσ : site ['a', '/', '/', 'b'] = some ⟨[.down ['a'], .root], [.down ['a']], ['b']⟩ := by decide
  have hmake : (Naming.empty : Naming ℕ).make (some 0) [.down ['a'], .root] = (.ok (some 0), _) := rfl
  refine ⟨_, acyclic_empty, (bindName_eq hσ hmake).trans rfl, ?_, rfl⟩
  rw [resolveName_eq hσ]
  rfl

end Lasagne.Taf.NamingContext
