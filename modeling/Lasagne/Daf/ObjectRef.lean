import Mathlib
import Lasagne.Trans.Run
import Lasagne.Trans.Count

/-!
# Lasagne.Daf.ObjectRef — `DAF::ObjectRef` over `DAF::RefCount`

Handles that own one count of the object they designate.  Some members adopt the count of a raw pointer, others
take a count of their own; both give up the count of what the handle designated before.

The state has the counts, the handles and the raw pointers that own a count and that no handle has adopted.  Each
member is used as documented: what a handle adopts owns a count, and a handle is constructed once at a time.  A
count is a natural number: every count has a pointer of its own, and there are fewer than `2 ^ 64` of these.

* `Owned`: the counts against the owners, with the pointers that an operation has in its hands.
* `Owned.release`, `Owned.duplicate`, `Owned.put`: one rule for each way a count moves.
* `owned_by`: in every run the count is the number of owners, and the object is removed once, at zero.
-/

namespace Lasagne.Daf

open Lasagne.Trans

/-! ## `RefCount` -/

namespace RefCount

inductive Exn where
  | INV_OBJREF
deriving DecidableEq, Repr

/-- `_add_ref`, on a count. -/
def addRef (refCount_ : ℕ) : Except Exn ℕ :=
  if refCount_ > 0 then .ok (refCount_ + 1) else .error .INV_OBJREF

/-- `_remove_ref`, on a count; `true`: it calls `__remove`. -/
def removeRef (refCount_ : ℕ) : Except Exn (ℕ × Bool) :=
  if refCount_ > 0 then
    if refCount_ - 1 > 0 then .ok (refCount_ - 1, false) else .ok (refCount_ - 1, true)
  else .error .INV_OBJREF

end RefCount

namespace ObjectRef

open RefCount

/-! ## Objects, handles and raw pointers -/

inductive Event (ο : Type*) where
  /-- `__remove` is called -/
  | removed (o : ο)
  | threw (e : Exn)
deriving DecidableEq, Repr

/-- `refCount_` of the objects made so far, `ptr_` of the handles there are, and the raw pointers with a count. -/
structure World (ο η : Type*) where
  refCount_ : ο → Option ℕ
  ptr_ : η → Option (Option ο)
  raw : List ο

/-- The operations; `p = none` is the nil pointer. -/
inductive Act (ο η τ : Type*) where
  /-- `new`: the object starts with one count -/
  | new (o : ο)
  /-- `ObjectRef(T *)` -/
  | adopt (h : η) (p : Option ο)
  /-- `ObjectRef(const T &)` -/
  | bind (h : η) (o : ο)
  /-- `ObjectRef(const ObjectRef &)` -/
  | copy (h k : η)
  | destroy (h : η)
  /-- `= (T *)` -/
  | assignPtr (h : η) (p : Option ο)
  /-- `= (const T &)` -/
  | assignObj (h : η) (o : ο)
  /-- `= (const ObjectRef &)` -/
  | assign (h k : η)
  | out (h : η)
  /-- the callee writes to the reference that `out` gave it -/
  | fill (h : η) (p : Option ο)
  | retn (h : η)
  /-- `narrow` to `A` of the pointer in `h` -/
  | narrow (h : η) (A : τ)
  | free (h : η)
  | reset (h : η) (p : Option ο)
  /-- `ObjectRef<A>` made of `h` -/
  | widen (h k : η) (A : τ)
  /-- `duplicate`, by a caller that has the object -/
  | duplicate (o : ο)
  /-- `release` of a raw pointer, or of an object that is gone -/
  | release (o : ο)
deriving DecidableEq, Repr

section Step

variable {ο η τ : Type*} [DecidableEq ο] [DecidableEq η]

/-- `this->ptr_ = p`. -/
def World.put (s : World ο η) (h : η) (p : Option ο) : World ο η :=
  { s with ptr_ := Function.update s.ptr_ h (some p) }

/-- `refCount_ = n`, in the object. -/
def World.setCount (s : World ο η) (o : ο) (n : ℕ) : World ο η :=
  { s with refCount_ := Function.update s.refCount_ o (some n) }

/-- A raw pointer that its caller may give away: nil, or with a count. -/
def World.owns (s : World ο η) : Option ο → Bool
  | none => true
  | some o => o ∈ s.raw

/-- The caller has given it away. -/
def World.disown (s : World ο η) : Option ο → World ο η
  | none => s
  | some o => { s with raw := s.raw.erase o }

/-- `_remove_ref` of the object. -/
def removeRef (s : World ο η) (o : ο) : Except Exn (World ο η × List (Event ο)) :=
  (RefCount.removeRef ((s.refCount_ o).getD 0)).map fun r =>
    (s.setCount o r.1, if r.2 then [.removed o] else [])

/-- `ObjectRefTraits::release` of a pointer that is set to nil. -/
def release (s : World ο η) (h : η) (p : Option ο) : Except Exn (World ο η × List (Event ο)) :=
  match p with
  | none => .ok (s, [])
  | some o => (removeRef s o).map fun r => (r.1.put h none, r.2)

/-- `ObjectRefTraits::duplicate`. -/
def duplicate (s : World ο η) : Option ο → Except Exn (World ο η)
  | none => .ok s
  | some o => (addRef ((s.refCount_ o).getD 0)).map fun n => s.setCount o n

/-- `ObjectRefTraits::narrow`: nil where the `dynamic_cast` gives nil or the count is gone. -/
def narrow (derives : ο → τ → Bool) (s : World ο η) (p : Option ο) (A : τ) : World ο η × Option ο :=
  match p with
  | none => (s, none)
  | some o =>
    if derives o A then
      match duplicate s p with
      | .ok s' => (s', p)
      | .error _ => (s, none)
    else (s, none)

/-- An operation that throws where `r` does, in the state `s`. -/
def orThrow {α : Type*} (s : World ο η) (es : List (Event ο)) (r : Except Exn α)
    (f : α → World ο η × List (Event ο)) : World ο η × List (Event ο) :=
  match r with
  | .ok x => f x
  | .error e => (s, es ++ [.threw e])

/-- One operation. -/
def step (derives : ο → τ → Bool) (s : World ο η) : Act ο η τ → Option (World ο η × List (Event ο))
  | .new o =>
    if s.refCount_ o = none then some ({ s.setCount o 1 with raw := o :: s.raw }, []) else none
  | .adopt h p =>
    if s.ptr_ h = none ∧ s.owns p then some ((s.disown p).put h p, []) else none
  | .bind h o =>
    if s.ptr_ h = none ∧ (s.refCount_ o).isSome then
      some (orThrow s [] (duplicate s (some o)) fun s' => (s'.put h (some o), []))
    else none
  | .copy h k =>
    match s.ptr_ h, s.ptr_ k with
    | none, some p => some (orThrow s [] (duplicate s p) fun s' => (s'.put h p, []))
    | _, _ => none
  | .destroy h =>
    (s.ptr_ h).map fun p =>
      orThrow s [] (release s h p) fun r => ({ r.1 with ptr_ := Function.update r.1.ptr_ h none }, r.2)
  | .assignPtr h p | .reset h p =>
    if s.owns p then
      (s.ptr_ h).map fun q => orThrow s [] (release s h q) fun r => ((r.1.disown p).put h p, r.2)
    else none
  | .assignObj h o =>
    if (s.refCount_ o).isSome then
      (s.ptr_ h).map fun q =>
        if q ≠ some o then
          orThrow s [] (release s h q) fun r =>
            orThrow r.1 r.2 (duplicate r.1 (some o)) fun s' => (s'.put h (some o), r.2)
        else (s, [])
    else none
  | .assign h k =>
    match s.ptr_ h, s.ptr_ k with
    | some q, some p =>
      some (if h ≠ k then
        orThrow s [] (release s h q) fun r => orThrow r.1 r.2 (duplicate r.1 p) fun s' => (s'.put h p, r.2)
      else (s, []))
    | _, _ => none
  | .out h =>
    (s.ptr_ h).map fun q => orThrow s [] (release s h q) fun r => (r.1.put h none, r.2)
  | .fill h p =>
    if s.ptr_ h = some none ∧ s.owns p then some ((s.disown p).put h p, []) else none
  | .retn h =>
    (s.ptr_ h).map fun q => ({ s.put h none with raw := q.toList ++ s.raw }, [])
  | .narrow h A =>
    (s.ptr_ h).map fun q =>
      let r := narrow derives s q A
      ({ r.1 with raw := r.2.toList ++ r.1.raw }, [])
  | .free h => (s.ptr_ h).map fun q => orThrow s [] (release s h q) fun r => r
  | .widen h k A =>
    match s.ptr_ h, s.ptr_ k with
    | some q, none =>
      let r := narrow derives s q A
      some (if r.2 = none then (r.1, [.threw .INV_OBJREF]) else (r.1.put k r.2, []))
    | _, _ => none
  | .duplicate o =>
    if (s.refCount_ o).isSome then
      some (orThrow s [] (duplicate s (some o)) fun s' => ({ s' with raw := o :: s'.raw }, []))
    else none
  | .release o =>
    if o ∈ s.raw ∨ s.refCount_ o = some 0 then
      some (orThrow s [] (removeRef s o) fun r => (r.1.disown (some o), r.2))
    else none

/-- Before anything is made. -/
def machine (derives : ο → τ → Bool) : Machine (World ο η) (Act ο η τ) (Event ο) where
  init := ⟨fun _ => none, fun _ => none, []⟩
  step := step derives

/-! ## Owners -/

variable [Fintype η]

/-- How many handles and raw pointers own a count of the object. -/
def owners (s : World ο η) (o : ο) : ℕ := count (fun x => decide (x = some (some o))) s.ptr_ + s.raw.count o

/-- The counts are those of the owners and of the pointers in hand, and what is at zero was removed once. -/
structure Owned (tr : List (Event ο)) (hand : List ο) (s : World ο η) : Prop where
  counts : ∀ o, (s.refCount_ o).getD 0 = owners s o + hand.count o
  removed : ∀ o, tr.count (.removed o) = if s.refCount_ o = some 0 then 1 else 0

variable {tr : List (Event ο)} {hand : List ο} {s s' : World ο η} {h k : η} {p q : Option ο} {o : ο}

omit [Fintype η] in
theorem decide_join (x : Option (Option ο)) (o : ο) :
    (decide (x = some (some o))).toNat = x.join.toList.count o := by
  rcases x with _ | _ | o'
  · rfl
  · rfl
  · by_cases ho : o' = o <;> simp [ho]

theorem owners_update (s : World ο η) (h : η) (x : Option (Option ο)) (o : ο) :
    owners { s with ptr_ := Function.update s.ptr_ h x } o + (s.ptr_ h).join.toList.count o =
      owners s o + x.join.toList.count o := by
  have hup := count_update (fun y => decide (y = some (some o))) s.ptr_ h x
  simp only [decide_join] at hup
  unfold owners
  dsimp only
  omega

theorem owners_put (s : World ο η) (h : η) (p : Option ο) (o : ο) :
    owners (s.put h p) o + (s.ptr_ h).join.toList.count o = owners s o + p.toList.count o :=
  owners_update s h (some p) o

omit [DecidableEq η] in
theorem Owned.threw (hs : Owned tr hand s) (e : Exn) : Owned (tr ++ [.threw e]) hand s := by
  refine ⟨hs.counts, fun o => ?_⟩
  rw [List.count_append, hs.removed]
  simp

/-- What is in hand goes to a handle that designates nothing. -/
theorem Owned.put (hs : Owned tr (p.toList ++ hand) s) (hh : (s.ptr_ h).join = none) :
    Owned tr hand (s.put h p) := by
  refine ⟨fun o => ?_, hs.removed⟩
  have hput := owners_put s h p o
  have hcounts := hs.counts o
  rw [hh] at hput
  rw [List.count_append] at hcounts
  show (s.refCount_ o).getD 0 = _
  simp only [Option.toList_none, List.count_nil] at hput
  omega

/-- What a handle designates is taken in hand. -/
theorem Owned.take (hs : Owned tr hand s) (hh : (s.ptr_ h).join = q) :
    Owned tr (q.toList ++ hand) (s.put h none) := by
  refine ⟨fun o => ?_, hs.removed⟩
  have hput := owners_put s h none o
  have hcounts := hs.counts o
  rw [hh] at hput
  rw [List.count_append]
  show (s.refCount_ o).getD 0 = _
  simp only [Option.toList_none, List.count_nil] at hput
  omega

omit [DecidableEq η] in
/-- A caller gives its raw pointer away. -/
theorem Owned.disown (hs : Owned tr hand s) (hp : s.owns p = true) : Owned tr (p.toList ++ hand) (s.disown p) := by
  cases p with
  | none => exact hs
  | some o' =>
    have ho' : o' ∈ s.raw := by simpa [World.owns] using hp
    refine ⟨fun o => ?_, hs.removed⟩
    have hcounts := hs.counts o
    have herase : (s.raw.erase o').count o + [o'].count o = s.raw.count o := by
      rw [(List.perm_cons_erase ho').count_eq o]
      simp only [List.count_cons, List.count_nil, Nat.zero_add]
    show (s.refCount_ o).getD 0 = count _ s.ptr_ + (s.raw.erase o').count o + ([o'] ++ hand).count o
    rw [List.count_append]
    unfold owners at hcounts
    omega

omit [DecidableEq η] in
/-- A caller keeps what is in hand. -/
theorem Owned.keep (hs : Owned tr (p.toList ++ hand) s) : Owned tr hand { s with raw := p.toList ++ s.raw } := by
  refine ⟨fun o => ?_, hs.removed⟩
  have hcounts := hs.counts o
  rw [List.count_append] at hcounts
  show (s.refCount_ o).getD 0 = count _ s.ptr_ + (p.toList ++ s.raw).count o + hand.count o
  rw [List.count_append]
  unfold owners at hcounts
  omega

omit [DecidableEq η] in
theorem owners_setCount (s : World ο η) (o : ο) (n : ℕ) (o' : ο) : owners (s.setCount o n) o' = owners s o' := rfl

omit [DecidableEq η] in
/-- One count goes, and with the last one the object. -/
theorem Owned.removeRef (hs : Owned tr (o :: hand) s) :
    ∃ r, removeRef s o = .ok r ∧ Owned (tr ++ r.2) hand r.1 ∧ r.1.ptr_ = s.ptr_ ∧ r.1.raw = s.raw := by
  obtain ⟨n, hn⟩ : ∃ n, s.refCount_ o = some (n + 1) := by
    have hcounts := hs.counts o
    cases ho : s.refCount_ o with
    | none => simp [ho] at hcounts
    | some m =>
      rw [ho, List.count_cons_self] at hcounts
      exact ⟨m - 1, by simp at hcounts; congr 1; omega⟩
  have hrem : RefCount.removeRef (n + 1) = .ok (n, decide (n = 0)) := by
    unfold RefCount.removeRef
    rw [if_pos (by omega)]
    split_ifs with h0
    · rw [decide_eq_false (by omega)]
      rfl
    · rw [decide_eq_true (by omega)]
      rfl
  refine ⟨(s.setCount o n, if decide (n = 0) = true then [.removed o] else []), ?_, ⟨fun o' => ?_, fun o' => ?_⟩,
    rfl, rfl⟩
  · unfold ObjectRef.removeRef
    rw [hn, Option.getD_some, hrem]
    rfl
  · have hcounts := hs.counts o'
    rw [owners_setCount]
    by_cases ho : o' = o
    · subst ho
      rw [hn, List.count_cons_self] at hcounts
      simp [World.setCount] at hcounts ⊢
      omega
    · rw [List.count_cons_of_ne (Ne.symm ho)] at hcounts
      simpa [World.setCount, ho] using hcounts
  · have hremoved := hs.removed o'
    rw [List.count_append, hremoved]
    by_cases ho : o' = o
    · subst ho
      by_cases h0 : n = 0 <;> simp [World.setCount, hn, h0]
    · by_cases h0 : n = 0 <;> simp [World.setCount, ho, h0, Ne.symm ho]

omit [Fintype η] in
theorem release_some (s : World ο η) (h : η) (o : ο) :
    ObjectRef.release s h (some o) = ObjectRef.removeRef (s.put h none) o := by
  show ((ObjectRef.removeRef s o).map fun r => (r.1.put h none, r.2)) = _
  unfold ObjectRef.removeRef
  rw [show (s.put h none).refCount_ = s.refCount_ from rfl]
  cases RefCount.removeRef ((s.refCount_ o).getD 0) <;> rfl

omit [DecidableEq η] in
/-- A count is taken, or there is none to add to. -/
theorem Owned.duplicate (hs : Owned tr hand s) (p : Option ο) :
    (∃ s', duplicate s p = .ok s' ∧ Owned tr (p.toList ++ hand) s' ∧ s'.ptr_ = s.ptr_ ∧ s'.raw = s.raw) ∨
      ∃ o, p = some o ∧ (s.refCount_ o).getD 0 = 0 ∧ duplicate s p = .error .INV_OBJREF := by
  cases p with
  | none => exact Or.inl ⟨s, rfl, hs, rfl, rfl⟩
  | some o =>
    by_cases h0 : (s.refCount_ o).getD 0 = 0
    · refine Or.inr ⟨o, rfl, h0, ?_⟩
      simp [ObjectRef.duplicate, addRef, h0, Except.map]
    · refine Or.inl ⟨s.setCount o ((s.refCount_ o).getD 0 + 1), ?_, ⟨fun o' => ?_, fun o' => ?_⟩, rfl, rfl⟩
      · show (addRef ((s.refCount_ o).getD 0)).map (fun n => s.setCount o n) = _
        unfold addRef
        rw [if_pos (by omega)]
        rfl
      · have hcounts := hs.counts o'
        rw [owners_setCount, List.count_append, Option.toList_some, List.count_cons, List.count_nil]
        by_cases ho : o' = o
        · subst ho
          simp [World.setCount]
          omega
        · simp [World.setCount, ho, Ne.symm ho]
          omega
      · rw [hs.removed o']
        by_cases ho : o' = o
        · subst ho
          have hne : s.refCount_ o' ≠ some 0 := fun h => h0 (by rw [h]; rfl)
          simp [World.setCount, hne]
        · simp [World.setCount, ho]

/-- A handle lets go of what it designates. -/
theorem Owned.release (hs : Owned tr hand s) (hh : s.ptr_ h = some q) :
    ∃ r, release s h q = .ok r ∧ Owned (tr ++ r.2) hand r.1 ∧
      r.1.ptr_ = Function.update s.ptr_ h (some none) ∧ r.1.raw = s.raw := by
  cases q with
  | none =>
    refine ⟨(s, []), rfl, ?_, ?_, rfl⟩
    · rw [List.append_nil]
      exact hs
    · rw [← hh, Function.update_eq_self]
  | some o =>
    have htake : Owned tr (o :: hand) (s.put h none) := hs.take (q := some o) (by rw [hh]; rfl)
    obtain ⟨r, hr, hown, hptr, hraw⟩ := htake.removeRef
    refine ⟨r, ?_, hown, hptr, hraw⟩
    rw [← hr]
    exact release_some s h o

/-! ## Operations -/

section Rules

variable {P : World ο η × List (Event ο) → Prop} {es : List (Event ο)} {f : World ο η → World ο η × List (Event ο)}
  {g : World ο η × List (Event ο) → World ο η × List (Event ο)}

omit [DecidableEq η] in
/-- What comes after a `duplicate`. -/
theorem Owned.orThrow_duplicate (hs : Owned tr hand s) (herr : P (s, es ++ [.threw .INV_OBJREF]))
    (hok : ∀ s', Owned tr (p.toList ++ hand) s' → s'.ptr_ = s.ptr_ → s'.raw = s.raw → P (f s')) :
    P (orThrow s es (ObjectRef.duplicate s p) f) := by
  rcases hs.duplicate p with ⟨s', hdup, hown, hptr, hraw⟩ | ⟨o, -, -, hdup⟩ <;> rw [hdup]
  · exact hok s' hown hptr hraw
  · exact herr

/-- What comes after a `release`. -/
theorem Owned.orThrow_release (hs : Owned tr hand s) (hh : s.ptr_ h = some q)
    (hok : ∀ r, Owned (tr ++ r.2) hand r.1 → r.1.ptr_ = Function.update s.ptr_ h (some none) →
      r.1.raw = s.raw → P (g r)) :
    P (orThrow s [] (ObjectRef.release s h q) g) := by
  obtain ⟨r, hrel, hown, hptr, hraw⟩ := hs.release hh
  rw [hrel]
  exact hok r hown hptr hraw

end Rules

omit [DecidableEq η] in
theorem Owned.narrow (hs : Owned tr hand s) (derives : ο → τ → Bool) (p : Option ο) (A : τ) :
    Owned tr ((narrow derives s p A).2.toList ++ hand) (narrow derives s p A).1 ∧
      (narrow derives s p A).1.ptr_ = s.ptr_ ∧ (narrow derives s p A).1.raw = s.raw := by
  unfold ObjectRef.narrow
  cases p with
  | none => exact ⟨hs, rfl, rfl⟩
  | some o =>
    dsimp only
    split_ifs with hd
    · rcases hs.duplicate (some o) with ⟨s', hdup, hown, hptr, hraw⟩ | ⟨o', -, -, hdup⟩ <;> rw [hdup]
      · exact ⟨hown, hptr, hraw⟩
      · exact ⟨hs, rfl, rfl⟩
    · exact ⟨hs, rfl, rfl⟩

variable {derives : ο → τ → Bool} {a : Act ο η τ} {es : List (Event ο)}

/-- A state that an operation may end in, with what it emits. -/
def Ends (tr : List (Event ο)) (r : World ο η × List (Event ο)) : Prop := Owned (tr ++ r.2) [] r.1

omit [DecidableEq η] in
theorem Owned.ends (hs : Owned tr [] s) : Ends tr (s, []) := by
  unfold Ends
  rw [List.append_nil]
  exact hs

/-- `release`, then the pointer that the caller gives away. -/
theorem Owned.assignPtr (hs : Owned tr [] s) (hh : s.ptr_ h = some q) (hp : s.owns p = true) :
    Ends tr (orThrow s [] (ObjectRef.release s h q) fun r => ((r.1.disown p).put h p, r.2)) := by
  refine hs.orThrow_release hh fun r hown hptr hraw => ?_
  have hnil : (r.1.ptr_ h).join = none := by simp [hptr]
  have howns : r.1.owns p = true := by
    cases p with
    | none => rfl
    | some o => simpa [World.owns, hraw] using hp
  refine (hown.disown howns).put ?_
  cases p <;> exact hnil

/-- `release`, then `duplicate`. -/
theorem Owned.assign (hs : Owned tr [] s) (hh : s.ptr_ h = some q) :
    Ends tr (orThrow s [] (ObjectRef.release s h q) fun r =>
      orThrow r.1 r.2 (ObjectRef.duplicate r.1 p) fun s' => (s'.put h p, r.2)) := by
  refine hs.orThrow_release hh fun r hown hptr _ => ?_
  refine hown.orThrow_duplicate ?_ fun s' hown' hptr' _ => ?_
  · unfold Ends
    rw [← List.append_assoc]
    exact hown.threw _
  · exact hown'.put (by simp [hptr', hptr])

/-- `duplicate` into a new handle. -/
theorem Owned.construct (hs : Owned tr [] s) (hh : s.ptr_ h = none) :
    Ends tr (orThrow s [] (ObjectRef.duplicate s p) fun s' => (s'.put h p, [])) := by
  refine hs.orThrow_duplicate (hs.threw _) fun s' hown hptr _ => ?_
  exact Owned.ends (hown.put (by rw [hptr, hh]; rfl))

omit [DecidableEq η] in
/-- A new object starts with the count of the pointer that `new` gives. -/
theorem Owned.new (hs : Owned tr [] s) (hnew : s.refCount_ o = none) :
    Ends tr ({ s.setCount o 1 with raw := o :: s.raw }, []) := by
  refine Owned.ends (Owned.keep (p := some o) (s := s.setCount o 1) ⟨fun o' => ?_, fun o' => ?_⟩)
  · have hcounts := hs.counts o'
    rw [owners_setCount, Option.toList_some, List.append_nil]
    by_cases ho : o' = o
    · subst ho
      rw [hnew] at hcounts
      simp [World.setCount] at hcounts ⊢
      omega
    · simpa [World.setCount, ho, Ne.symm ho] using hcounts
  · rw [hs.removed o']
    by_cases ho : o' = o
    · subst ho
      simp [World.setCount, hnew]
    · simp [World.setCount, ho]

/-- A handle is destroyed. -/
theorem Owned.destroy (hs : Owned tr [] s) (hh : s.ptr_ h = some q) :
    Ends tr (orThrow s [] (ObjectRef.release s h q) fun r =>
      ({ r.1 with ptr_ := Function.update r.1.ptr_ h none }, r.2)) := by
  refine hs.orThrow_release hh fun r hown hptr _ => ⟨fun o => ?_, hown.removed⟩
  have hcounts := hown.counts o
  have hup := owners_update r.1 h none o
  rw [hptr, Function.update_self] at hup
  show (r.1.refCount_ o).getD 0 = owners { r.1 with ptr_ := Function.update r.1.ptr_ h none } o + _
  rw [hcounts, hptr]
  simpa using hup.symm

omit [DecidableEq η] [Fintype η] in
theorem removeRef_disown (s : World ο η) (o : ο) :
    ObjectRef.removeRef (s.disown (some o)) o =
      (ObjectRef.removeRef s o).map fun r => (r.1.disown (some o), r.2) := by
  unfold ObjectRef.removeRef
  rw [show (s.disown (some o)).refCount_ = s.refCount_ from rfl]
  cases RefCount.removeRef ((s.refCount_ o).getD 0) <;> rfl

omit [DecidableEq η] [Fintype η] in
/-- `_remove_ref` at zero. -/
theorem removeRef_zero (h0 : s.refCount_ o = some 0) : ObjectRef.removeRef s o = .error .INV_OBJREF := by
  unfold ObjectRef.removeRef
  rw [h0]
  rfl

omit [DecidableEq η] [Fintype η] in
/-- `_add_ref` at zero. -/
theorem duplicate_zero (h0 : s.refCount_ o = some 0) :
    ObjectRef.duplicate s (some o) = .error .INV_OBJREF := by
  show (addRef ((s.refCount_ o).getD 0)).map _ = _
  rw [h0]
  rfl

omit [DecidableEq η] in
/-- A count is given up by hand, or there is none. -/
theorem Owned.release_raw (hs : Owned tr [] s) (ho : o ∈ s.raw ∨ s.refCount_ o = some 0) :
    Ends tr (orThrow s [] (ObjectRef.removeRef s o) fun r => (r.1.disown (some o), r.2)) := by
  by_cases hraw : o ∈ s.raw
  · have hhand := hs.disown (p := some o) (by simpa [World.owns] using hraw)
    obtain ⟨r, hr, hown, -, -⟩ := Owned.removeRef (o := o) hhand
    rw [removeRef_disown] at hr
    cases hrem : ObjectRef.removeRef s o with
    | error e => simp [hrem, Except.map] at hr
    | ok t =>
      rw [hrem] at hr
      obtain rfl := Except.ok.inj hr
      exact hown
  · rw [removeRef_zero (ho.resolve_left hraw)]
    exact hs.threw _

/-- Every operation moves as many counts as owners. -/
theorem Owned.step (hs : Owned tr [] s) (hstep : step derives s a = some (s', es)) : Ends tr (s', es) := by
  cases a with
  | new o =>
    simp only [ObjectRef.step] at hstep
    split_ifs at hstep with hnew
    rw [← Option.some.inj hstep]
    exact hs.new hnew
  | adopt h p =>
    simp only [ObjectRef.step] at hstep
    split_ifs at hstep with hp
    rw [← Option.some.inj hstep]
    refine Owned.ends ((hs.disown hp.2).put ?_)
    cases p <;> exact congrArg Option.join hp.1
  | bind h o =>
    simp only [ObjectRef.step] at hstep
    split_ifs at hstep with hp
    rw [← Option.some.inj hstep]
    exact hs.construct hp.1
  | copy h k =>
    simp only [ObjectRef.step] at hstep
    split at hstep
    · next p hh hk =>
      rw [← Option.some.inj hstep]
      exact hs.construct hh
    · cases hstep
  | destroy h =>
    obtain ⟨q, hq, hstep⟩ := Option.map_eq_some_iff.mp hstep
    rw [← hstep]
    exact hs.destroy hq
  | assignPtr h p | reset h p =>
    simp only [ObjectRef.step] at hstep
    split_ifs at hstep with hp
    obtain ⟨q, hq, hstep⟩ := Option.map_eq_some_iff.mp hstep
    rw [← hstep]
    exact hs.assignPtr hq hp
  | assignObj h o =>
    simp only [ObjectRef.step] at hstep
    split_ifs at hstep with ho
    obtain ⟨q, hq, hstep⟩ := Option.map_eq_some_iff.mp hstep
    rw [← hstep]
    split_ifs with hne
    · exact hs.assign hq
    · exact hs.ends
  | assign h k =>
    simp only [ObjectRef.step] at hstep
    split at hstep
    · next q p hh hk =>
      rw [← Option.some.inj hstep]
      split_ifs with hne
      · exact hs.assign hh
      · exact hs.ends
    · cases hstep
  | out h =>
    obtain ⟨q, hq, hstep⟩ := Option.map_eq_some_iff.mp hstep
    rw [← hstep]
    refine hs.orThrow_release hq fun r hown hptr _ => ?_
    exact Owned.put (p := none) hown (by simp [hptr])
  | fill h p =>
    simp only [ObjectRef.step] at hstep
    split_ifs at hstep with hp
    rw [← Option.some.inj hstep]
    refine Owned.ends ((hs.disown hp.2).put ?_)
    cases p <;> exact congrArg Option.join hp.1
  | retn h =>
    obtain ⟨q, hq, hstep⟩ := Option.map_eq_some_iff.mp hstep
    rw [← hstep]
    exact Owned.ends (hs.take (by rw [hq]; rfl)).keep
  | narrow h A =>
    obtain ⟨q, hq, hstep⟩ := Option.map_eq_some_iff.mp hstep
    rw [← hstep]
    exact Owned.ends (hs.narrow derives q A).1.keep
  | free h =>
    obtain ⟨q, hq, hstep⟩ := Option.map_eq_some_iff.mp hstep
    rw [← hstep]
    exact hs.orThrow_release hq fun r hown _ _ => hown
  | widen h k A =>
    simp only [ObjectRef.step] at hstep
    split at hstep
    · next q hh hk =>
      rw [← Option.some.inj hstep]
      obtain ⟨hown, hptr, -⟩ := hs.narrow derives q A
      split_ifs with hnil
      · rw [hnil] at hown
        exact Owned.threw hown _
      · exact Owned.ends (hown.put (by rw [hptr, hk]; rfl))
    · cases hstep
  | duplicate o =>
    simp only [ObjectRef.step] at hstep
    split_ifs at hstep with ho
    rw [← Option.some.inj hstep]
    refine hs.orThrow_duplicate (hs.threw _) fun s' hown _ _ => ?_
    exact Owned.ends (Owned.keep (p := some o) hown)
  | release o =>
    simp only [ObjectRef.step] at hstep
    split_ifs at hstep with ho
    rw [← Option.some.inj hstep]
    exact hs.release_raw ho

variable {π : List (Taken (World ο η) (Act ο η τ) (Event ο))}

theorem run_owned (hr : Run (machine derives) π s) : Owned (events π) [] s := by
  refine Run.inv (C := fun _ _ => True) (P := fun tr s => Owned tr [] s) ⟨fun o => ?_, fun o => rfl⟩ ?_ hr
    fun _ _ => trivial
  · have h0 : count (fun x : Option (Option ο) => decide (x = some (some o))) (fun _ : η => none) = 0 :=
      count_eq_zero.mpr fun _ => by simp
    show 0 = count _ (fun _ : η => none) + 0 + 0
    rw [h0]
  · intro tr s a s' es _ h hstep
    exact h.step hstep

/-- **Ownership.**  In every run the count of every object is the number of handles and raw pointers that own one,
and `__remove` was called once for those made whose number is zero and for no others; and where the count is zero,
`_add_ref` and `_remove_ref` throw and change nothing, and it stays zero. -/
theorem owned_by (hr : Run (machine derives) π s) (o : ο) :
    (∀ n, s.refCount_ o = some n → n = owners s o) ∧ (s.refCount_ o = none → owners s o = 0) ∧
    (events π).count (.removed o) = (if (s.refCount_ o).isSome ∧ owners s o = 0 then 1 else 0) ∧
    (s.refCount_ o = some 0 →
      step derives s (.duplicate o) = some (s, [.threw .INV_OBJREF]) ∧
      step derives s (.release o) = some (s, [.threw .INV_OBJREF]) ∧
      ∀ ρ s', Run (machine derives) (π ++ ρ) s' → s'.refCount_ o = some 0) := by
  have hs := run_owned hr
  have hcounts := hs.counts o
  rw [List.count_nil, Nat.add_zero] at hcounts
  refine ⟨fun n hn => ?_, fun hn => ?_, ?_, fun h0 => ⟨?_, ?_, fun ρ s' hr' => ?_⟩⟩
  · rw [← hcounts, hn]
    rfl
  · rw [← hcounts, hn]
    rfl
  · rw [hs.removed o, ← hcounts]
    cases s.refCount_ o <;> simp
  · simp only [step, h0, Option.isSome_some, if_true]
    rw [duplicate_zero h0]
    rfl
  · simp only [step, h0, or_true, if_true]
    rw [removeRef_zero h0]
    rfl
  · -- it was removed, and what was removed is at zero
    have hremoved := hs.removed o
    have hremoved' := (run_owned hr').removed o
    rw [if_pos h0] at hremoved
    rw [show events (π ++ ρ) = events π ++ events ρ by simp [events], List.count_append, hremoved] at hremoved'
    by_contra hne
    rw [if_neg hne] at hremoved'
    omega

/-- Two handles of one object, assigned to each other, and a third that adopts what the first gives up. -/
theorem owned_by_three :
    ∃ (π : _) (s : World (Fin 1) (Fin 3)), Run (machine fun _ (_ : Unit) => true) π s ∧ owners s 0 = 1 ∧
      s.refCount_ 0 = some 1 := by
  obtain ⟨π, s, hr, hp⟩ := exists_run_of_replay (M := machine fun (_ : Fin 1) (_ : Unit) => true)
    (p := fun _ (s : World (Fin 1) (Fin 3)) => decide (s.refCount_ 0 = some 1))
    [.new 0, .adopt 0 (some 0), .copy 1 0, .assign 0 1, .assignObj 1 0, .narrow 0 (), .reset 1 none, .retn 0,
      .adopt 2 (some 0), .assignPtr 2 (some 0)] (by decide)
  have hone := of_decide_eq_true hp
  exact ⟨π, s, hr, ((owned_by hr 0).1 1 hone).symm, hone⟩

end Step

end ObjectRef

end Lasagne.Daf
