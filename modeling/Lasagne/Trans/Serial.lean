import Mathlib.Logic.Function.Basic
import Mathlib.Logic.Relation
import Lasagne.Trans.Run

/-!
# Lasagne.Trans.Serial — operations in several steps on the parts of a state

The state has a part for every key.  An operation is on one part and takes several steps, each of which may bring
something from outside; the steps of all threads interleave.  Where no operation starts on a part that another one is
at work on, the operations come to what they come to one after the other, in the order in which they end.

* `Program.Ends` : what an operation comes to by itself;
* `Serial` : what operations come to one after the other;
* `serial_of_run` : every run is serial, but for the operations that are under way.
-/

namespace Lasagne.Trans

open Relation

/-- Operations `α` on a part `τ` of the state, with control points `χ`, inputs `ι` and results `ρ`. -/
structure Program (τ α χ ι ρ : Type*) where
  start : α → χ
  next : χ → ι → τ → τ × (χ ⊕ ρ)

variable {κ θ τ α χ ι ρ : Type*}

namespace Program

variable (P : Program τ α χ ι ρ)

/-- One step from a control point to another one. -/
def Step (x y : χ × τ) : Prop := ∃ i, P.next x.1 i x.2 = (y.2, .inl y.1)

/-- An operation has come to a control point, by itself. -/
def Reaches (a : α) (before : τ) (c : χ) (now : τ) : Prop := ReflTransGen P.Step (P.start a, before) (c, now)

/-- An operation has come to its end, by itself. -/
def Ends (a : α) (before after : τ) (r : ρ) : Prop :=
  ∃ c now i, P.Reaches a before c now ∧ P.next c i now = (after, .inr r)

variable {P}

theorem Reaches.step {a : α} {before now after : τ} {c c' : χ} {i : ι} (h : P.Reaches a before c now)
    (hnext : P.next c i now = (after, .inl c')) : P.Reaches a before c' after :=
  ReflTransGen.tail h ⟨i, hnext⟩

end Program

/-! ## The machine -/

/-- The parts, and where the threads are that are at work on one. -/
structure Parts (κ θ τ α χ : Type*) where
  part : κ → τ
  inside : θ → Option (κ × α × χ)

namespace Parts

inductive Act (κ θ α ι : Type*)
  | start (t : θ) (k : κ) (a : α)
  | step (t : θ) (i : ι)

/-- An operation that has ended, and its result. -/
structure Ended (κ θ α ρ : Type*) where
  thread : θ
  key : κ
  op : α
  result : ρ
deriving DecidableEq

variable [DecidableEq κ] [DecidableEq θ] (P : Program τ α χ ι ρ)

def step (s : Parts κ θ τ α χ) : Act κ θ α ι → Option (Parts κ θ τ α χ × List (Ended κ θ α ρ))
  | .start t k a =>
    match s.inside t with
    | none => some ({ s with inside := Function.update s.inside t (some (k, a, P.start a)) }, [])
    | some _ => none
  | .step t i =>
    match s.inside t with
    | none => none
    | some (k, a, c) =>
      match P.next c i (s.part k) with
      | (x, .inl c') =>
        some (⟨Function.update s.part k x, Function.update s.inside t (some (k, a, c'))⟩, [])
      | (x, .inr r) => some (⟨Function.update s.part k x, Function.update s.inside t none⟩, [⟨t, k, a, r⟩])

def machine (init : κ → τ) : Machine (Parts κ θ τ α χ) (Act κ θ α ι) (Ended κ θ α ρ) := ⟨⟨init, fun _ => none⟩, step P⟩

/-- Nobody is at work on the part. -/
def Idle (s : Parts κ θ τ α χ) (k : κ) : Prop := ∀ t a c, s.inside t ≠ some (k, a, c)

/-- No operation starts on a part that another one is at work on. -/
def Apart (s : Parts κ θ τ α χ) : Act κ θ α ι → Prop
  | .start _ k _ => s.Idle k
  | .step _ _ => True

end Parts

/-! ## One after the other -/

/-- What operations come to one after the other, from `init`. -/
inductive Serial [DecidableEq κ] (P : Program τ α χ ι ρ) (init : κ → τ) : List (Parts.Ended κ θ α ρ) → (κ → τ) → Prop
  | nil : Serial P init [] init
  | snoc {tr : List (Parts.Ended κ θ α ρ)} {base : κ → τ} {x : τ} {e : Parts.Ended κ θ α ρ} :
    Serial P init tr base → P.Ends e.op (base e.key) x e.result → Serial P init (tr ++ [e]) (Function.update base e.key x)

namespace Parts

variable [DecidableEq κ] [DecidableEq θ] {P : Program τ α χ ι ρ} {init : κ → τ}

/-- Where nobody is at work, a part is as the operations that have ended leave it one after the other, and where
somebody is, he is alone and has begun there. -/
structure Follows (P : Program τ α χ ι ρ) (init : κ → τ) (tr : List (Ended κ θ α ρ)) (s : Parts κ θ τ α χ)
    (base : κ → τ) : Prop where
  serial : Serial P init tr base
  idle : ∀ k, s.Idle k → s.part k = base k
  busy : ∀ t k a c, s.inside t = some (k, a, c) → P.Reaches a (base k) c (s.part k)
  alone : ∀ t t' k a a' c c', s.inside t = some (k, a, c) → s.inside t' = some (k, a', c') → t = t'

variable {tr : List (Ended κ θ α ρ)} {s : Parts κ θ τ α χ} {base : κ → τ} {t : θ} {k : κ} {a : α} {c : χ}

/-- Where a thread is after one of them has gone on. -/
theorem inside_cases {β : Type*} {f : θ → Option β} {o : Option β} {t' : θ} {y : β}
    (h : Function.update f t o t' = some y) : t' = t ∧ o = some y ∨ t' ≠ t ∧ f t' = some y := by
  by_cases htt : t' = t
  · rw [htt, Function.update_self] at h
    exact .inl ⟨htt, h⟩
  · rw [Function.update_of_ne htt] at h
    exact .inr ⟨htt, h⟩

theorem Follows.start (h : Follows P init tr s base) (hfree : s.inside t = none) (hidle : s.Idle k) :
    Follows P init tr { s with inside := Function.update s.inside t (some (k, a, P.start a)) } base := by
  refine ⟨h.serial, fun k' hk' => ?_, fun t' k' a' c' ht' => ?_, fun t' t'' k' a' a'' c' c'' ht' ht'' => ?_⟩
  · refine h.idle k' fun t' a' c' ht' => hk' t' a' c' ?_
    have htt : t' ≠ t := by
      rintro rfl
      rw [hfree] at ht'
      cases ht'
    show Function.update s.inside t _ t' = _
    rw [Function.update_of_ne htt, ht']
  · rcases inside_cases ht' with ⟨rfl, heq⟩ | ⟨-, ht'⟩
    · cases heq
      rw [h.idle k hidle]
      exact ReflTransGen.refl
    · exact h.busy t' k' a' c' ht'
  · rcases inside_cases ht' with ⟨rfl, heq⟩ | ⟨-, hat⟩ <;> rcases inside_cases ht'' with ⟨rfl, heq'⟩ | ⟨-, hat'⟩
    · rfl
    · cases heq
      exact absurd hat' (hidle t'' a'' c'')
    · cases heq'
      exact absurd hat (hidle t' a' c')
    · exact h.alone t' t'' k' a' a'' c' c'' hat hat'

omit [DecidableEq θ] in
/-- A thread that works on another part. -/
theorem Follows.other (h : Follows P init tr s base) (hinside : s.inside t = some (k, a, c)) {t' : θ} {k' : κ} {a' : α}
    {c' : χ} (htt : t' ≠ t) (ht' : s.inside t' = some (k', a', c')) : k' ≠ k := by
  rintro rfl
  exact htt (h.alone t' t k' a' a c' c ht' hinside)

omit [DecidableEq κ] in
/-- A part that nobody is at work on after a step was idle before, or is the one of the step. -/
theorem idle_of_idle {o : Option (κ × α × χ)} {x : κ → τ} (hinside : s.inside t = some (k, a, c)) {k' : κ} (hk : k' ≠ k)
    (h : Idle ⟨x, Function.update s.inside t o⟩ k') : s.Idle k' := by
  intro t' a' d ht'
  have htt : t' ≠ t := by
    rintro rfl
    rw [hinside] at ht'
    cases ht'
    exact hk rfl
  refine h t' a' d ?_
  show Function.update s.inside t _ t' = _
  rw [Function.update_of_ne htt, ht']

theorem Follows.goOn (h : Follows P init tr s base) (hinside : s.inside t = some (k, a, c)) {i : ι} {x : τ} {c' : χ}
    (hnext : P.next c i (s.part k) = (x, .inl c')) :
    Follows P init tr ⟨Function.update s.part k x, Function.update s.inside t (some (k, a, c'))⟩ base := by
  refine ⟨h.serial, fun k' hk' => ?_, fun t' k' a' d ht' => ?_, fun t' t'' k' a' a'' d d' ht' ht'' => ?_⟩
  · have hk : k' ≠ k := by
      rintro rfl
      exact hk' t a c' (Function.update_self ..)
    show Function.update s.part k x k' = base k'
    rw [Function.update_of_ne hk]
    exact h.idle k' (idle_of_idle hinside hk hk')
  · show P.Reaches a' (base k') d (Function.update s.part k x k')
    rcases inside_cases ht' with ⟨rfl, heq⟩ | ⟨htt, ht'⟩
    · cases heq
      rw [Function.update_self]
      exact (h.busy t' k a c hinside).step hnext
    · rw [Function.update_of_ne (h.other hinside htt ht')]
      exact h.busy t' k' a' d ht'
  · rcases inside_cases ht' with ⟨rfl, heq⟩ | ⟨htt, hat⟩ <;> rcases inside_cases ht'' with ⟨rfl, heq'⟩ | ⟨htt', hat'⟩
    · rfl
    · cases heq
      exact absurd rfl (h.other hinside htt' hat')
    · cases heq'
      exact absurd rfl (h.other hinside htt hat)
    · exact h.alone t' t'' k' a' a'' d d' hat hat'

theorem Follows.finish (h : Follows P init tr s base) (hinside : s.inside t = some (k, a, c)) {i : ι} {x : τ} {r : ρ}
    (hnext : P.next c i (s.part k) = (x, .inr r)) :
    Follows P init (tr ++ [⟨t, k, a, r⟩]) ⟨Function.update s.part k x, Function.update s.inside t none⟩
      (Function.update base k x) := by
  have hcases : ∀ {t' : θ} {y : κ × α × χ}, Function.update s.inside t none t' = some y → t' ≠ t ∧ s.inside t' = some y := by
    intro t' y ht'
    rcases inside_cases ht' with ⟨-, heq⟩ | ht'
    · cases heq
    · exact ht'
  refine ⟨?_, fun k' hk' => ?_, fun t' k' a' d ht' => ?_, fun t' t'' k' a' a'' d d' ht' ht'' => ?_⟩
  · exact .snoc (e := ⟨t, k, a, r⟩) h.serial ⟨c, s.part k, i, h.busy t k a c hinside, hnext⟩
  · show Function.update s.part k x k' = Function.update base k x k'
    by_cases hk : k' = k
    · rw [hk, Function.update_self, Function.update_self]
    · rw [Function.update_of_ne hk, Function.update_of_ne hk]
      exact h.idle k' (idle_of_idle hinside hk hk')
  · obtain ⟨htt, ht'⟩ := hcases ht'
    have hk := h.other hinside htt ht'
    show P.Reaches a' (Function.update base k x k') d (Function.update s.part k x k')
    rw [Function.update_of_ne hk, Function.update_of_ne hk]
    exact h.busy t' k' a' d ht'
  · exact h.alone t' t'' k' a' a'' d d' (hcases ht').2 (hcases ht'').2

/-- Every run in which the operations on a part are apart is serial, in the order in which they end. -/
theorem serial_of_run {π : List (Taken (Parts κ θ τ α χ) (Act κ θ α ι) (Ended κ θ α ρ))} {s : Parts κ θ τ α χ}
    (hr : Run (machine P init) π s) (hapart : Meets Apart π) : ∃ base, Follows P init (events π) s base := by
  refine Run.inv (P := fun tr s => ∃ base, Follows P init tr s base)
    ⟨init, .nil, fun _ _ => rfl, fun _ _ _ _ h => (by cases h), fun _ _ _ _ _ _ _ h => (by cases h)⟩ ?_ hr hapart
  rintro tr s act s' es hact ⟨base, h⟩ hstep
  change step P s act = some (s', es) at hstep
  cases act with
  | start t k a =>
    simp only [step] at hstep
    split at hstep
    · next hfree =>
      obtain ⟨rfl, rfl⟩ := Prod.mk.inj (Option.some.inj hstep)
      rw [List.append_nil]
      exact ⟨base, h.start hfree hact⟩
    · cases hstep
  | step t i =>
    simp only [step] at hstep
    split at hstep
    · cases hstep
    · next k a c hinside =>
      split at hstep
      · next x c' hnext =>
        obtain ⟨rfl, rfl⟩ := Prod.mk.inj (Option.some.inj hstep)
        rw [List.append_nil]
        exact ⟨base, h.goOn hinside hnext⟩
      · next x r hnext =>
        obtain ⟨rfl, rfl⟩ := Prod.mk.inj (Option.some.inj hstep)
        exact ⟨Function.update base k x, h.finish hinside hnext⟩

end Parts

end Lasagne.Trans
