import Mathlib
import Lasagne.Trans.Attempts
import Lasagne.Daf.FormatArgs

/-!
# Lasagne.Taf.IORBinder — a sequence of binders

What could not be bound is taken out of the sequence, so that it is not unbound in the end.

* `initLoop_eq`, `finiLoop_eq` : the two loops by the calls that they make;
* `init_fini` : what is bound, and what is unbound again.
-/

namespace Lasagne.Taf

open Lasagne.Daf Lasagne.Trans

/-! ## The model -/

/-- `add_binding` lets no nil reference in. -/
structure IORBinderSequence (β : Type*) where
  binders : List β
  bind_name_ : Text

namespace IORBinderSequence

variable {β ω σ : Type*}

def empty : IORBinderSequence β := ⟨[], []⟩

/-- `IORBinderSequence::add_binding`. -/
def addBinding (binding : IORBinderSequence β) : Option β → IORBinderSequence β
  | some ref => { binding with binders := binding.binders ++ [ref] }
  | none => binding

/-- The loop of `init_bind`: the errors, and what is not erased. -/
def initLoop (makeBindName : β → Text → Text) (initBind : β × Text × ω → σ → Outcome × σ) (bind_name : Text) (obj : ω) :
    ℕ → List β → σ → ℕ × List β × σ
  | errors, [], s => (errors, [], s)
  | errors, it :: rest, s =>
    match initBind (it, makeBindName it bind_name, obj) s with
    | (.ok, s) =>
      let (errors, kept, s) := initLoop makeBindName initBind bind_name obj errors rest s
      (errors, it :: kept, s)
    | (_, s) => initLoop makeBindName initBind bind_name obj (errors + 1) rest s

/-- `IORBinderSequence::init_bind`. -/
def initBind (makeBindName : β → Text → Text) (initBind : β × Text × ω → σ → Outcome × σ)
    (binding : IORBinderSequence β) (name : Text) (obj : ω) (s : σ) : ℕ × IORBinderSequence β × σ :=
  let bind_name := trimString name ' '
  let (errors, kept, s) := initLoop makeBindName initBind bind_name obj 0 binding.binders s
  (errors, ⟨kept, bind_name⟩, s)

/-- The loop of `fini_bind`, which goes backwards. -/
def finiLoop (makeBindName : β → Text → Text) (finiBind : β × Text → σ → Outcome × σ) (bind_name : Text) :
    ℕ → List β → σ → ℕ × σ
  | errors, [], s => (errors, s)
  | errors, it :: rest, s =>
    match finiBind (it, makeBindName it bind_name) s with
    | (.ok, s) => finiLoop makeBindName finiBind bind_name errors rest s
    | (_, s) => finiLoop makeBindName finiBind bind_name (errors + 1) rest s

/-- `IORBinderSequence::fini_bind`. -/
def finiBind (makeBindName : β → Text → Text) (finiBind : β × Text → σ → Outcome × σ) (binding : IORBinderSequence β)
    (s : σ) : ℕ × σ := finiLoop makeBindName finiBind binding.bind_name_ 0 binding.binders.reverse s

/-! ## The calls -/

variable {makeBindName : β → Text → Text}

theorem initLoop_eq (initBind : β × Text × ω → σ → Outcome × σ) (bind_name : Text) (obj : ω) (errors : ℕ)
    (binders : List β) (s : σ) :
    let made := attempts initBind (binders.map fun it => (it, makeBindName it bind_name, obj)) s
    initLoop makeBindName initBind bind_name obj errors binders s =
      (errors + failures made.1, (successes made.1).map Prod.fst, made.2) := by
  dsimp only
  induction binders generalizing errors s with
  | nil => rfl
  | cons it rest ih =>
    rw [List.map_cons, attempts_cons, failures_cons, successes_cons, initLoop]
    rcases hcall : initBind (it, makeBindName it bind_name, obj) s with ⟨outcome, s⟩
    cases outcome with
    | ok => simp [ih]
    | failed => simp [ih, Nat.add_assoc, Nat.add_comm 1]
    | threw => simp [ih, Nat.add_assoc, Nat.add_comm 1]

theorem finiLoop_eq (finiBind : β × Text → σ → Outcome × σ) (bind_name : Text) (errors : ℕ) (binders : List β) (s : σ) :
    let made := attempts finiBind (binders.map fun it => (it, makeBindName it bind_name)) s
    finiLoop makeBindName finiBind bind_name errors binders s = (errors + failures made.1, made.2) := by
  dsimp only
  induction binders generalizing errors s with
  | nil => rfl
  | cons it rest ih =>
    rw [List.map_cons, attempts_cons, failures_cons, finiLoop]
    rcases hcall : finiBind (it, makeBindName it bind_name) s with ⟨outcome, s⟩
    cases outcome with
    | ok => simp [ih]
    | failed => simp [ih, Nat.add_assoc, Nat.add_comm 1]
    | threw => simp [ih, Nat.add_assoc, Nat.add_comm 1]

theorem binders_foldl_addBinding (refs : List (Option β)) (binding : IORBinderSequence β) :
    (refs.foldl addBinding binding).binders = binding.binders ++ refs.filterMap id := by
  induction refs generalizing binding with
  | nil => simp
  | cons ref refs ih =>
    rw [List.foldl_cons, ih]
    cases ref <;> simp [addBinding]

theorem initBind_eq (binding : IORBinderSequence β) (init : β × Text × ω → σ → Outcome × σ) (name : Text) (obj : ω)
    (s : σ) :
    let made := attempts init (binding.binders.map fun it => (it, makeBindName it (trimString name ' '), obj)) s
    binding.initBind makeBindName init name obj s =
      (failures made.1, ⟨(successes made.1).map Prod.fst, trimString name ' '⟩, made.2) := by
  dsimp only
  unfold initBind
  dsimp only
  rw [initLoop_eq, Nat.zero_add]

theorem finiBind_eq (binding : IORBinderSequence β) (fini : β × Text → σ → Outcome × σ) (s : σ) :
    let made := attempts fini (binding.binders.reverse.map fun it => (it, makeBindName it binding.bind_name_)) s
    binding.finiBind makeBindName fini s = (failures made.1, made.2) := by
  dsimp only
  unfold finiBind
  rw [finiLoop_eq, Nat.zero_add]

/-- `init_bind` calls every binder once, in order, and keeps those that came to 0, whatever became of the others; `fini_bind`
calls each of these once, from the last one to the first, with the name that it was bound with. -/
theorem init_fini (makeBindName : β → Text → Text) (init : β × Text × ω → σ → Outcome × σ)
    (fini : β × Text → σ → Outcome × σ) (refs : List (Option β)) (name : Text) (obj : ω) (s t : σ) :
    let binding := refs.foldl addBinding empty
    let calls := (refs.filterMap id).map fun it => (it, makeBindName it (trimString name ' '), obj)
    let bound := attempts init calls s
    let kept := (successes bound.1).map Prod.fst
    let calls' := kept.reverse.map fun it => (it, makeBindName it (trimString name ' '))
    let unbound := attempts fini calls' t
    binding.initBind makeBindName init name obj s = (failures bound.1, ⟨kept, trimString name ' '⟩, bound.2) ∧
      (binding.initBind makeBindName init name obj s).2.1.finiBind makeBindName fini t =
        (failures unbound.1, unbound.2) ∧
      bound.1.map Prod.fst = calls ∧ unbound.1.map Prod.fst = calls' := by
  dsimp only
  rw [initBind_eq, binders_foldl_addBinding, empty, List.nil_append]
  refine ⟨rfl, ?_, map_fst_attempts .., map_fst_attempts ..⟩
  exact finiBind_eq _ fini t

end IORBinderSequence

end Lasagne.Taf
