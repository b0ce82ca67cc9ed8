import Mathlib
import Lasagne.Trans.Run

/-!
# Lasagne.Trans.Registry — counted holders that are found by a key

A holder is made under a key, counts the references to it and has references to earlier holders of its own.
The last reference that goes marks the holder; then it is taken out of the table, and then its own references
go one by one.  A request under a key that the table knows gives a further reference to what is there.  All
steps of all threads interleave.

* `Inv` : every count is the number of references there are, and the table is what is not yet taken out;
* `Inv.step`, `inv_of_run` : every step keeps it, so it holds in every state of every run;
* `Inv.referenced` : what is referred to is live;
* `Inv.quiet` : where no reference is left outside and no step of a removal is left, nothing is left.
-/

namespace Lasagne.Trans

/-! ## The machine -/

/-- Where a holder is between its making and its end; `dropping` has the references that it still has. -/
inductive Stage
  | live
  | removing
  | dropping (left : List ℕ)
deriving DecidableEq

structure Holder (κ ι : Type*) where
  key : κ
  info : ι
  deps : List ℕ
  count : ℕ
  stage : Stage
deriving DecidableEq

variable {κ ι : Type*}

namespace Holder

/-- The references that a holder has. -/
def held (x : Holder κ ι) : List ℕ :=
  match x.stage with
  | .dropping left => left
  | _ => x.deps

/-- A holder that was not yet taken out of the table. -/
def Mapped (x : Holder κ ι) : Prop :=
  match x.stage with
  | .dropping _ => False
  | _ => True

instance (x : Holder κ ι) : Decidable x.Mapped := by
  unfold Mapped
  split <;> infer_instance

/-- One reference more. -/
def ref (n : ℕ) (x : Holder κ ι) : Holder κ ι := { x with count := x.count + n }

/-- One reference less; the last one marks the holder. -/
def unref (x : Holder κ ι) : Holder κ ι :=
  if 1 < x.count then { x with count := x.count - 1 } else { x with count := 0, stage := .removing }

def setStage (stage : Stage) (x : Holder κ ι) : Holder κ ι := { x with stage := stage }

/-- The steps that a holder has before it is at its end, once its count is none. -/
def weight (x : Holder κ ι) : ℕ :=
  match x.stage with
  | .live => x.deps.length + 2
  | .removing => x.deps.length + 1
  | .dropping left => left.length

@[simp] theorem unref_count (x : Holder κ ι) : x.unref.count = x.count - 1 := by
  unfold unref
  split
  · rfl
  · show 0 = _
    omega

@[simp] theorem unref_key (x : Holder κ ι) : x.unref.key = x.key := by
  unfold unref
  split <;> rfl

@[simp] theorem unref_deps (x : Holder κ ι) : x.unref.deps = x.deps := by
  unfold unref
  split <;> rfl

theorem held_of_live {x : Holder κ ι} (hx : x.stage = .live) : x.held = x.deps := by
  simp [held, hx]

theorem mapped_of_live {x : Holder κ ι} (hx : x.stage = .live) : x.Mapped := by
  simp [Mapped, hx]

/-- A live holder that loses a reference has its own references still, and is in the table still. -/
theorem unref_of_live {x : Holder κ ι} (hx : x.stage = .live) :
    x.unref.held = x.deps ∧ x.unref.Mapped ∧ (x.unref.stage = .live ↔ 0 < x.count - 1) := by
  unfold unref
  split
  · next hcount => exact ⟨by simp [held, hx], by simp [Mapped, hx], by simp only [hx, true_iff]; omega⟩
  · next hcount => exact ⟨by simp [held], by simp [Mapped], by simp only [reduceCtorEq, false_iff]; omega⟩

end Holder

/-- The holders in the order they were made, the table that finds them, and the references from outside. -/
structure Registry (κ ι : Type*) where
  holders : List (Holder κ ι)
  table : κ → Option ℕ
  handles : ℕ → ℕ

namespace Registry

/-- `request` brings the holders that a new one refers to, and whether one could be made. -/
inductive Action (κ ι : Type*)
  | request (key : κ) (info : ι) (deps : List ℕ) (made : Bool)
  | copy (h : ℕ)
  | release (h : ℕ)
  | unmap (h : ℕ)
  | drop (h : ℕ)
deriving DecidableEq

inductive Event (κ ι : Type*)
  | created (key : κ) (info : ι) (h : ℕ)
  | located (key : κ) (info : ι) (h : ℕ)
  | dangling (key : κ) (h : ℕ)
  | refused (key : κ)
  | removed (h : ℕ)
deriving DecidableEq

/-- A new holder with a reference from outside, and its own references. -/
def create [DecidableEq κ] (s : Registry κ ι) (key : κ) (info : ι) (deps : List ℕ) : Registry κ ι where
  holders := (s.holders.mapIdx fun d x => x.ref (deps.count d)) ++ [⟨key, info, deps, 1, .live⟩]
  table := Function.update s.table key (some s.holders.length)
  handles := Function.update s.handles s.holders.length 1

/-- A reference from outside more. -/
def addHandle (s : Registry κ ι) (h : ℕ) : Registry κ ι :=
  { s with holders := s.holders.modify h (Holder.ref 1), handles := Function.update s.handles h (s.handles h + 1) }

/-- A reference from outside less. -/
def dropHandle (s : Registry κ ι) (h : ℕ) : Registry κ ι :=
  { s with holders := s.holders.modify h Holder.unref, handles := Function.update s.handles h (s.handles h - 1) }

/-- The holder is taken out of the table. -/
def takeOut (s : Registry κ ι) (h : ℕ) (deps : List ℕ) : Registry κ ι :=
  { s with
    holders := s.holders.modify h (Holder.setStage (.dropping deps))
    table := fun key => if s.table key = some h then none else s.table key }

/-- One of the references of a holder goes. -/
def dropOne (s : Registry κ ι) (h d : ℕ) (left : List ℕ) : Registry κ ι :=
  { s with holders := (s.holders.modify h (Holder.setStage (.dropping left))).modify d Holder.unref }

section Fields

variable (s : Registry κ ι) (h : ℕ)

@[simp] theorem holders_addHandle : (s.addHandle h).holders = s.holders.modify h (Holder.ref 1) := rfl

@[simp] theorem table_addHandle : (s.addHandle h).table = s.table := rfl

@[simp] theorem handles_addHandle : (s.addHandle h).handles = Function.update s.handles h (s.handles h + 1) := rfl

@[simp] theorem holders_dropHandle : (s.dropHandle h).holders = s.holders.modify h Holder.unref := rfl

@[simp] theorem table_dropHandle : (s.dropHandle h).table = s.table := rfl

@[simp] theorem handles_dropHandle : (s.dropHandle h).handles = Function.update s.handles h (s.handles h - 1) := rfl

@[simp] theorem holders_takeOut (deps : List ℕ) :
    (s.takeOut h deps).holders = s.holders.modify h (Holder.setStage (.dropping deps)) := rfl

@[simp] theorem handles_takeOut (deps : List ℕ) : (s.takeOut h deps).handles = s.handles := rfl

theorem table_takeOut (deps : List ℕ) (key : κ) :
    (s.takeOut h deps).table key = if s.table key = some h then none else s.table key := rfl

@[simp] theorem holders_dropOne (d : ℕ) (left : List ℕ) :
    (s.dropOne h d left).holders = (s.holders.modify h (Holder.setStage (.dropping left))).modify d Holder.unref := rfl

@[simp] theorem table_dropOne (d : ℕ) (left : List ℕ) : (s.dropOne h d left).table = s.table := rfl

@[simp] theorem handles_dropOne (d : ℕ) (left : List ℕ) : (s.dropOne h d left).handles = s.handles := rfl

end Fields

/-- A request for what is in the table, and else for a new holder.  The caller has references to what the new
holder refers to, among them the holder `owner key` that the table of the key belongs to. -/
def step [DecidableEq κ] (owner : κ → Option ℕ) (s : Registry κ ι) : Action κ ι → Option (Registry κ ι × List (Event κ ι))
  | .request key info deps made =>
    if (∀ d ∈ deps, 0 < s.handles d) ∧ ∀ p ∈ owner key, p ∈ deps then
      match s.table key with
      | some h =>
        match s.holders[h]? with
        | some x => if 0 < x.count then some (s.addHandle h, [.located key info h]) else some (s, [.dangling key h])
        | none => none
      | none =>
        if made then some (s.create key info deps, [.created key info s.holders.length]) else some (s, [.refused key])
    else none
  | .copy h => if 0 < s.handles h then some (s.addHandle h, []) else none
  | .release h => if 0 < s.handles h then some (s.dropHandle h, []) else none
  | .unmap h =>
    match s.holders[h]? with
    | some x => if x.stage = .removing then some (s.takeOut h x.deps, [.removed h]) else none
    | none => none
  | .drop h =>
    match s.holders[h]? with
    | some x =>
      match x.stage with
      | .dropping (d :: left) => some (s.dropOne h d left, [])
      | _ => none
    | none => none

def empty : Registry κ ι := ⟨[], fun _ => none, fun _ => 0⟩

def machine [DecidableEq κ] (owner : κ → Option ℕ) : Machine (Registry κ ι) (Action κ ι) (Event κ ι) := ⟨empty, step owner⟩

/-! ## The invariant -/

/-- The references that there are to `h`. -/
def refs (s : Registry κ ι) (h : ℕ) : ℕ := s.handles h + (s.holders.map fun x => x.held.count h).sum

variable {s s' : Registry κ ι} {owner : κ → Option ℕ}

structure Inv (owner : κ → Option ℕ) (s : Registry κ ι) : Prop where
  fresh : ∀ h, s.holders.length ≤ h → s.handles h = 0
  earlier : ∀ (h : ℕ) (x : Holder κ ι), s.holders[h]? = some x → ∀ d ∈ x.deps, d < h
  held : ∀ (h : ℕ) (x : Holder κ ι), s.holders[h]? = some x → ∀ d ∈ x.held, d ∈ x.deps
  owned : ∀ (h : ℕ) (x : Holder κ ι), s.holders[h]? = some x → ∀ p ∈ owner x.key, p ∈ x.deps
  counted : ∀ (h : ℕ) (x : Holder κ ι), s.holders[h]? = some x → x.count = s.refs h
  live : ∀ (h : ℕ) (x : Holder κ ι), s.holders[h]? = some x → (x.stage = .live ↔ 0 < x.count)
  mapped : ∀ (h : ℕ) (x : Holder κ ι), s.holders[h]? = some x → x.Mapped → s.table x.key = some h
  found : ∀ key h, s.table key = some h → ∃ x : Holder κ ι, s.holders[h]? = some x ∧ x.key = key ∧ x.Mapped

theorem inv_empty : Inv owner (empty : Registry κ ι) := by
  constructor <;> simp [empty]

/-- What changes holders one by one keeps the invariant where it does so for each of them. -/
theorem Inv.transform (hs : Inv owner s) (f : ℕ → Holder κ ι → Holder κ ι)
    (hat : ∀ h, s'.holders[h]? = (s.holders[h]?).map (f h))
    (hfresh : ∀ h, s.holders.length ≤ h → s'.handles h = 0)
    (hshape : ∀ h x, s.holders[h]? = some x → (f h x).key = x.key ∧ (f h x).deps = x.deps ∧ ∀ d ∈ (f h x).held, d ∈ x.held)
    (hcount : ∀ h x, s.holders[h]? = some x → (f h x).count = s'.refs h ∧ ((f h x).stage = .live ↔ 0 < (f h x).count))
    (hmapped : ∀ h x, s.holders[h]? = some x → (f h x).Mapped → x.Mapped ∧ s'.table x.key = s.table x.key)
    (hfound : ∀ key h, s'.table key = some h →
      s.table key = some h ∧ ∀ x, s.holders[h]? = some x → x.Mapped → (f h x).Mapped) :
    Inv owner s' := by
  have hinv : ∀ {h : ℕ} {y : Holder κ ι}, s'.holders[h]? = some y → ∃ x, s.holders[h]? = some x ∧ f h x = y := by
    intro h y hy
    rwa [hat, Option.map_eq_some_iff] at hy
  constructor
  case fresh =>
    intro h hh
    refine hfresh h (List.getElem?_eq_none_iff.mp ?_)
    have hnone := List.getElem?_eq_none_iff.mpr hh
    rwa [hat, Option.map_eq_none_iff] at hnone
  case earlier =>
    intro h y hy
    obtain ⟨x, hx, rfl⟩ := hinv hy
    rw [(hshape h x hx).2.1]
    exact hs.earlier h x hx
  case held =>
    intro h y hy d hd
    obtain ⟨x, hx, rfl⟩ := hinv hy
    rw [(hshape h x hx).2.1]
    exact hs.held h x hx d ((hshape h x hx).2.2 d hd)
  case owned =>
    intro h y hy
    obtain ⟨x, hx, rfl⟩ := hinv hy
    rw [(hshape h x hx).2.1, (hshape h x hx).1]
    exact hs.owned h x hx
  case counted =>
    intro h y hy
    obtain ⟨x, hx, rfl⟩ := hinv hy
    exact (hcount h x hx).1
  case live =>
    intro h y hy
    obtain ⟨x, hx, rfl⟩ := hinv hy
    exact (hcount h x hx).2
  case mapped =>
    intro h y hy hm
    obtain ⟨x, hx, rfl⟩ := hinv hy
    obtain ⟨hm, htable⟩ := hmapped h x hx hm
    rw [(hshape h x hx).1, htable]
    exact hs.mapped h x hx hm
  case found =>
    intro key h hkey
    obtain ⟨hkey, hm⟩ := hfound key h hkey
    obtain ⟨x, hx, hxkey, hxm⟩ := hs.found key h hkey
    exact ⟨f h x, by rw [hat, hx]; rfl, by rw [(hshape h x hx).1, hxkey], hm x hx hxm⟩

/-! ## The steps -/

theorem sum_map_modify {α : Type*} (g : α → ℕ) (f : α → α) {l : List α} {i : ℕ} {x : α} (h : l[i]? = some x) :
    ((l.modify i f).map g).sum + g x = (l.map g).sum + g (f x) := by
  induction l generalizing i with
  | nil => simp at h
  | cons a l ih =>
    cases i with
    | zero =>
      obtain rfl : a = x := by simpa using h
      simp only [List.modify_zero_cons, List.map_cons, List.sum_cons]
      omega
    | succ i =>
      have := ih (i := i) (by simpa using h)
      simp only [List.modify_succ_cons, List.map_cons, List.sum_cons]
      omega

/-- What a holder refers to is live. -/
theorem Inv.pos_of_held (hs : Inv owner s) {h d : ℕ} {x y : Holder κ ι} (hx : s.holders[h]? = some x) (hd : d ∈ x.held)
    (hy : s.holders[d]? = some y) : 0 < y.count := by
  rw [hs.counted d y hy, refs]
  have hle : x.held.count d ≤ (s.holders.map fun x => x.held.count d).sum :=
    List.single_le_sum (by simp) _ (List.mem_map.mpr ⟨x, List.mem_of_getElem? hx, rfl⟩)
  have := List.count_pos_iff.mpr hd
  omega

/-- What there is a reference to from outside is live. -/
theorem Inv.live_of_handle (hs : Inv owner s) {h : ℕ} (hpos : 0 < s.handles h) :
    ∃ x, s.holders[h]? = some x ∧ 0 < x.count := by
  have hlt : h < s.holders.length := by
    by_contra hge
    have := hs.fresh h (Nat.le_of_not_lt hge)
    omega
  refine ⟨s.holders[h], List.getElem?_eq_getElem hlt, ?_⟩
  rw [hs.counted h _ (List.getElem?_eq_getElem hlt), refs]
  omega

theorem length_of_getElem? {α : Type*} {l : List α} {i h : ℕ} {x : α} (hx : l[h]? = some x) (hi : l.length ≤ i) : i ≠ h := by
  rintro rfl
  rw [List.getElem?_eq_none_iff.mpr hi] at hx
  cases hx

/-- Changing a holder without changing what it refers to. -/
theorem sum_held_modify {f : Holder κ ι → Holder κ ι} {h : ℕ} {x : Holder κ ι} (hx : s.holders[h]? = some x)
    (hf : (f x).held = x.held) (i : ℕ) :
    ((s.holders.modify h f).map fun y => y.held.count i).sum = (s.holders.map fun y => y.held.count i).sum := by
  have hsum := sum_map_modify (fun y : Holder κ ι => y.held.count i) f hx
  rw [hf] at hsum
  exact Nat.add_right_cancel hsum

theorem Inv.addHandle (hs : Inv owner s) {h : ℕ} {x : Holder κ ι} (hx : s.holders[h]? = some x) (hpos : 0 < x.count) :
    Inv owner (s.addHandle h) := by
  refine hs.transform (fun i y => if h = i then y.ref 1 else y) (fun i => ?_) (fun i hi => ?_) (fun i y hy => ?_)
    (fun i y hy => ?_) (fun i y hy hm => ?_) (fun key i hkey => ⟨hkey, fun y hy hm => ?_⟩)
  · rw [holders_addHandle, List.getElem?_modify]
    rfl
  · rw [handles_addHandle, Function.update_of_ne (length_of_getElem? hx hi)]
    exact hs.fresh i hi
  · split <;> exact ⟨rfl, rfl, fun d hd => hd⟩
  · have hcounted := hs.counted i y hy
    rw [refs] at hcounted ⊢
    rw [holders_addHandle, sum_held_modify hx rfl, handles_addHandle]
    by_cases hi : h = i
    · subst hi
      obtain rfl : x = y := by simpa [hx] using hy
      simp only [if_true, Function.update_self, Holder.ref, hs.live h x hx]
      omega
    · simp only [if_neg hi, Function.update_of_ne (Ne.symm hi), hs.live i y hy, and_true]
      exact hcounted
  · refine ⟨?_, rfl⟩
    split at hm
    · exact hm
    · exact hm
  · split
    · exact hm
    · exact hm

theorem Inv.dropHandle (hs : Inv owner s) {h : ℕ} (hpos : 0 < s.handles h) : Inv owner (s.dropHandle h) := by
  obtain ⟨x, hx, hcount⟩ := hs.live_of_handle hpos
  have hlive : x.stage = .live := (hs.live h x hx).mpr hcount
  obtain ⟨hheld, hmapped, hstage⟩ := Holder.unref_of_live hlive
  have hone : ∀ {y : Holder κ ι}, s.holders[h]? = some y → y = x := fun hy => by simpa [hx] using hy.symm
  refine hs.transform (fun i y => if h = i then y.unref else y) (fun i => ?_) (fun i hi => ?_) (fun i y hy => ?_)
    (fun i y hy => ?_) (fun i y hy hm => ?_) (fun key i hkey => ⟨hkey, fun y hy hm => ?_⟩)
  · rw [holders_dropHandle, List.getElem?_modify]
    rfl
  · rw [handles_dropHandle, Function.update_of_ne (length_of_getElem? hx hi)]
    exact hs.fresh i hi
  · split
    · next hi =>
      subst hi
      obtain rfl := hone hy
      exact ⟨Holder.unref_key _, Holder.unref_deps _, fun d hd => by rwa [hheld, ← Holder.held_of_live hlive] at hd⟩
    · exact ⟨rfl, rfl, fun d hd => hd⟩
  · have hcounted := hs.counted i y hy
    rw [refs] at hcounted ⊢
    rw [holders_dropHandle, sum_held_modify hx (by rw [hheld, Holder.held_of_live hlive]), handles_dropHandle]
    by_cases hi : h = i
    · subst hi
      obtain rfl := hone hy
      simp only [if_true, Function.update_self, Holder.unref_count, hstage, and_true]
      omega
    · simp only [if_neg hi, Function.update_of_ne (Ne.symm hi), hs.live i y hy, and_true]
      exact hcounted
  · refine ⟨?_, rfl⟩
    split at hm
    · next hi =>
      subst hi
      obtain rfl := hone hy
      exact Holder.mapped_of_live hlive
    · exact hm
  · split
    · next hi =>
      subst hi
      obtain rfl := hone hy
      exact hmapped
    · exact hm

theorem Inv.takeOut (hs : Inv owner s) {h : ℕ} {x : Holder κ ι} (hx : s.holders[h]? = some x)
    (hstage : x.stage = .removing) : Inv owner (s.takeOut h x.deps) := by
  have hone : ∀ {y : Holder κ ι}, s.holders[h]? = some y → y = x := fun hy => by simpa [hx] using hy.symm
  have hheld : (x.setStage (.dropping x.deps)).held = x.held := by
    simp [Holder.held, Holder.setStage, hstage]
  refine hs.transform (fun i y => if h = i then y.setStage (.dropping x.deps) else y) (fun i => ?_) (fun i hi => ?_)
    (fun i y hy => ?_) (fun i y hy => ?_) (fun i y hy hm => ?_) (fun key i hkey => ?_)
  · rw [holders_takeOut, List.getElem?_modify]
    rfl
  · exact hs.fresh i hi
  · split
    · next hi =>
      subst hi
      obtain rfl := hone hy
      exact ⟨rfl, rfl, fun d hd => hheld ▸ hd⟩
    · exact ⟨rfl, rfl, fun d hd => hd⟩
  · have hcounted := hs.counted i y hy
    rw [refs] at hcounted ⊢
    rw [holders_takeOut, sum_held_modify hx hheld, handles_takeOut]
    split
    · next hi =>
      subst hi
      obtain rfl := hone hy
      refine ⟨hcounted, ?_⟩
      have hnot := (hs.live h y hx).not.mp (by simp [hstage])
      simpa [Holder.setStage] using hnot
    · exact ⟨hcounted, hs.live i y hy⟩
  · split at hm
    · exact absurd hm (by simp [Holder.Mapped, Holder.setStage])
    · next hi =>
      have hkey := hs.mapped i y hy hm
      refine ⟨hm, ?_⟩
      rw [table_takeOut, hkey, if_neg (by simpa using Ne.symm hi)]
  · rw [table_takeOut] at hkey
    split at hkey
    · cases hkey
    · next hi =>
      rw [hkey] at hi
      refine ⟨hkey, fun y hy hm => ?_⟩
      rwa [if_neg (by simpa using Ne.symm hi)]

/-- What a holder drops next was made before it and is live. -/
theorem Inv.next_live (hs : Inv owner s) {h d : ℕ} {left : List ℕ} {x : Holder κ ι} (hx : s.holders[h]? = some x)
    (hstage : x.stage = .dropping (d :: left)) : d < h ∧ ∃ y, s.holders[d]? = some y ∧ y.stage = .live := by
  have hheld : d ∈ x.held := by simp [Holder.held, hstage]
  have hdh : d < h := hs.earlier h x hx d (hs.held h x hx d hheld)
  have hy := List.getElem?_eq_getElem (hdh.trans (List.getElem?_eq_some_iff.mp hx).1)
  exact ⟨hdh, _, hy, (hs.live d _ hy).mpr (hs.pos_of_held hx hheld hy)⟩

theorem Inv.dropOne (hs : Inv owner s) {h d : ℕ} {left : List ℕ} {x : Holder κ ι} (hx : s.holders[h]? = some x)
    (hstage : x.stage = .dropping (d :: left)) : Inv owner (s.dropOne h d left) := by
  have hxheld : x.held = d :: left := by simp [Holder.held, hstage]
  obtain ⟨hdh, y, hy, hlive⟩ := hs.next_live hx hstage
  obtain ⟨hyheld, hymapped, hystage⟩ := Holder.unref_of_live hlive
  have honex : ∀ {z : Holder κ ι}, s.holders[h]? = some z → z = x := fun hz => by simpa [hx] using hz.symm
  have honey : ∀ {z : Holder κ ι}, s.holders[d]? = some z → z = y := fun hz => by simpa [hy] using hz.symm
  have hsum : ∀ i, ((s.dropOne h d left).holders.map fun z => z.held.count i).sum + [d].count i =
      (s.holders.map fun z => z.held.count i).sum := by
    intro i
    have hfirst := sum_map_modify (fun z : Holder κ ι => z.held.count i) (Holder.setStage (.dropping left)) hx
    have hy' : (s.holders.modify h (Holder.setStage (.dropping left)))[d]? = some y := by
      simp [hdh.ne', hy]
    have hsecond := sum_map_modify (fun z : Holder κ ι => z.held.count i) Holder.unref hy'
    rw [hyheld, ← Holder.held_of_live hlive] at hsecond
    have hleft : (x.setStage (.dropping left)).held = left := rfl
    have hcons : (d :: left).count i = left.count i + [d].count i := by
      rw [← List.singleton_append, List.count_append, Nat.add_comm]
    rw [hleft, hxheld, hcons] at hfirst
    rw [holders_dropOne]
    omega
  refine hs.transform (fun i z => if d = i then (if h = i then z.setStage (.dropping left) else z).unref
    else if h = i then z.setStage (.dropping left) else z) (fun i => ?_) hs.fresh
    (fun i z hz => ?_) (fun i z hz => ?_) (fun i z hz hm => ?_) (fun key i hkey => ⟨hkey, fun z hz hm => ?_⟩)
  · rw [holders_dropOne, List.getElem?_modify, List.getElem?_modify]
    cases s.holders[i]? <;> rfl
  · by_cases hdi : d = i
    · subst hdi
      obtain rfl := honey hz
      rw [if_pos rfl, if_neg hdh.ne']
      exact ⟨Holder.unref_key _, Holder.unref_deps _, fun c hc => by rwa [hyheld, ← Holder.held_of_live hlive] at hc⟩
    · rw [if_neg hdi]
      by_cases hhi : h = i
      · subst hhi
        obtain rfl := honex hz
        rw [if_pos rfl]
        exact ⟨rfl, rfl, fun c hc => by rw [hxheld]; exact List.mem_cons_of_mem _ hc⟩
      · rw [if_neg hhi]
        exact ⟨rfl, rfl, fun c hc => hc⟩
  · have hcounted := hs.counted i z hz
    have hsum := hsum i
    rw [refs] at hcounted ⊢
    rw [handles_dropOne]
    by_cases hdi : d = i
    · subst hdi
      obtain rfl := honey hz
      rw [List.count_singleton_self] at hsum
      rw [if_pos rfl, if_neg hdh.ne', Holder.unref_count]
      exact ⟨by omega, hystage⟩
    · rw [List.count_singleton, if_neg (by simpa using hdi)] at hsum
      rw [if_neg hdi]
      by_cases hhi : h = i
      · subst hhi
        obtain rfl := honex hz
        rw [if_pos rfl]
        have hnot := (hs.live h z hz).not.mp (by simp [hstage])
        exact ⟨by simp only [Holder.setStage]; omega, by simpa [Holder.setStage] using hnot⟩
      · rw [if_neg hhi]
        exact ⟨by omega, hs.live i z hz⟩
  · refine ⟨?_, rfl⟩
    by_cases hdi : d = i
    · subst hdi
      obtain rfl := honey hz
      exact Holder.mapped_of_live hlive
    · rw [if_neg hdi] at hm
      split at hm
      · exact absurd hm (by simp [Holder.Mapped, Holder.setStage])
      · exact hm
  · by_cases hdi : d = i
    · subst hdi
      obtain rfl := honey hz
      rwa [if_pos rfl, if_neg hdh.ne']
    · rw [if_neg hdi]
      split
      · next hhi =>
        subst hhi
        obtain rfl := honex hz
        exact absurd hm (by simp [Holder.Mapped, hstage])
      · exact hm

theorem getElem?_create [DecidableEq κ] (s : Registry κ ι) (key : κ) (info : ι) (deps : List ℕ) (i : ℕ) :
    (s.create key info deps).holders[i]? =
      if i = s.holders.length then some ⟨key, info, deps, 1, .live⟩
      else (s.holders[i]?).map fun x => x.ref (deps.count i) := by
  show (_ ++ _)[i]? = _
  rw [List.getElem?_append, List.length_mapIdx]
  split
  · next hlt => rw [if_neg hlt.ne, List.getElem?_mapIdx]
  · next hge =>
    split
    · next heq => simp [heq]
    · next hne =>
      rw [List.getElem?_eq_none (by simp; omega), List.getElem?_eq_none (by omega)]
      rfl

/-- A new holder brings its own references, and the others keep theirs. -/
theorem sum_held_create [DecidableEq κ] (s : Registry κ ι) (key : κ) (info : ι) (deps : List ℕ) (i : ℕ) :
    ((s.create key info deps).holders.map fun y => y.held.count i).sum =
      (s.holders.map fun y => y.held.count i).sum + deps.count i := by
  show ((_ ++ [_]).map _).sum = _
  have hsame : (s.holders.mapIdx fun d x => x.ref (deps.count d)).map (fun y => y.held.count i) =
      s.holders.map fun y => y.held.count i := by
    refine List.ext_getElem? fun d => ?_
    rw [List.getElem?_map, List.getElem?_mapIdx, List.getElem?_map, Option.map_map]
    rfl
  rw [List.map_append, List.sum_append, hsame]
  simp [Holder.held]

theorem Inv.create [DecidableEq κ] (hs : Inv owner s) {key : κ} {info : ι} {deps : List ℕ}
    (hdeps : ∀ d ∈ deps, 0 < s.handles d) (howner : ∀ p ∈ owner key, p ∈ deps) (hkey : s.table key = none) :
    Inv owner (s.create key info deps) := by
  have hlt : ∀ d ∈ deps, d < s.holders.length := by
    intro d hd
    obtain ⟨x, hx, -⟩ := hs.live_of_handle (hdeps d hd)
    exact (List.getElem?_eq_some_iff.mp hx).1
  -- a holder of the new list is the new one or an old one with more references
  have hinv : ∀ {i : ℕ} {y : Holder κ ι}, (s.create key info deps).holders[i]? = some y →
      (i = s.holders.length ∧ y = ⟨key, info, deps, 1, .live⟩) ∨
        ∃ x, s.holders[i]? = some x ∧ i ≠ s.holders.length ∧ x.ref (deps.count i) = y := by
    intro i y hy
    rw [getElem?_create] at hy
    split at hy
    · next hi => exact .inl ⟨hi, by simpa using hy.symm⟩
    · next hi =>
      obtain ⟨x, hx, rfl⟩ := Option.map_eq_some_iff.mp hy
      exact .inr ⟨x, hx, hi, rfl⟩
  constructor
  case fresh =>
    intro h hh
    have hlength : (s.create key info deps).holders.length = s.holders.length + 1 := by simp [Registry.create]
    show Function.update s.handles s.holders.length 1 h = 0
    rw [Function.update_of_ne (by omega)]
    exact hs.fresh h (by omega)
  case earlier =>
    intro h y hy
    rcases hinv hy with ⟨rfl, rfl⟩ | ⟨x, hx, -, rfl⟩
    · exact hlt
    · exact hs.earlier h x hx
  case held =>
    intro h y hy
    rcases hinv hy with ⟨rfl, rfl⟩ | ⟨x, hx, -, rfl⟩
    · exact fun d hd => hd
    · exact hs.held h x hx
  case owned =>
    intro h y hy
    rcases hinv hy with ⟨rfl, rfl⟩ | ⟨x, hx, -, rfl⟩
    · exact howner
    · exact hs.owned h x hx
  case counted =>
    intro h y hy
    rw [refs, sum_held_create]
    rcases hinv hy with ⟨rfl, rfl⟩ | ⟨x, hx, hne, rfl⟩
    · -- nothing refers to what was not there
      have hzero : (s.holders.map fun y => y.held.count s.holders.length).sum = 0 := by
        refine List.sum_eq_zero fun n hn => ?_
        obtain ⟨x, hx, rfl⟩ := List.mem_map.mp hn
        obtain ⟨i, hi, rfl⟩ := List.getElem_of_mem hx
        refine List.count_eq_zero.mpr fun hmem => ?_
        have hat := List.getElem?_eq_getElem hi
        have := hs.earlier i _ hat _ (hs.held i _ hat _ hmem)
        omega
      have hdeps : deps.count s.holders.length = 0 := List.count_eq_zero.mpr fun hmem => (hlt _ hmem).false
      show 1 = Function.update s.handles s.holders.length 1 s.holders.length + _
      rw [Function.update_self, hzero, hdeps]
    · have hcounted := hs.counted h x hx
      rw [refs] at hcounted
      show x.count + _ = Function.update s.handles s.holders.length 1 h + _
      rw [Function.update_of_ne hne]
      omega
  case live =>
    intro h y hy
    rcases hinv hy with ⟨rfl, rfl⟩ | ⟨x, hx, -, rfl⟩
    · simp
    · have hlive := hs.live h x hx
      show x.stage = .live ↔ 0 < x.count + deps.count h
      rw [hlive]
      refine ⟨fun h => by omega, fun hmore => ?_⟩
      by_cases hmem : h ∈ deps
      · obtain ⟨x', hx', hpos⟩ := hs.live_of_handle (hdeps h hmem)
        obtain rfl : x' = x := by simpa [hx] using hx'.symm
        exact hpos
      · rwa [List.count_eq_zero.mpr hmem] at hmore
  case mapped =>
    intro h y hy hm
    rcases hinv hy with ⟨rfl, rfl⟩ | ⟨x, hx, -, rfl⟩
    · exact Function.update_self ..
    · have hold := hs.mapped h x hx hm
      show Function.update s.table key _ x.key = _
      rwa [Function.update_of_ne]
      rintro rfl
      rw [hkey] at hold
      cases hold
  case found =>
    intro k h hk
    change Function.update s.table key (some s.holders.length) k = some h at hk
    by_cases hkk : k = key
    · subst hkk
      obtain rfl : s.holders.length = h := by simpa using hk
      exact ⟨_, by rw [getElem?_create, if_pos rfl], rfl, Holder.mapped_of_live rfl⟩
    · rw [Function.update_of_ne hkk] at hk
      obtain ⟨x, hx, hxkey, hxm⟩ := hs.found k h hk
      have hne : h ≠ s.holders.length := (List.getElem?_eq_some_iff.mp hx).1.ne
      exact ⟨x.ref (deps.count h), by rw [getElem?_create, if_neg hne, hx]; rfl, hxkey, hxm⟩

/-! ## Runs -/

section Runs

variable [DecidableEq κ]

/-- What a step can do. -/
inductive Does (owner : κ → Option ℕ) (s : Registry κ ι) : Action κ ι → Registry κ ι → List (Event κ ι) → Prop
  | located {key info deps made i x} (hkey : s.table key = some i) (hx : s.holders[i]? = some x) (hpos : 0 < x.count) :
      Does owner s (.request key info deps made) (s.addHandle i) [.located key info i]
  | dangling {key info deps made i x} (hkey : s.table key = some i) (hx : s.holders[i]? = some x) (hzero : x.count = 0) :
      Does owner s (.request key info deps made) s [.dangling key i]
  | created {key info deps} (hkey : s.table key = none) (hdeps : ∀ d ∈ deps, 0 < s.handles d)
      (howner : ∀ p ∈ owner key, p ∈ deps) :
      Does owner s (.request key info deps true) (s.create key info deps) [.created key info s.holders.length]
  | refused {key info deps} : Does owner s (.request key info deps false) s [.refused key]
  | copied {i} (hpos : 0 < s.handles i) : Does owner s (.copy i) (s.addHandle i) []
  | released {i} (hpos : 0 < s.handles i) : Does owner s (.release i) (s.dropHandle i) []
  | removed {i x} (hx : s.holders[i]? = some x) (hstage : x.stage = .removing) :
      Does owner s (.unmap i) (s.takeOut i x.deps) [.removed i]
  | dropped {i d left x} (hx : s.holders[i]? = some x) (hstage : x.stage = .dropping (d :: left)) :
      Does owner s (.drop i) (s.dropOne i d left) []

theorem does_of_step {a : Action κ ι} {es : List (Event κ ι)} (h : step owner s a = some (s', es)) : Does owner s a s' es := by
  cases a with
  | request key info deps made =>
    simp only [step] at h
    split at h
    · next hguard =>
      split at h
      · next i hkey =>
        split at h
        · next x hx =>
          split at h
          · next hpos => cases h; exact .located hkey hx hpos
          · next hzero => cases h; exact .dangling hkey hx (by omega)
        · cases h
      · next hkey =>
        split at h
        · next hmade => cases h; subst hmade; exact .created hkey hguard.1 hguard.2
        · next hmade => cases h; obtain rfl := Bool.eq_false_of_not_eq_true hmade; exact .refused
    · cases h
  | copy i =>
    simp only [step] at h
    split at h
    · next hpos => cases h; exact .copied hpos
    · cases h
  | release i =>
    simp only [step] at h
    split at h
    · next hpos => cases h; exact .released hpos
    · cases h
  | unmap i =>
    simp only [step] at h
    split at h
    · next x hx =>
      split at h
      · next hstage => cases h; exact .removed hx hstage
      · cases h
    · cases h
  | drop i =>
    simp only [step] at h
    split at h
    · next x hx =>
      split at h
      · next d left hstage => cases h; exact .dropped hx hstage
      · cases h
    · cases h

theorem Inv.step (hs : Inv owner s) {a : Action κ ι} {es : List (Event κ ι)} (h : Does owner s a s' es) : Inv owner s' := by
  cases h with
  | located hkey hx hpos => exact hs.addHandle hx hpos
  | dangling => exact hs
  | created hkey hdeps howner => exact hs.create hdeps howner hkey
  | refused => exact hs
  | copied hpos =>
    obtain ⟨x, hx, hcount⟩ := hs.live_of_handle hpos
    exact hs.addHandle hx hcount
  | released hpos => exact hs.dropHandle hpos
  | removed hx hstage => exact hs.takeOut hx hstage
  | dropped hx hstage => exact hs.dropOne hx hstage

/-- The invariant holds in every state that is reached. -/
theorem inv_of_run {π : List (Taken (Registry κ ι) (Action κ ι) (Event κ ι))} (hr : Run (machine owner) π s) :
    Inv owner s :=
  Run.inv (C := fun _ _ => True) (P := fun _ s => Inv owner s) inv_empty
    (fun _ _ _ _ _ _ hs hstep => hs.step (does_of_step hstep)) hr fun _ _ => trivial

end Runs

/-! ## What the invariant says -/

theorem Inv.mapped_of_pos (hs : Inv owner s) {h : ℕ} {x : Holder κ ι} (hx : s.holders[h]? = some x) (hpos : 0 < x.count) :
    x.Mapped :=
  Holder.mapped_of_live ((hs.live h x hx).mpr hpos)

/-- What is referred to, from outside or by a holder that is not at its end, is live and in the table. -/
theorem Inv.referenced (hs : Inv owner s) {h : ℕ}
    (href : 0 < s.handles h ∨ ∃ (i : ℕ) (x : Holder κ ι), s.holders[i]? = some x ∧ h ∈ x.held) :
    ∃ y, s.holders[h]? = some y ∧ 0 < y.count ∧ s.table y.key = some h := by
  rcases href with hpos | ⟨i, x, hx, hmem⟩
  · obtain ⟨y, hy, hcount⟩ := hs.live_of_handle hpos
    exact ⟨y, hy, hcount, hs.mapped h y hy (hs.mapped_of_pos hy hcount)⟩
  · have hlt : h < s.holders.length :=
      (hs.earlier i x hx h (hs.held i x hx h hmem)).trans (List.getElem?_eq_some_iff.mp hx).1
    have hy := List.getElem?_eq_getElem hlt
    have hcount := hs.pos_of_held hx hmem hy
    exact ⟨_, hy, hcount, hs.mapped h _ hy (hs.mapped_of_pos hy hcount)⟩

/-- Under one key there is one holder that is not yet taken out. -/
theorem Inv.eq_of_key (hs : Inv owner s) {h i : ℕ} {x y : Holder κ ι} (hx : s.holders[h]? = some x)
    (hy : s.holders[i]? = some y) (hxm : x.Mapped) (hym : y.Mapped) (hkey : x.key = y.key) : h = i := by
  have hh := hs.mapped h x hx hxm
  rw [hkey, hs.mapped i y hy hym] at hh
  exact (Option.some.inj hh).symm

/-- While something is in the table of an owner, the owner is live. -/
theorem Inv.owner_live (hs : Inv owner s) {key : κ} {h p : ℕ} (hkey : s.table key = some h) (hp : p ∈ owner key) :
    ∃ y, s.holders[p]? = some y ∧ 0 < y.count := by
  obtain ⟨x, hx, rfl, hm⟩ := hs.found key h hkey
  have hheld : p ∈ x.held := by
    have hdep := hs.owned h x hx p hp
    unfold Holder.Mapped at hm
    unfold Holder.held
    split <;> simp_all
  obtain ⟨y, hy, hpos, -⟩ := hs.referenced (.inr ⟨h, x, hx, hheld⟩)
  exact ⟨y, hy, hpos⟩

/-! ## Removal -/

/-- The steps that take holders down. -/
def Action.Removal : Action κ ι → Prop
  | .unmap _ | .drop _ => True
  | _ => False

instance : DecidablePred (Action.Removal (κ := κ) (ι := ι)) := fun a => by
  unfold Action.Removal
  split <;> infer_instance

/-- No step of a removal is left. -/
def Quiet (s : Registry κ ι) : Prop :=
  ∀ (h : ℕ) (x : Holder κ ι), s.holders[h]? = some x → x.stage = .live ∨ x.stage = .dropping []

/-- A holder at which a removal has a step left. -/
theorem exists_removal [DecidableEq κ] (owner : κ → Option ℕ) {h : ℕ} {x : Holder κ ι} (hx : s.holders[h]? = some x)
    (hlive : x.stage ≠ .live) (hend : x.stage ≠ .dropping []) : ∃ a s' es, Action.Removal a ∧ step owner s a = some (s', es) := by
  cases hstage : x.stage with
  | live => exact absurd hstage hlive
  | removing => exact ⟨.unmap h, _, _, trivial, by rw [step, hx]; exact if_pos hstage⟩
  | dropping left =>
    cases left with
    | nil => exact absurd hstage hend
    | cons d left => exact ⟨.drop h, s.dropOne h d left, [], trivial, by simp only [step, hx, hstage]⟩

/-- Where no reference is left outside, what is live is referred to by something that is not at its end. -/
theorem Inv.not_live (hs : Inv owner s) (hhandles : ∀ h, s.handles h = 0) (hquiet : Quiet s) (h : ℕ) (x : Holder κ ι)
    (hx : s.holders[h]? = some x) : x.stage ≠ .live := by
  intro hlive
  have hpos := (hs.live h x hx).mp hlive
  rw [hs.counted h x hx, refs, hhandles, Nat.zero_add] at hpos
  obtain ⟨n, hn, hne⟩ := List.exists_mem_ne_zero_of_sum_ne_zero hpos.ne'
  obtain ⟨y, hy, rfl⟩ := List.mem_map.mp hn
  obtain ⟨i, hi, rfl⟩ := List.getElem_of_mem hy
  have hat := List.getElem?_eq_getElem hi
  have hmem : h ∈ s.holders[i].held := List.count_pos_iff.mp (Nat.pos_of_ne_zero hne)
  have hlt : h < i := hs.earlier i _ hat h (hs.held i _ hat h hmem)
  rcases hquiet i _ hat with hstage | hstage
  · exact Inv.not_live hs hhandles hquiet i _ hat hstage
  · simp [Holder.held, hstage] at hmem
termination_by s.holders.length - h

/-- Where no reference is left outside and no step of a removal is left, every holder is at its end and the
table is empty. -/
theorem Inv.quiet (hs : Inv owner s) (hhandles : ∀ h, s.handles h = 0) (hquiet : Quiet s) :
    (∀ (h : ℕ) (x : Holder κ ι), s.holders[h]? = some x → x.stage = .dropping []) ∧ ∀ key, s.table key = none := by
  have hend : ∀ (h : ℕ) (x : Holder κ ι), s.holders[h]? = some x → x.stage = .dropping [] := fun h x hx =>
    (hquiet h x hx).resolve_left (hs.not_live hhandles hquiet h x hx)
  refine ⟨hend, fun key => ?_⟩
  cases hkey : s.table key with
  | none => rfl
  | some h =>
    obtain ⟨x, hx, -, hm⟩ := hs.found key h hkey
    simp [Holder.Mapped, hend h x hx] at hm

def work (s : Registry κ ι) : ℕ := (s.holders.map Holder.weight).sum

theorem Holder.weight_unref {x : Holder κ ι} (hx : x.stage = .live) : x.unref.weight ≤ x.weight := by
  unfold Holder.unref
  split
  · exact le_rfl
  · simp [Holder.weight, hx]

/-- Every step of a removal leaves less to be done. -/
theorem work_lt [DecidableEq κ] (hs : Inv owner s) {a : Action κ ι} {es : List (Event κ ι)} (ha : a.Removal)
    (h : Does owner s a s' es) : work s' < work s := by
  cases h with
  | @removed i x hx hstage =>
    have hsum := sum_map_modify Holder.weight (Holder.setStage (.dropping x.deps)) hx
    have hbefore : x.weight = x.deps.length + 1 := by simp [Holder.weight, hstage]
    have hbehind : (x.setStage (.dropping x.deps)).weight = x.deps.length := rfl
    show ((s.holders.modify i _).map _).sum < _
    rw [work]
    omega
  | @dropped i d left x hx hstage =>
    have hsum := sum_map_modify Holder.weight (Holder.setStage (.dropping left)) hx
    have hbefore : x.weight = left.length + 1 := by simp [Holder.weight, hstage]
    have hbehind : (x.setStage (.dropping left)).weight = left.length := rfl
    obtain ⟨hdh, y, hy, hlive⟩ := hs.next_live hx hstage
    have hy' : (s.holders.modify i (Holder.setStage (.dropping left)))[d]? = some y := by
      simp [hdh.ne', hy]
    have hsecond := sum_map_modify Holder.weight Holder.unref hy'
    have hle := Holder.weight_unref hlive
    show (((s.holders.modify i _).modify d _).map _).sum < _
    rw [work]
    omega
  | _ => exact absurd ha (by simp [Action.Removal])

section Teardown

variable [DecidableEq κ] {α ε : Type*} {M : Machine (Registry κ ι) α ε} {removal : α → Prop}
  {π ρ : List (Taken (Registry κ ι) α ε)}

/-- A machine over the registry whose removals are those of the registry. -/
structure Removes (owner : κ → Option ℕ) (M : Machine (Registry κ ι) α ε) (removal : α → Prop) : Prop where
  inv : ∀ π s, Run M π s → Inv owner s
  does : ∀ s a s' es, removal a → M.step s a = some (s', es) → ∃ act fs, Action.Removal act ∧ Does owner s act s' fs
  can : ∀ s act s' fs, Action.Removal act → step owner s act = some (s', fs) → ∃ a es, removal a ∧ M.step s a = some (s', es)

theorem handles_of_removal {a : Action κ ι} {es : List (Event κ ι)} (ha : a.Removal) (h : Does owner s a s' es) :
    s'.handles = s.handles := by
  cases h with
  | removed => rfl
  | dropped => rfl
  | _ => exact absurd ha (by simp [Action.Removal])

/-- From a state that is reached there are no more steps of removals than there is work, and they take no
reference from outside. -/
theorem Removes.bound (hM : Removes owner M removal) (hr : Run M π s) (hρ : ∀ x ∈ ρ, removal x.act)
    (hr' : Run M (π ++ ρ) s') : ρ.length + work s' ≤ work s ∧ s'.handles = s.handles := by
  induction ρ using List.reverseRecOn generalizing s' with
  | nil =>
    rw [List.append_nil] at hr'
    rw [hr.unique hr', List.length_nil, Nat.zero_add]
    exact ⟨le_rfl, rfl⟩
  | append_singleton ρ x ih =>
    rw [← List.append_assoc] at hr'
    obtain ⟨hpre, hstep⟩ := hr'.snoc_inv
    obtain ⟨hle, hhandles⟩ := ih (fun y hy => hρ y (by simp [hy])) hpre
    obtain ⟨act, fs, hact, hdoes⟩ := hM.does _ _ _ _ (hρ x (by simp)) hstep
    have hlt := work_lt (hM.inv _ _ hpre) hact hdoes
    refine ⟨?_, (handles_of_removal hact hdoes).trans hhandles⟩
    rw [List.length_append, List.length_singleton]
    omega

/-- From every state that is reached, steps of removals alone lead to where none is left. -/
theorem Removes.exists_teardown (hM : Removes owner M removal) (hr : Run M π s) :
    ∃ ρ s', Run M (π ++ ρ) s' ∧ (∀ x ∈ ρ, removal x.act) ∧ Quiet s' := by
  induction hwork : work s using Nat.strong_induction_on generalizing π s with
  | _ n ih =>
    by_cases hquiet : Quiet s
    · exact ⟨[], s, by rwa [List.append_nil], by simp, hquiet⟩
    · obtain ⟨h, x, hx, hlive, hend⟩ : ∃ (h : ℕ) (x : Holder κ ι),
          s.holders[h]? = some x ∧ x.stage ≠ .live ∧ x.stage ≠ .dropping [] := by
        simpa [Quiet] using hquiet
      obtain ⟨act, s₁, fs, hact, hstep⟩ := exists_removal owner hx hlive hend
      obtain ⟨a, es, ha, hstep'⟩ := hM.can _ _ _ _ hact hstep
      have hlt := work_lt (hM.inv _ _ hr) hact (does_of_step hstep)
      obtain ⟨ρ, s', hrun, hρ, hquiet'⟩ := ih _ (hwork ▸ hlt) (hr.snoc hstep') rfl
      refine ⟨⟨s, a, es⟩ :: ρ, s', by simpa using hrun, ?_, hquiet'⟩
      intro y hy
      rcases List.mem_cons.mp hy with rfl | hy
      · exact ha
      · exact hρ y hy

end Teardown

/-! ## What the holders were made for -/

/-- The keys and what was made under them, in the order of the holders. -/
def made (s : Registry κ ι) : List (κ × ι) := s.holders.map fun x => (x.key, x.info)

theorem map_modify_of_eq {α β : Type*} {g : α → β} {f : α → α} (hf : ∀ x, g (f x) = g x) (l : List α) (i : ℕ) :
    (l.modify i f).map g = l.map g := by
  refine List.ext_getElem? fun j => ?_
  rw [List.getElem?_map, List.getElem?_map, List.getElem?_modify]
  cases l[j]? with
  | none => rfl
  | some x =>
    by_cases hi : i = j
    · simp [hi, hf]
    · simp [hi]

theorem unref_made (x : Holder κ ι) : (x.unref.key, x.unref.info) = (x.key, x.info) := by
  unfold Holder.unref
  split <;> rfl

@[simp] theorem made_addHandle (s : Registry κ ι) (h : ℕ) : (s.addHandle h).made = s.made :=
  map_modify_of_eq (f := Holder.ref 1) (fun _ => rfl) _ _

@[simp] theorem made_dropHandle (s : Registry κ ι) (h : ℕ) : (s.dropHandle h).made = s.made :=
  map_modify_of_eq unref_made _ _

@[simp] theorem made_takeOut (s : Registry κ ι) (h : ℕ) (deps : List ℕ) : (s.takeOut h deps).made = s.made :=
  map_modify_of_eq (f := Holder.setStage _) (fun _ => rfl) _ _

@[simp] theorem made_dropOne (s : Registry κ ι) (h d : ℕ) (left : List ℕ) : (s.dropOne h d left).made = s.made :=
  (map_modify_of_eq unref_made _ _).trans (map_modify_of_eq (f := Holder.setStage _) (fun _ => rfl) _ _)

theorem made_create [DecidableEq κ] (s : Registry κ ι) (key : κ) (info : ι) (deps : List ℕ) :
    (s.create key info deps).made = s.made ++ [(key, info)] := by
  show ((_ ++ [_]).map _) = s.holders.map _ ++ _
  rw [List.map_append]
  congr 1
  refine List.ext_getElem? fun d => ?_
  rw [List.getElem?_map, List.getElem?_mapIdx, List.getElem?_map, Option.map_map]
  rfl

/-- What an event hands out: the request, and the holder that it got. -/
def Event.given : Event κ ι → Option (κ × ι × ℕ)
  | .created key info h | .located key info h => some (key, info, h)
  | _ => none

/-- What an event makes. -/
def Event.making : Event κ ι → Option (κ × ι)
  | .created key info _ => some (key, info)
  | _ => none

section Made

variable [DecidableEq κ]

theorem Does.made {a : Action κ ι} {es : List (Event κ ι)} (h : Does owner s a s' es) :
    s'.made = s.made ++ es.filterMap Event.making := by
  cases h with
  | created => exact made_create ..
  | _ => simp [Event.making]

/-- What is handed out is under the key that was asked for. -/
theorem Does.given (hs : Inv owner s) {a : Action κ ι} {es : List (Event κ ι)} (h : Does owner s a s' es) {e : Event κ ι}
    (he : e ∈ es) {key : κ} {info : ι} {i : ℕ} (hgiven : e.given = some (key, info, i)) :
    (∃ deps ok, a = .request key info deps ok) ∧ ∃ info', s'.made[i]? = some (key, info') := by
  cases h with
  | @located key' info' deps ok i' x hkey hx hpos =>
    obtain rfl := List.mem_singleton.mp he
    obtain ⟨rfl, rfl, rfl⟩ : key' = key ∧ info' = info ∧ i' = i := by simpa [Event.given] using hgiven
    obtain ⟨y, hy, rfl, -⟩ := hs.found _ _ hkey
    refine ⟨⟨deps, ok, rfl⟩, y.info, ?_⟩
    rw [made_addHandle, Registry.made, List.getElem?_map, hy]
    rfl
  | @created key' info' deps hkey hdeps howner =>
    obtain rfl := List.mem_singleton.mp he
    obtain ⟨rfl, rfl, rfl⟩ : key' = key ∧ info' = info ∧ s.holders.length = i := by simpa [Event.given] using hgiven
    refine ⟨⟨deps, true, rfl⟩, info', ?_⟩
    rw [made_create]
    simp [Registry.made]
  | dangling | refused | removed =>
    obtain rfl := List.mem_singleton.mp he
    simp [Event.given] at hgiven
  | copied | released | dropped => simp at he

/-- The requests are for what their key is the key of. -/
def Keyed (keyOf : ι → κ) : Action κ ι → Prop
  | .request key info _ _ => key = keyOf info
  | _ => True

/-- In a run whose requests are keyed, everything that is handed out is a holder that was made for something of
the same key. -/
theorem given_made {keyOf : ι → κ} {π : List (Taken (Registry κ ι) (Action κ ι) (Event κ ι))}
    (hr : Run (machine owner) π s) (hC : Meets (fun _ a => Keyed keyOf a) π) {e : Event κ ι} (he : e ∈ events π)
    {key : κ} {info : ι} {h : ℕ} (hgiven : e.given = some (key, info, h)) :
    ∃ x, s.holders[h]? = some x ∧ key = keyOf info ∧ keyOf x.info = keyOf info := by
  have hmain := Run.inv (C := fun _ a => Keyed keyOf a)
    (P := fun tr (s : Registry κ ι) => Inv owner s ∧ (∀ pair ∈ s.made, pair.1 = keyOf pair.2) ∧
      ∀ e ∈ tr, ∀ key info h, e.given = some (key, info, h) →
        key = keyOf info ∧ ∃ info', s.made[h]? = some (key, info'))
    ⟨inv_empty, by simp [machine, empty, Registry.made], by simp⟩ ?_ hr hC
  · obtain ⟨-, hkeys, hevents⟩ := hmain
    obtain ⟨hkey, info', hmade⟩ := hevents e he key info h hgiven
    have hinfo := hkeys _ (List.mem_of_getElem? hmade)
    rw [Registry.made, List.getElem?_map, Option.map_eq_some_iff] at hmade
    obtain ⟨x, hx, hpair⟩ := hmade
    obtain ⟨-, rfl⟩ := Prod.mk.inj hpair
    exact ⟨x, hx, hkey, by rw [← hkey]; exact hinfo.symm⟩
  · rintro tr s a s' es hkeyed ⟨hs, hkeys, hevents⟩ hstep
    have hdoes := does_of_step hstep
    refine ⟨hs.step hdoes, fun pair hpair => ?_, fun e he key info h hgiven => ?_⟩
    · rw [hdoes.made, List.mem_append] at hpair
      rcases hpair with hpair | hpair
      · exact hkeys pair hpair
      · obtain ⟨e, he, hmaking⟩ := List.mem_filterMap.mp hpair
        cases e with
        | created key info h =>
          obtain rfl : (key, info) = pair := by simpa [Event.making] using hmaking
          obtain ⟨⟨deps, ok, rfl⟩, -⟩ := hdoes.given hs he rfl
          exact hkeyed
        | _ => simp [Event.making] at hmaking
    · rcases List.mem_append.mp he with he | he
      · obtain ⟨hkey, info', hmade⟩ := hevents e he key info h hgiven
        refine ⟨hkey, info', ?_⟩
        rw [hdoes.made, List.getElem?_append_left (List.getElem?_eq_some_iff.mp hmade).1, hmade]
      · obtain ⟨⟨deps, ok, rfl⟩, hmade⟩ := hdoes.given hs he hgiven
        exact ⟨hkeyed, hmade⟩

end Made

end Registry

end Lasagne.Trans
