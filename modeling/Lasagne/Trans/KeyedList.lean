import Mathlib.Data.List.Basic
import Mathlib.Data.List.Nodup
import Mathlib.Data.List.Sort

/-!
# Lasagne.Trans.KeyedList — lists whose elements are found by a key

A list is searched from the front: the first element with the key is replaced in its place, or erased, and a
new one goes to the back.  Where no key occurs twice this is a finite map that remembers an order.

* `find_iff` : what is found, where no key occurs twice;
* `find_assign_self`, `find_assign_of_ne`, `find_remove` : what is found after a change;
* `nodup_assign` : no key occurs twice after it;
* `insertionSort_stable` : what an order does not tell apart stays as it was when the list is sorted by it.
-/

namespace Lasagne.Trans.KeyedList

variable {κ α : Type*} [DecidableEq κ] {key : α → κ}

/-- The first element with the key. -/
def find (key : α → κ) (k : κ) (l : List α) : Option α := l.find? fun x => k = key x

/-- The first element with the key of `new` has `update` done to it, and where there is none `new` goes to the
back. -/
def assign (key : α → κ) (update : α → α) (new : α) : List α → List α
  | [] => [new]
  | x :: rest => if key new = key x then update x :: rest else x :: assign key update new rest

/-- The first element with the key is erased. -/
def remove (key : α → κ) (k : κ) : List α → List α
  | [] => []
  | x :: rest => if k = key x then rest else x :: remove key k rest

/-! ## What is found -/

@[simp] theorem find_nil (k : κ) : find key k [] = none := rfl

theorem find_cons (k : κ) (x : α) (rest : List α) :
    find key k (x :: rest) = if k = key x then some x else find key k rest := by
  unfold find
  rw [List.find?_cons]
  by_cases h : k = key x
  · rw [if_pos h, decide_eq_true h]
  · rw [if_neg h, decide_eq_false h]

theorem find_eq_none_iff {k : κ} {l : List α} : find key k l = none ↔ k ∉ l.map key := by
  unfold find
  rw [List.find?_eq_none]
  simp [eq_comm]

theorem find_iff {l : List α} (hl : (l.map key).Nodup) {k : κ} {x : α} : find key k l = some x ↔ x ∈ l ∧ key x = k := by
  induction l with
  | nil => simp
  | cons a rest ih =>
    obtain ⟨ha, hrest⟩ := List.nodup_cons.mp hl
    rw [find_cons]
    split
    · next hk =>
      subst hk
      constructor
      · intro h
        obtain rfl := Option.some.inj h
        exact ⟨List.mem_cons_self .., rfl⟩
      · rintro ⟨hx, hkey⟩
        rcases List.mem_cons.mp hx with rfl | hx
        · rfl
        · exact absurd (hkey ▸ List.mem_map_of_mem hx) ha
    · next hk =>
      rw [ih hrest, List.mem_cons]
      constructor
      · rintro ⟨hx, hkey⟩
        exact ⟨.inr hx, hkey⟩
      · rintro ⟨rfl | hx, hkey⟩
        · exact absurd hkey.symm hk
        · exact ⟨hx, hkey⟩

/-! ## Replacing or appending -/

section Assign

variable {update : α → α}

theorem find_assign_self (hupdate : ∀ x, key (update x) = key x) (new : α) (l : List α) :
    find key (key new) (assign key update new l) = some ((find key (key new) l).elim new update) := by
  induction l with
  | nil => simp [assign, find_cons]
  | cons x rest ih =>
    rw [assign, find_cons]
    split
    · next hk => rw [find_cons, hupdate, if_pos hk, Option.elim_some]
    · next hk => rw [find_cons, if_neg hk, ih]

theorem find_assign_of_ne (hupdate : ∀ x, key (update x) = key x) {new : α} {k : κ} (hk : k ≠ key new) (l : List α) :
    find key k (assign key update new l) = find key k l := by
  induction l with
  | nil => rw [assign, find_cons, if_neg hk]
  | cons x rest ih =>
    rw [assign, find_cons]
    split
    · next hnew => rw [find_cons, hupdate, if_neg (hnew ▸ hk), if_neg (hnew ▸ hk)]
    · rw [find_cons, ih]

theorem keys_assign (hupdate : ∀ x, key (update x) = key x) (new : α) (l : List α) :
    (assign key update new l).map key = if key new ∈ l.map key then l.map key else l.map key ++ [key new] := by
  induction l with
  | nil => simp [assign]
  | cons x rest ih =>
    rw [assign]
    split
    · next hk => simp [hupdate, hk]
    · next hk =>
      rw [List.map_cons, ih, List.map_cons]
      split
      · next hmem => rw [if_pos (List.mem_cons_of_mem _ hmem)]
      · next hmem => rw [if_neg (by simpa using ⟨hk, by simpa using hmem⟩), List.cons_append]

theorem nodup_assign (hupdate : ∀ x, key (update x) = key x) (new : α) {l : List α} (hl : (l.map key).Nodup) :
    ((assign key update new l).map key).Nodup := by
  rw [keys_assign hupdate]
  split
  · exact hl
  · next hmem => exact List.nodup_append_comm.mp (List.nodup_cons.mpr ⟨hmem, hl⟩)

theorem mem_assign {x new : α} {l : List α} (h : x ∈ assign key update new l) : x ∈ l ∨ x = new ∨ ∃ y ∈ l, x = update y := by
  induction l with
  | nil => exact .inr (.inl (List.mem_singleton.mp h))
  | cons y rest ih =>
    rw [assign] at h
    split at h
    · rcases List.mem_cons.mp h with rfl | h
      · exact .inr (.inr ⟨y, List.mem_cons_self .., rfl⟩)
      · exact .inl (List.mem_cons_of_mem _ h)
    · rcases List.mem_cons.mp h with rfl | h
      · exact .inl (List.mem_cons_self ..)
      · rcases ih h with h | h | ⟨z, hz, h⟩
        · exact .inl (List.mem_cons_of_mem _ h)
        · exact .inr (.inl h)
        · exact .inr (.inr ⟨z, List.mem_cons_of_mem _ hz, h⟩)

end Assign

/-! ## Erasing -/

theorem remove_sublist (k : κ) (l : List α) : (remove key k l).Sublist l := by
  induction l with
  | nil => exact List.Sublist.refl _
  | cons x rest ih =>
    rw [remove]
    split
    · exact List.sublist_cons_self ..
    · exact ih.cons_cons x

theorem find_remove (k k' : κ) {l : List α} (hl : (l.map key).Nodup) :
    find key k' (remove key k l) = if k' = k then none else find key k' l := by
  induction l with
  | nil => simp [remove]
  | cons x rest ih =>
    obtain ⟨hx, hrest⟩ := List.nodup_cons.mp hl
    rw [remove]
    split
    · next hk =>
      subst hk
      split
      · next hk' =>
        subst hk'
        exact find_eq_none_iff.mpr hx
      · next hk' => rw [find_cons, if_neg hk']
    · next hk =>
      rw [find_cons, ih hrest, find_cons]
      by_cases hk' : k' = k
      · rw [if_pos hk', if_pos hk', if_neg (hk' ▸ hk)]
      · rw [if_neg hk', if_neg hk']

/-- Where elements are left out, what is still there is found as before. -/
theorem find_sublist {l l' : List α} (hl : (l.map key).Nodup) (h : l'.Sublist l) (k : κ) :
    find key k l' = if k ∈ l'.map key then find key k l else none := by
  split
  · next hk =>
    obtain ⟨x, hx, rfl⟩ := List.mem_map.mp hk
    rw [(find_iff (hl.sublist (h.map key))).mpr ⟨hx, rfl⟩, (find_iff hl).mpr ⟨h.subset hx, rfl⟩]
  · next hk => exact find_eq_none_iff.mpr hk

/-! ## Sorting -/

theorem orderedInsert_stable {r S : α → α → Prop} [DecidableRel r] (htotal : ∀ a b, r a b ∨ r b a)
    (htrans : ∀ a b c, r a b → r b c → r a c) {a : α} {l : List α}
    (hl : l.Pairwise fun x y => r x y ∧ (r y x → S x y)) (ha : ∀ x ∈ l, S a x) :
    (l.orderedInsert r a).Pairwise fun x y => r x y ∧ (r y x → S x y) := by
  induction l with
  | nil => exact List.pairwise_singleton _ a
  | cons b l ih =>
    obtain ⟨hb, hl'⟩ := List.pairwise_cons.mp hl
    obtain ⟨hab, ha'⟩ := List.forall_mem_cons.mp ha
    rw [List.orderedInsert_cons]
    split
    · next hr =>
      refine List.pairwise_cons.mpr ⟨List.forall_mem_cons.mpr ⟨⟨hr, fun _ => hab⟩, fun x hx => ?_⟩, hl⟩
      exact ⟨htrans a b x hr (hb x hx).1, fun _ => ha' x hx⟩
    · next hr =>
      refine List.pairwise_cons.mpr ⟨fun x hx => ?_, ih hl' ha'⟩
      rcases (List.mem_orderedInsert r).mp hx with rfl | hx
      · exact ⟨(htotal x b).resolve_left hr, fun h => absurd h hr⟩
      · exact hb x hx

/-- What the order of the sort does not tell apart stays in the order in which it was. -/
theorem insertionSort_stable {r S : α → α → Prop} [DecidableRel r] (htotal : ∀ a b, r a b ∨ r b a)
    (htrans : ∀ a b c, r a b → r b c → r a c) {l : List α} (hl : l.Pairwise S) :
    (l.insertionSort r).Pairwise fun x y => r x y ∧ (r y x → S x y) := by
  induction l with
  | nil => exact List.Pairwise.nil
  | cons a l ih =>
    obtain ⟨ha, hl'⟩ := List.pairwise_cons.mp hl
    rw [List.insertionSort_cons]
    refine orderedInsert_stable htotal htrans (ih hl') fun x hx => ?_
    exact ha x ((List.mem_insertionSort r).mp hx)

end Lasagne.Trans.KeyedList
