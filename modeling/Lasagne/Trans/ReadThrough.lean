import Mathlib

/-!
# Lasagne.Trans.ReadThrough — stores that take what they miss from somewhere else

A store is written to, and a key that it does not have may come in from a source, which need not be the same one from
one time to the next.  What has come in stays, as what has been written does.

* `History.stands` : a key is as it was last written, or has come in since;
* `Walk.complete`, `Walk.sorted` : who goes over the keys in order, while others come in, passes each that was there, and
  none twice;
* `walk_iff` : and comes to an end, if there are not too many keys and every visit does.
-/

namespace Lasagne.Trans

variable {κ ν : Type*} {source f g h : κ → Option ν}

/-- Nothing of `f` has gone or changed, and what has come in is the source's. -/
def Filled (source f g : κ → Option ν) : Prop := ∀ k, g k = f k ∨ f k = none ∧ g k = source k

theorem Filled.refl (source f : κ → Option ν) : Filled source f f := fun _ => .inl rfl

theorem Filled.trans (hfg : Filled source f g) (hgh : Filled source g h) : Filled source f h := by
  intro k
  rcases hgh k with hk | ⟨hg, hk⟩
  · rw [hk]
    exact hfg k
  · rcases hfg k with hk' | ⟨hf, -⟩
    · exact .inr ⟨hk' ▸ hg, hk⟩
    · exact .inr ⟨hf, hk⟩

theorem Filled.some (hfg : Filled source f g) {k : κ} {v : ν} (hk : f k = Option.some v) : g k = Option.some v := by
  rcases hfg k with h | ⟨h, -⟩
  · exact h.trans hk
  · exact absurd (h.symm.trans hk) (by simp)

/-- What a step does to a store: what it can take from the source, and what it writes, if anything, to each key. -/
structure Change (κ ν : Type*) where
  source : κ → Option ν
  write : κ → Option (Option ν)

namespace Change

/-- First something comes in, and then the step writes. -/
def Takes (c : Change κ ν) (f g : κ → Option ν) : Prop :=
  ∃ h, Filled c.source f h ∧ ∀ k, g k = (c.write k).getD (h k)

/-- A step that reads. -/
def reads (source : κ → Option ν) : Change κ ν := ⟨source, fun _ => none⟩

/-- A step that writes one key. -/
def writes [DecidableEq κ] (k : κ) (v : Option ν) : Change κ ν :=
  ⟨fun _ => none, fun k' => if k' = k then some v else none⟩

/-- A step that does neither. -/
def nothing : Change κ ν := ⟨fun _ => none, fun _ => none⟩

theorem takes_reads (hfg : Filled source f g) : (reads source).Takes f g := ⟨g, hfg, fun _ => rfl⟩

theorem takes_nothing (f : κ → Option ν) : nothing.Takes f f := ⟨f, Filled.refl _ f, fun _ => rfl⟩

theorem takes_writes [DecidableEq κ] {k : κ} {v : Option ν} (hg : ∀ k', g k' = if k' = k then v else f k') :
    (writes k v).Takes f g := by
  refine ⟨f, Filled.refl _ f, fun k' => ?_⟩
  rw [hg]
  show _ = Option.getD (if k' = k then some v else none) (f k')
  by_cases hk : k' = k
  · rw [if_pos hk, if_pos hk]
    rfl
  · rw [if_neg hk, if_neg hk]
    rfl

end Change

/-- The steps lead from `f` to `g`. -/
inductive History (f : κ → Option ν) : List (Change κ ν) → (κ → Option ν) → Prop
  | nil : History f [] f
  | snoc {cs : List (Change κ ν)} {c : Change κ ν} {g h : κ → Option ν} :
      History f cs g → c.Takes g h → History f (cs ++ [c]) h

def lastWrite (cs : List (Change κ ν)) (k : κ) : Option (Option ν) := (cs.filterMap (·.write k)).getLast?

/-- The steps after the last one that writes to `k`. -/
def sinceWrite (cs : List (Change κ ν)) (k : κ) : List (Change κ ν) := cs.rtakeWhile fun c => (c.write k).isNone

variable {cs : List (Change κ ν)} {c : Change κ ν} {k : κ}

theorem lastWrite_concat (cs : List (Change κ ν)) (c : Change κ ν) (k : κ) :
    lastWrite (cs ++ [c]) k = (c.write k).or (lastWrite cs k) := by
  unfold lastWrite
  rw [List.filterMap_append]
  cases hk : c.write k with
  | none => simp [hk]
  | some v => simp [hk]

theorem sinceWrite_concat (cs : List (Change κ ν)) (c : Change κ ν) (k : κ) :
    sinceWrite (cs ++ [c]) k = if (c.write k).isNone then sinceWrite cs k ++ [c] else [] :=
  List.rtakeWhile_concat _ cs c

theorem lastWrite_eq {v : Option ν} (hc : c.write k = some v) {cs' : List (Change κ ν)}
    (hcs' : ∀ c' ∈ cs', c'.write k = none) : lastWrite (cs ++ c :: cs') k = some v := by
  have hnone : cs'.filterMap (·.write k) = [] := List.filterMap_eq_nil_iff.mpr hcs'
  unfold lastWrite
  rw [List.filterMap_append, List.filterMap_cons, hc, hnone]
  exact List.getLast?_concat

/-- A key is as it was written last, or it was not there then and has come in since. -/
theorem History.stands (hist : History f cs g) (k : κ) :
    g k = (lastWrite cs k).getD (f k) ∨
      (lastWrite cs k).getD (f k) = none ∧ ∃ c ∈ sinceWrite cs k, g k = c.source k := by
  induction hist with
  | nil => exact .inl rfl
  | @snoc cs c g h _ hc ih =>
    obtain ⟨m, hfill, hwrite⟩ := hc
    rw [hwrite, lastWrite_concat, sinceWrite_concat]
    cases hk : c.write k with
    | some v => exact .inl rfl
    | none =>
      rw [Option.none_or, Option.getD_none, if_pos Option.isNone_none]
      rcases hfill k with hm | ⟨hg, hm⟩
      · rw [hm]
        exact ih.imp_right fun ⟨h, c', hc', hk'⟩ => ⟨h, c', List.mem_append_left _ hc', hk'⟩
      · -- nothing was there before this step, and so nothing was when it was last written
        refine .inr ⟨?_, c, List.mem_append_right _ (List.mem_singleton_self c), hm⟩
        rcases ih with h | ⟨h, -⟩
        · exact h ▸ hg
        · exact h

theorem History.written (hist : History f cs g) {v : ν} (hk : lastWrite cs k = some (some v)) : g k = some v := by
  rcases hist.stands k with h | ⟨h, -⟩
  · rw [h, hk]
    rfl
  · rw [hk] at h
    cases h

/-! ## Going over the keys -/

section Walk

variable {σ β : Type*} [LinearOrder κ] {held : σ → κ → Option ν} {visit : σ → ν → β → σ → Prop} {it : Option κ}
  {s s' : σ} {l : List (κ × β)}

/-- `k` is ahead of the key where one is, or one has not begun. -/
def Ahead (it : Option κ) (k : κ) : Prop := ∀ i, it = some i → i < k

/-- The next key of a store, and what it has. -/
structure Next (f : κ → Option ν) (it : Option κ) (k : κ) (v : ν) : Prop where
  ahead : Ahead it k
  least : ∀ k', Ahead it k' → k' < k → f k' = none
  there : f k = some v

/-- From key to key in order, with `visit` at each, during which others may come in. -/
inductive Walk (held : σ → κ → Option ν) (visit : σ → ν → β → σ → Prop) : Option κ → σ → List (κ × β) → σ → Prop
  | done {it : Option κ} {s : σ} : (∀ k, Ahead it k → held s k = none) → Walk held visit it s [] s
  | step {it : Option κ} {s s₁ s' : σ} {k : κ} {v : ν} {b : β} {l : List (κ × β)} :
      Next (held s) it k v → visit s v b s₁ → Walk held visit (some k) s₁ l s' → Walk held visit it s ((k, b) :: l) s'

/-- What is come to on the way: a value, with the store as it is then. -/
inductive Comes (held : σ → κ → Option ν) (visit : σ → ν → β → σ → Prop) : Option κ → σ → σ × ν → Prop
  | here {it : Option κ} {s : σ} {k : κ} {v : ν} : Next (held s) it k v → Comes held visit it s (s, v)
  | step {it : Option κ} {s s₁ : σ} {k : κ} {v : ν} {b : β} {n : σ × ν} :
      Next (held s) it k v → visit s v b s₁ → Comes held visit (some k) s₁ n → Comes held visit it s n

theorem Next.unique {f : κ → Option ν} {k k' : κ} {v v' : ν} (h : Next f it k v) (h' : Next f it k' v') :
    k = k' ∧ v = v' := by
  have hk : k = k' := by
    rcases lt_trichotomy k k' with hlt | heq | hlt
    · exact absurd ((h'.least k h.ahead hlt).symm.trans h.there) (by simp)
    · exact heq
    · exact absurd ((h.least k' h'.ahead hlt).symm.trans h'.there) (by simp)
  subst hk
  exact ⟨rfl, Option.some.inj (h.there.symm.trans h'.there)⟩

/-- There is a next key, or none. -/
theorem exists_next {f : κ → Option ν} {K : Finset κ} (hf : ∀ k, f k ≠ none → k ∈ K) (it : Option κ) :
    (∀ k, Ahead it k → f k = none) ∨ ∃ k ∈ K, ∃ v, Next f it k v := by
  classical
  by_cases hsome : ∃ k, Ahead it k ∧ f k ≠ none
  · have hthere : (K.filter fun k => Ahead it k ∧ f k ≠ none).Nonempty := by
      obtain ⟨k, hk⟩ := hsome
      exact ⟨k, Finset.mem_filter.mpr ⟨hf k hk.2, hk⟩⟩
    have hmin := Finset.mem_filter.mp (Finset.min'_mem _ hthere)
    obtain ⟨v, hv⟩ := Option.ne_none_iff_exists'.mp hmin.2.2
    refine .inr ⟨_, hmin.1, v, hmin.2.1, fun k hk hlt => ?_, hv⟩
    by_contra hne
    exact absurd (Finset.min'_le _ k (Finset.mem_filter.mpr ⟨hf k hne, hk, hne⟩)) (not_le.mpr hlt)
  · exact .inl fun k hk => not_not.mp fun hne => hsome ⟨k, hk, hne⟩

theorem Walk.ahead (hw : Walk held visit it s l s') : ∀ x ∈ l, Ahead it x.1 := by
  induction hw with
  | done _ => simp
  | step hnext _ _ ih =>
    refine List.forall_mem_cons.mpr ⟨hnext.ahead, fun x hx i hi => ?_⟩
    exact (hnext.ahead i hi).trans (ih x hx _ rfl)

theorem Walk.sorted (hw : Walk held visit it s l s') : l.Pairwise fun x y => x.1 < y.1 := by
  induction hw with
  | done _ => exact List.Pairwise.nil
  | step _ _ hw ih => exact List.pairwise_cons.mpr ⟨fun x hx => hw.ahead x hx _ rfl, ih⟩

variable (hfill : ∀ s v b s', visit s v b s' → Filled source (held s) (held s'))
include hfill

theorem Walk.filled (hw : Walk held visit it s l s') : Filled source (held s) (held s') := by
  induction hw with
  | done _ => exact Filled.refl source _
  | step _ hvisit _ ih => exact (hfill _ _ _ _ hvisit).trans ih

/-- What was there ahead of the place where one began has been passed. -/
theorem Walk.complete (hw : Walk held visit it s l s') {k : κ} (hk : Ahead it k) (hs : held s k ≠ none) :
    k ∈ l.map Prod.fst := by
  induction hw with
  | done hnone => exact absurd (hnone k hk) hs
  | @step it s s₁ s' k' v b l hnext hvisit _ ih =>
    rcases lt_trichotomy k k' with hlt | rfl | hlt
    · exact absurd (hnext.least k hk hlt) hs
    · exact List.mem_cons_self
    · refine List.mem_cons_of_mem _ (ih (fun i hi => ?_) ?_)
      · obtain rfl := Option.some.inj hi
        exact hlt
      · obtain ⟨w, hw⟩ := Option.ne_none_iff_exists'.mp hs
        rw [(hfill _ _ _ _ hvisit).some hw]
        simp

/-- Where each visit was, and what was there. -/
theorem Walk.visited (hw : Walk held visit it s l s') {x : κ × β} (hx : x ∈ l) :
    ∃ s₁ s₂ v, Filled source (held s) (held s₁) ∧ held s₁ x.1 = some v ∧ Comes held visit it s (s₁, v) ∧
      visit s₁ v x.2 s₂ ∧ Filled source (held s₂) (held s') := by
  induction hw with
  | done _ => simp at hx
  | @step it s s₁ s' k v b l hnext hvisit hw ih =>
    rcases List.mem_cons.mp hx with rfl | hx
    · exact ⟨s, s₁, v, Filled.refl source _, hnext.there, .here hnext, hvisit, hw.filled hfill⟩
    · obtain ⟨t, t', v', hbefore, hv, hcomes, hrest⟩ := ih hx
      exact ⟨t, t', v', (hfill _ _ _ _ hvisit).trans hbefore, hv, .step hnext hvisit hcomes, hrest⟩

/-- If there are not too many keys, one gets to the end exactly if every visit on the way is one. -/
theorem walk_iff {K : Finset κ} (hsource : ∀ k, source k ≠ none → k ∈ K) (hs : ∀ k, held s k ≠ none → k ∈ K)
    (hone : ∀ s v b b' s₁ s₂, visit s v b s₁ → visit s v b' s₂ → s₁ = s₂) (it : Option κ) :
    (∃ l s', Walk held visit it s l s') ↔ ∀ n, Comes held visit it s n → ∃ b s', visit n.1 n.2 b s' := by
  constructor
  · rintro ⟨l, s', hw⟩
    induction hw with
    | done hnone =>
      intro n hn
      cases hn with
      | here hnext => exact absurd ((hnone _ hnext.ahead).symm.trans hnext.there) (by simp)
      | step hnext => exact absurd ((hnone _ hnext.ahead).symm.trans hnext.there) (by simp)
    | @step it s s₁ s' k v b l hnext hvisit _ ih =>
      intro n hn
      cases hn with
      | here hnext' =>
        obtain ⟨-, rfl⟩ := hnext.unique hnext'
        exact ⟨b, s₁, hvisit⟩
      | step hnext' hvisit' hn =>
        obtain ⟨rfl, rfl⟩ := hnext.unique hnext'
        obtain rfl := hone _ _ _ _ _ _ hvisit hvisit'
        refine ih (fun k hk => ?_) n hn
        rcases hfill _ _ _ _ hvisit k with h | ⟨-, h⟩
        · exact hs k (h ▸ hk)
        · exact hsource k (h ▸ hk)
  · -- the keys that are ahead become fewer
    intro hall
    classical
    induction hcard : (K.filter (Ahead it)).card using Nat.strong_induction_on generalizing it s with
    | _ n ih =>
      rcases exists_next hs it with hnone | ⟨k, hk, v, hnext⟩
      · exact ⟨[], s, .done hnone⟩
      · obtain ⟨b, s₁, hvisit⟩ := hall _ (.here hnext)
        have hfewer : K.filter (Ahead (some k)) ⊂ K.filter (Ahead it) := by
          refine Finset.ssubset_iff_of_subset (fun k' hk' => ?_) |>.mpr
            ⟨k, Finset.mem_filter.mpr ⟨hk, hnext.ahead⟩, fun hk' => ?_⟩
          · obtain ⟨hmem, hahead⟩ := Finset.mem_filter.mp hk'
            exact Finset.mem_filter.mpr ⟨hmem, fun i hi => (hnext.ahead i hi).trans (hahead k rfl)⟩
          · exact lt_irrefl k ((Finset.mem_filter.mp hk').2 k rfl)
        have hs₁ : ∀ k, held s₁ k ≠ none → k ∈ K := by
          intro k' hk'
          rcases hfill _ _ _ _ hvisit k' with h | ⟨-, h⟩
          · exact hs k' (h ▸ hk')
          · exact hsource k' (h ▸ hk')
        obtain ⟨l, s', hw⟩ := ih _ (hcard ▸ Finset.card_lt_card hfewer) hs₁ (some k)
          (fun n hn => hall n (.step hnext hvisit hn)) rfl
        exact ⟨_, s', .step hnext hvisit hw⟩

end Walk

end Lasagne.Trans
