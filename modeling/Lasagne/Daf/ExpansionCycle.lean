import Lasagne.Daf.FormatLoop
import Lasagne.Trans.Acyclic
import Mathlib.Data.Finset.Card
import Mathlib.Data.Finset.Image
import Mathlib.Data.Set.Finite.List

/-!
# Lasagne.Daf.ExpansionCycle — when the expansion of properties comes to an end

A key leads to the keys that are met while its value is formatted, and to those that are met in the text that is put in
for it.  Nothing keeps this from going round.
-/

namespace Lasagne.Daf

namespace Host

open Lasagne.Trans

variable {host : Host}

variable (host) in
/-- What the expansion of a key comes to look up: while its value is formatted, and in the text that is put in. -/
inductive Leads : PropertyMap × Text → PropertyMap × Text → Prop
  | value {m m' : PropertyMap} {key val : Text} {sub : Bool} {n : PropertyMap × Text} (hkey : key ≠ [])
      (hval : host.value m key true = some (val, sub, m')) (hn : host.MeetsEach m' (host.argv sub val) n) :
      Leads (m, key) n
  | text {m m' : PropertyMap} {key text : Text} {n : PropertyMap × Text} (hval : host.Returns m key text m')
      (hn : host.Meets m' (trimString text '\'') n) : Leads (m, key) n

variable (host) in
/-- A lookup that is met while `args` are gone over leads to one that leads back to itself. -/
def CircularIn (m : PropertyMap) (args : List Text) : Prop :=
  ∃ n, host.MeetsEach m args n ∧ Circular host.Leads n

/-! ## What ends does not go round -/

variable (host) in
/-- What is met while a value is formatted descends, as far as the fuel goes. -/
def ValuesDescend (fuel : ℕ) : Prop :=
  ∀ m key r, host.expandAt fuel m key true = some r → key ≠ [] →
    ∀ val sub m', host.value m key true = some (val, sub, m') →
      ∀ n, host.MeetsEach m' (host.argv sub val) n → Descends host.Leads n

theorem descends_of_unknown {m : PropertyMap} {key : Text} (h : host.Unknown m key) : Descends host.Leads (m, key) := by
  refine Acc.intro _ fun n hleads => ?_
  cases hleads with
  | value hkey hval =>
    rw [h.resolve_left hkey] at hval
    exact absurd hval (by simp)
  | text hval => exact absurd h hval.not_unknown

theorem descends_of_returns {g : ℕ} (hg : host.ValuesDescend g) {m m₁ : PropertyMap} {key text : Text}
    (h : host.expandAt g m key true = some (.ok text, m₁))
    (htext : ∀ n, host.Meets m₁ (trimString text '\'') n → Descends host.Leads n) : Descends host.Leads (m, key) := by
  have hret : host.Returns m key text m₁ := ⟨g, h⟩
  refine Acc.intro _ fun n hleads => ?_
  cases hleads with
  | value hkey hval hn => exact hg _ _ _ h hkey _ _ _ hval n hn
  | text hval hn =>
    obtain ⟨rfl, rfl⟩ := hret.unique hval
    exact htext n hn

/-- The loop has read `t` on its own when it comes to what is behind it, and what it has met on the way descends. -/
theorem expand_reads (hplain : '%' ∉ host.hostname) {g : ℕ} (hg : host.ValuesDescend g) {fuel : ℕ} {m : PropertyMap}
    {done t tail : Text} {res : Text × PropertyMap}
    (h : host.expand (host.expandRef g) fuel m done (t ++ tail) = some res) :
    ∃ r m' fuel' done', fuel' ≤ fuel ∧ host.Reads m t r m' ∧
      host.expand (host.expandRef g) fuel' m' done' (r ++ tail) = some res ∧
      ∀ n, host.Meets m t n → Descends host.Leads n := by
  induction fuel using Nat.strong_induction_on generalizing m done t tail with
  | _ fuel ih =>
    cases hd : host.within t with
    | none =>
      refine ⟨_, m, fuel, done ++ t.takeWhile (· ≠ '%'), le_rfl, .spent hd, ?_,
        fun n hn => absurd hn (not_meets_of_none hd)⟩
      rw [← expand_spent]
      exact h
    | some d =>
      obtain _ | fuel := fuel
      · exact absurd h (by simp [expand])
      cases d with
      | keep out rest =>
        rw [expand_keep _ _ _ _ _ hd] at h
        obtain ⟨r, m', fuel', done', hle, hr, hres, hn⟩ := ih fuel (Nat.lt_succ_self fuel) h
        exact ⟨r, m', fuel', done', by omega, .keep hd hr, hres, fun n hmeets => hn n (hmeets.of_keep hd)⟩
      | insert text rest =>
        rw [expand_insert _ _ _ _ _ hplain hd] at h
        obtain ⟨r, m', fuel', done', hle, hr, hres, hn⟩ := ih fuel (Nat.lt_succ_self fuel) h
        exact ⟨r, m', fuel', done', by omega, .insert hd hr, hres, fun n hmeets => hn n (hmeets.of_insert hd)⟩
      | property ident rest =>
        cases hlook : host.expandRef g m (trimString ident ' ') with
        | none =>
          rw [expand_none _ _ _ hd hlook] at h
          simp at h
        | some found =>
          obtain ⟨e | val, m₁⟩ := found
          · -- the lookup throws, and what was between the braces is gone over
            obtain ⟨hun, rfl⟩ := unknown_of_expandAt ((expandRef_eq _ _ _).symm.trans hlook)
            rw [expand_error _ _ _ hd hlook] at h
            obtain ⟨r, m', fuel', done', hle, hr, hres, hn⟩ := ih fuel (Nat.lt_succ_self fuel) h
            refine ⟨r, m', fuel', done', by omega, .unknown hd hun hr, hres, fun n hmeets => ?_⟩
            obtain rfl | hmeets := hmeets.of_unknown hd hun
            · exact descends_of_unknown hun
            · exact hn n hmeets
          · -- the text that is put in is read first, and then what is left of it with what was behind
            have hgot : host.expandAt g m (keyOf ident) true = some (.ok val, m₁) := (expandRef_eq _ _ _).symm.trans hlook
            rw [expand_ok _ _ _ hd hlook] at h
            obtain ⟨r₁, m₂, fuel₁, done₁, hle₁, hr₁, hres₁, hn₁⟩ := ih fuel (Nat.lt_succ_self fuel) h
            rw [← List.append_assoc] at hres₁
            obtain ⟨r, m', fuel', done', hle, hr, hres, hn⟩ := ih fuel₁ (by omega) hres₁
            refine ⟨r, m', fuel', done', by omega, .stands hd ⟨g, hgot⟩ hr₁ hr, hres, fun n hmeets => ?_⟩
            obtain rfl | hmeets := hmeets.of_stands hd ⟨g, hgot⟩ hr₁
            · exact descends_of_returns hg hgot hn₁
            · exact hn n hmeets

/-- The map that the loop ends with is the one that reading ends with: what is left holds no reference. -/
theorem map_eq_of_expand (hplain : '%' ∉ host.hostname) {get : Lookup} {fuel : ℕ} {m m' : PropertyMap}
    {done r out : Text} (hr : '}' ∉ r) (h : host.expand get fuel m done r = some (out, m')) : m' = m := by
  obtain ⟨out', hout⟩ := expand_of_no_brace hplain get m done hr (Nat.lt_succ_self (r.count '%'))
  exact congrArg Prod.snd ((expand_steady get m done r).unique h hout)

theorem formatEach_descends (hplain : '%' ∉ host.hostname) {g : ℕ} (hg : host.ValuesDescend g) {fuel : ℕ} {m : PropertyMap}
    {args : List Text} {r : List Text × PropertyMap}
    (h : formatEach (host.expand (host.expandRef g) fuel · [] ·) m args = some r) :
    ∀ n, host.MeetsEach m args n → Descends host.Leads n := by
  induction args generalizing m r with
  | nil =>
    intro n hn
    cases hn
  | cons arg args ih =>
    rw [formatEach] at h
    split at h
    · exact absurd h (by simp)
    · next text m₁ harg =>
      obtain ⟨rs, hrs, _⟩ := Option.map_eq_some_iff.mp h
      rw [← List.append_nil arg] at harg
      obtain ⟨left, m₂, fuel', done', _, hreads, hres, hmeets⟩ := expand_reads hplain hg harg
      obtain rfl := map_eq_of_expand hplain (by rw [List.append_nil]; exact hreads.no_brace) hres
      intro n hn
      cases hn with
      | here hn => exact hmeets n hn
      | later hreads' hn =>
        obtain ⟨_, rfl⟩ := hreads.unique hreads'
        exact ih hrs n hn

theorem valuesDescend (hplain : '%' ∉ host.hostname) (g : ℕ) : host.ValuesDescend g := by
  induction g with
  | zero =>
    intro m key r h
    exact absurd h (by simp [expandAt])
  | succ g ih =>
    intro m key r h hkey val sub m' hval n hn
    rw [expandAt, if_neg hkey, hval] at h
    obtain ⟨_, hw, _⟩ := Option.map_eq_some_iff.mp h
    obtain ⟨_, hrs, _⟩ := Option.map_eq_some_iff.mp hw
    exact formatEach_descends hplain ih hrs n hn

/-! ## What does not go round ends -/

variable (host) in
/-- The lookup of a key ends, and so does the reading of the text that is put in for it. -/
def Settles (n : PropertyMap × Text) : Prop :=
  (∃ fuel r, host.expandAt fuel n.1 n.2 true = some r) ∧
    ∀ text m', host.Returns n.1 n.2 text m' → ∃ r m'', host.Reads m' (trimString text '\'') r m''

/-- What is left to read, by its closing braces and then by its `%`s. -/
def amount (t : Text) : ℕ ×ₗ ℕ := toLex (t.count '}', t.count '%')

theorem amount_lt_of_suffix {x after rest : Text} (h : rest <:+ after) : amount rest < amount (x ++ '%' :: after) := by
  have hbrace := h.sublist.count_le '}'
  have hpercent := h.sublist.count_le '%'
  refine Prod.Lex.toLex_lt_toLex'.mpr ⟨?_, fun _ => ?_⟩
  · simp only [List.count_append, List.count_cons]
    omega
  · simp only [List.count_append, List.count_cons_self]
    omega

theorem amount_lt_of_within {t ident rest : Text} (h : host.within t = some (.property ident rest)) :
    amount ('{' :: ident ++ '}' :: rest) < amount t ∧ ∀ r, '}' ∉ r → amount (r ++ rest) < amount t := by
  obtain ⟨x, after, rfl, _, _, hd⟩ := within_eq_some h
  obtain ⟨hident, rfl⟩ := directive_property hd
  have hcount := List.count_eq_zero_of_not_mem hident
  refine ⟨Prod.Lex.toLex_lt_toLex'.mpr ⟨?_, fun _ => ?_⟩, fun r hr => Prod.Lex.toLex_lt_toLex.mpr (Or.inl ?_)⟩
  · simp [List.count_append]
  · simp [List.count_append]
    omega
  · have := List.count_eq_zero_of_not_mem hr
    simp [List.count_append]
    omega

/-- A text is read to its end if everything that it meets settles. -/
theorem reads_of_settles {m : PropertyMap} {t : Text} (h : ∀ n, host.Meets m t n → host.Settles n) :
    ∃ r m', host.Reads m t r m' := by
  induction hamount : amount t using WellFoundedLT.induction generalizing m t with
  | _ a ih =>
    subst hamount
    cases hd : host.within t with
    | none => exact ⟨_, m, .spent hd⟩
    | some d =>
      cases d with
      | keep out rest =>
        have hlt : amount rest < amount t := by
          obtain ⟨x, after, rfl, _, _, hdir⟩ := within_eq_some hd
          exact amount_lt_of_suffix (directive_keep hdir)
        obtain ⟨r, m', hr⟩ := ih _ hlt (fun n hn => h n (.keep hd hn)) rfl
        exact ⟨r, m', .keep hd hr⟩
      | insert text rest =>
        have hlt : amount rest < amount t := by
          obtain ⟨x, after, rfl, _, _, hdir⟩ := within_eq_some hd
          exact amount_lt_of_suffix (directive_insert hdir)
        obtain ⟨r, m', hr⟩ := ih _ hlt (fun n hn => h n (.insert hd hn)) rfl
        exact ⟨r, m', .insert hd hr⟩
      | property ident rest =>
        obtain ⟨hunknown, hstands⟩ := amount_lt_of_within hd
        obtain ⟨⟨fuel, found, hgot⟩, htext⟩ := h _ (.here hd)
        obtain ⟨e | val, m₁⟩ := found
        · obtain ⟨hun, rfl⟩ := unknown_of_expandAt hgot
          obtain ⟨r, m', hr⟩ := ih _ hunknown (fun n hn => h n (.unknown hd hun hn)) rfl
          exact ⟨r, m', .unknown hd hun hr⟩
        · have hret : host.Returns m (keyOf ident) val m₁ := ⟨fuel, hgot⟩
          obtain ⟨r₁, m₂, hin⟩ := htext val m₁ hret
          obtain ⟨r, m', hr⟩ := ih _ (hstands r₁ hin.no_brace) (fun n hn => h n (.stands hd hret hin hn)) rfl
          exact ⟨r, m', .stands hd hret hin hr⟩

theorem expandEach_of_settles (hplain : '%' ∉ host.hostname) {m : PropertyMap} {args : List Text}
    (h : ∀ n, host.MeetsEach m args n → host.Settles n) :
    ∃ fuel r, host.expandEach fuel m args = some r := by
  induction args generalizing m with
  | nil => exact ⟨0, _, rfl⟩
  | cons arg args ih =>
    obtain ⟨left, m₁, hr⟩ := reads_of_settles fun n hn => h n (.here hn)
    obtain ⟨done', hrun⟩ := hr.run hplain [] []
    obtain ⟨out, hout⟩ := expand_of_no_brace hplain (host.expandRef (left.count '%' + 1)) m₁ done' hr.no_brace
      (Nat.lt_succ_self (left.count '%'))
    rw [← List.append_nil left] at hout
    obtain ⟨f₁, hf₁⟩ := hrun _ ⟨_, hout⟩
    obtain ⟨f₂, rs, hf₂⟩ := ih fun n hn => h n (.later hr hn)
    refine ⟨max f₁ f₂, (out :: rs.1, rs.2), ?_⟩
    rw [List.append_nil] at hf₁
    have hfirst := expand_mono (expandRef_mono (le_max_left f₁ f₂)) (le_max_left f₁ f₂) hf₁
    have hothers := expandEach_mono (le_max_right f₁ f₂) hf₂
    unfold expandEach at hothers ⊢
    rw [formatEach, hfirst]
    dsimp only
    rw [hothers]
    rfl

theorem settles_of_descends (hplain : '%' ∉ host.hostname) {n : PropertyMap × Text} (h : Descends host.Leads n) :
    host.Settles n := by
  induction h with
  | intro n _ ih =>
    obtain ⟨m, key⟩ := n
    refine ⟨?_, fun text m' hret => reads_of_settles fun n hn => ih n (.text hret hn)⟩
    by_cases hun : host.Unknown m key
    · obtain ⟨e, he⟩ := expandAt_of_unknown hun 0
      exact ⟨1, _, he⟩
    · have hkey : key ≠ [] := fun hkey => hun (Or.inl hkey)
      cases hval : host.value m key true with
      | none => exact absurd (Or.inr hval) hun
      | some v =>
        obtain ⟨val, sub, m'⟩ := v
        obtain ⟨fuel, r, hr⟩ := expandEach_of_settles hplain fun n hn => ih n (.value hkey hval hn)
        refine ⟨fuel + 1, (.ok (host.gather r.1 sub true), r.2), ?_⟩
        rw [expandAt, if_neg hkey, hval]
        exact Option.map_eq_some_iff.mpr ⟨_, Option.map_eq_some_iff.mpr ⟨r, hr, rfl⟩, rfl⟩

/-! ## The map on the way -/

variable (host) in
/-- The keys of the environment that the map does not have. -/
def unloaded (m : PropertyMap) : Finset Text := (host.environ.map Prod.fst).toFinset.filter (m.lookup · = none)

variable (host) in
/-- The map is the same, or keys of the environment have come into it. -/
def Loaded (m m' : PropertyMap) : Prop := m' = m ∨ host.unloaded m' ⊂ host.unloaded m

theorem Loaded.refl (m : PropertyMap) : host.Loaded m m := Or.inl rfl

theorem Loaded.trans {m₁ m₂ m₃ : PropertyMap} (h : host.Loaded m₁ m₂) (h' : host.Loaded m₂ m₃) :
    host.Loaded m₁ m₃ := by
  rcases h with rfl | h
  · exact h'
  · rcases h' with rfl | h'
    · exact Or.inr h
    · exact Or.inr (h'.trans h)

theorem value_loaded {m m' : PropertyMap} {key val : Text} {useEnv sub : Bool}
    (h : host.value m key useEnv = some (val, sub, m')) : host.Loaded m m' := by
  rcases value_eq_some h with ⟨_, _, rfl⟩ | ⟨hm, henv, _, rfl⟩
  · exact Loaded.refl m'
  · right
    obtain ⟨env, henv⟩ := Option.isSome_iff_exists.mp henv
    have hkey : key ∈ host.unloaded m := by
      obtain ⟨l₁, l₂, hl, _⟩ := List.lookup_eq_some_iff.mp henv
      refine Finset.mem_filter.mpr ⟨List.mem_toFinset.mpr ?_, hm⟩
      simp [hl]
    refine Finset.ssubset_iff_of_subset (fun k hk => ?_) |>.mpr ⟨key, hkey, fun hmem => ?_⟩
    · obtain ⟨hin, hk⟩ := Finset.mem_filter.mp hk
      rw [PropertyMap.lookup_assign] at hk
      split at hk
      · simp at hk
      · exact Finset.mem_filter.mpr ⟨hin, hk⟩
    · have hk := (Finset.mem_filter.mp hmem).2
      rw [PropertyMap.lookup_assign, if_pos rfl] at hk
      simp at hk

theorem expand_loaded {get : Lookup} (hget : ∀ m ident r, get m ident = some r → host.Loaded m r.2) {fuel : ℕ}
    {m : PropertyMap} {done rest : Text} {r : Text × PropertyMap}
    (h : host.expand get fuel m done rest = some r) : host.Loaded m r.2 := by
  induction fuel generalizing m done rest with
  | zero => exact absurd h (by simp [expand])
  | succ fuel ih =>
    rw [expand] at h
    split at h
    · obtain rfl := Option.some.inj h
      exact Loaded.refl m
    · dsimp only at h
      split at h
      · exact ih h
      · exact ih h
      · split at h
        · exact absurd h (by simp)
        · next hg => exact (hget _ _ _ hg).trans (ih h)
        · next hg => exact (hget _ _ _ hg).trans (ih h)

theorem expandAt_loaded {fuel : ℕ} {m : PropertyMap} {key : Text} {useEnv : Bool}
    {r : Except PropertyError Text × PropertyMap} (h : host.expandAt fuel m key useEnv = some r) :
    host.Loaded m r.2 := by
  induction fuel generalizing m key useEnv r with
  | zero => exact absurd h (by simp [expandAt])
  | succ fuel ih =>
    rw [expandAt] at h
    split at h
    · obtain rfl := Option.some.inj h
      exact Loaded.refl m
    · split at h
      · obtain rfl := Option.some.inj h
        exact Loaded.refl m
      · next hval =>
        obtain ⟨rs, hrs, rfl⟩ := Option.map_eq_some_iff.mp h
        obtain ⟨rs', hrs', rfl⟩ := Option.map_eq_some_iff.mp hrs
        exact (value_loaded hval).trans
          (formatEach_rel Loaded.refl Loaded.trans (fun _ _ _ => expand_loaded fun _ _ _ hr => ih hr) hrs')

theorem Returns.loaded {m m' : PropertyMap} {key text : Text} (h : host.Returns m key text m') : host.Loaded m m' := by
  obtain ⟨fuel, h⟩ := h
  exact expandAt_loaded h

theorem Reads.loaded {m m' : PropertyMap} {t r : Text} (h : host.Reads m t r m') : host.Loaded m m' := by
  induction h with
  | spent _ => exact Loaded.refl _
  | keep _ _ ih => exact ih
  | insert _ _ ih => exact ih
  | unknown _ _ _ ih => exact ih
  | stands _ hval _ _ ihin ih => exact hval.loaded.trans (ihin.trans ih)

theorem Meets.loaded {m : PropertyMap} {t : Text} {n : PropertyMap × Text} (h : host.Meets m t n) :
    host.Loaded m n.1 := by
  induction h with
  | here _ => exact Loaded.refl _
  | keep _ _ ih => exact ih
  | insert _ _ ih => exact ih
  | unknown _ _ _ ih => exact ih
  | stands _ hval hin _ ih => exact hval.loaded.trans (hin.loaded.trans ih)

theorem MeetsEach.loaded {m : PropertyMap} {args : List Text} {n : PropertyMap × Text} (h : host.MeetsEach m args n) :
    host.Loaded m n.1 := by
  induction h with
  | here hn => exact hn.loaded
  | later hr _ ih => exact hr.loaded.trans ih

theorem Leads.loaded {n n' : PropertyMap × Text} (h : host.Leads n n') : host.Loaded n.1 n'.1 := by
  cases h with
  | value _ hval hn => exact (value_loaded hval).trans hn.loaded
  | text hval hn => exact hval.loaded.trans hn.loaded

/-- Only a key that there is a value for leads anywhere. -/
theorem Leads.value_isSome {n n' : PropertyMap × Text} (h : host.Leads n n') :
    (host.value n.1 n.2 true).isSome := by
  cases h with
  | value _ hval _ => simp [hval]
  | text hret _ =>
    by_contra hnone
    exact hret.not_unknown (Or.inr (by simpa using hnone))

theorem lookup_mem {m : PropertyMap} {key val : Text} (h : m.lookup key = some val) : key ∈ m.map Prod.fst := by
  obtain ⟨l₁, l₂, rfl, _⟩ := List.lookup_eq_some_iff.mp h
  simp

theorem finite_leads (m : PropertyMap) : {n | n.1 = m ∧ ∃ n', host.Leads n n'}.Finite := by
  have hkeys := (List.finite_toSet (m.map Prod.fst ++ host.environ.map Prod.fst)).image (Prod.mk m)
  refine hkeys.subset ?_
  rintro ⟨m, key⟩ ⟨rfl, n', hleads⟩
  refine ⟨key, ?_, rfl⟩
  obtain ⟨⟨val, sub, m'⟩, hval⟩ := Option.isSome_iff_exists.mp hleads.value_isSome
  rcases value_eq_some hval with ⟨hm, _⟩ | ⟨_, henv, _⟩
  · exact List.mem_append_left _ (lookup_mem hm)
  · obtain ⟨env, henv⟩ := Option.isSome_iff_exists.mp henv
    exact List.mem_append_right _ (lookup_mem henv)

theorem leads_descends {n : PropertyMap × Text} (h : ¬ Circular host.Leads n) : Descends host.Leads n := by
  refine descends_of_not_circular Prod.fst (fun m => (host.unloaded m).card) (fun a b hab => ?_) finite_leads h
  exact hab.loaded.imp_right Finset.card_lt_card

/-! ## The end of an expansion -/

/-- The expansion of the arguments ends exactly when nothing that it meets goes round. -/
theorem expandEach_ends_iff (hplain : '%' ∉ host.hostname) (m : PropertyMap) (args : List Text) :
    (∃ fuel r, host.expandEach fuel m args = some r) ↔ ¬ host.CircularIn m args := by
  constructor
  · rintro ⟨fuel, r, h⟩ ⟨n, hn, hcircular⟩
    exact (formatEach_descends hplain (valuesDescend hplain fuel) h n hn).not_circular hcircular
  · intro h
    exact expandEach_of_settles hplain fun n hn =>
      settles_of_descends hplain (leads_descends fun hcircular => h ⟨n, hn, hcircular⟩)

/-- And so does the loop over them, while the texts stay short. -/
theorem formatEach_ends_iff (hplain : '%' ∉ host.hostname) {m : PropertyMap} {args : List Text}
    (hshort : host.StaysShort m args) :
    (∃ fuel r, formatEach (host.formatLoop (host.look fuel) fuel · · 0) m args = some r) ↔ ¬ host.CircularIn m args := by
  rw [← expandEach_ends_iff hplain]
  refine exists_congr fun fuel => exists_congr fun r => ?_
  rw [formatEach_eq hshort]

theorem formatArgs_ends_iff (hplain : '%' ∉ host.hostname) {m : PropertyMap} {args : Text} {sub : Bool}
    (hshort : host.StaysShort m (host.argv sub args)) (quote : Bool) :
    (∃ fuel r, host.formatArgs fuel m args sub quote = some r) ↔ ¬ host.CircularIn m (host.argv sub args) := by
  rw [← formatEach_ends_iff hplain hshort]
  refine exists_congr fun fuel => ⟨?_, ?_⟩
  · rintro ⟨r, h⟩
    obtain ⟨rs, hrs, _⟩ := Option.map_eq_some_iff.mp h
    exact ⟨rs, hrs⟩
  · rintro ⟨rs, hrs⟩
    exact ⟨_, Option.map_eq_some_iff.mpr ⟨rs, hrs, rfl⟩⟩

variable (host) in
/-- The value of a property goes round: `own` is the map that it is looked up in, and `repository` the one that its
references are then looked up in. -/
def CircularProperty (own : PropertyMap) (repository : PropertyMap → PropertyMap) (ident : Text) (useEnv : Bool) :
    Prop :=
  trimString ident ' ' ≠ [] ∧ ∃ val sub own', host.value own (trimString ident ' ') useEnv = some (val, sub, own') ∧
    host.CircularIn (repository own') (host.argv sub val)

variable (host) in
/-- The texts stay short while it is formatted. -/
def ShortProperty (own : PropertyMap) (repository : PropertyMap → PropertyMap) (ident : Text) (useEnv : Bool) : Prop :=
  ∀ val sub own', host.value own (trimString ident ' ') useEnv = some (val, sub, own') →
    host.StaysShort (repository own') (host.argv sub val)

theorem getProperty_ends_iff (hplain : '%' ∉ host.hostname) {m : PropertyMap} {ident : Text} {useEnv : Bool}
    (hshort : host.ShortProperty m id ident useEnv) :
    (∃ fuel r, host.getProperty fuel m ident useEnv = some r) ↔ ¬ host.CircularProperty m id ident useEnv := by
  unfold getProperty CircularProperty
  by_cases hkey : trimString ident ' ' = []
  · refine iff_of_true ⟨1, _, by rw [getAt, if_pos hkey]⟩ ?_
    rintro ⟨hne, _⟩
    exact hne hkey
  cases hval : host.value m (trimString ident ' ') useEnv with
  | none =>
    refine iff_of_true ⟨1, (.error .notFound, m), by rw [getAt, if_neg hkey, hval]⟩ ?_
    rintro ⟨_, _, _, _, hsome, _⟩
    simp at hsome
  | some v =>
    obtain ⟨val, sub, m'⟩ := v
    have hends := formatEach_ends_iff hplain (hshort val sub m' hval)
    constructor
    · rintro ⟨fuel, r, h⟩ ⟨_, _, _, _, hsome, hcircular⟩
      obtain ⟨rfl, rfl, rfl⟩ : val = _ ∧ sub = _ ∧ m' = _ := by simpa using hsome
      obtain _ | fuel := fuel
      · simp [getAt] at h
      · rw [getAt, if_neg hkey, hval] at h
        obtain ⟨_, hw, _⟩ := Option.map_eq_some_iff.mp h
        obtain ⟨rs, hrs, _⟩ := Option.map_eq_some_iff.mp hw
        exact hends.mp ⟨fuel, rs, hrs⟩ hcircular
    · intro h
      obtain ⟨fuel, rs, hrs⟩ := hends.mpr fun hcircular => h ⟨hkey, val, sub, m', rfl, hcircular⟩
      refine ⟨fuel + 1, (.ok (host.gather rs.1 sub true), rs.2), ?_⟩
      rw [getAt, if_neg hkey, hval]
      exact Option.map_eq_some_iff.mpr ⟨_, Option.map_eq_some_iff.mpr ⟨rs, hrs, rfl⟩, rfl⟩

theorem getOwnProperty_ends_iff (hplain : '%' ∉ host.hostname) {own m : PropertyMap} {ident : Text} {useEnv : Bool}
    (hshort : host.ShortProperty own (fun _ => m) ident useEnv) :
    (∃ fuel r, host.getOwnProperty fuel own m ident useEnv = some r) ↔
      ¬ host.CircularProperty own (fun _ => m) ident useEnv := by
  unfold getOwnProperty CircularProperty
  by_cases hkey : trimString ident ' ' = []
  · refine iff_of_true ⟨0, _, by rw [if_pos hkey]⟩ ?_
    rintro ⟨hne, _⟩
    exact hne hkey
  cases hval : host.value own (trimString ident ' ') useEnv with
  | none =>
    refine iff_of_true ⟨0, (.error .notFound, own, m), by rw [if_neg hkey, hval]⟩ ?_
    rintro ⟨_, _, _, _, hsome, _⟩
    simp at hsome
  | some v =>
    obtain ⟨val, sub, own'⟩ := v
    have hends := formatArgs_ends_iff hplain (hshort val sub own' hval) true
    constructor
    · rintro ⟨fuel, r, h⟩ ⟨_, _, _, _, hsome, hcircular⟩
      obtain ⟨rfl, rfl, rfl⟩ : val = _ ∧ sub = _ ∧ own' = _ := by simpa using hsome
      rw [if_neg hkey, hval] at h
      obtain ⟨rs, hrs, _⟩ := Option.map_eq_some_iff.mp h
      exact hends.mp ⟨fuel, rs, hrs⟩ hcircular
    · intro h
      obtain ⟨fuel, rs, hrs⟩ := hends.mpr fun hcircular => h ⟨hkey, val, sub, own', rfl, hcircular⟩
      refine ⟨fuel, (.ok rs.1, own', rs.2), ?_⟩
      rw [if_neg hkey, hval]
      exact Option.map_eq_some_iff.mpr ⟨rs, hrs, rfl⟩

/-- While the texts stay short, `format_args` and `get_property`, of the repository and of any other manager, return or
throw exactly when no lookup that they come to leads to one that leads back to itself. -/
theorem expansion_ends_iff (host : Host) (hplain : '%' ∉ host.hostname) (m : PropertyMap) :
    (∀ args sub quote, host.StaysShort m (host.argv sub args) →
      ((∃ fuel r, host.formatArgs fuel m args sub quote = some r) ↔ ¬ host.CircularIn m (host.argv sub args))) ∧
    (∀ ident useEnv, host.ShortProperty m id ident useEnv →
      ((∃ fuel r, host.getProperty fuel m ident useEnv = some r) ↔ ¬ host.CircularProperty m id ident useEnv)) ∧
    ∀ own ident useEnv, host.ShortProperty own (fun _ => m) ident useEnv →
      ((∃ fuel r, host.getOwnProperty fuel own m ident useEnv = some r) ↔
        ¬ host.CircularProperty own (fun _ => m) ident useEnv) :=
  ⟨fun _ _ quote hshort => formatArgs_ends_iff hplain hshort quote, fun _ _ => getProperty_ends_iff hplain,
    fun _ _ _ => getOwnProperty_ends_iff hplain⟩

theorem staysShort_five : bareHost.StaysShort [(['A'], ['5'])] [['%', 'p', '{', 'A', '}']] := by
  intro fuel
  refine ⟨?_, by split <;> trivial⟩
  cases fuel with
  | zero => trivial
  | succ fuel =>
    refine ⟨by decide, ⟨fits_of_notMem (by decide), by split <;> trivial⟩, ?_⟩
    cases fuel with
    | zero => trivial
    | succ fuel => exact fits_of_notMem (by decide : '%' ∉ ['5'])

/-- `A` is `5`. -/
theorem expansion_ends_iff_five : ¬ bareHost.CircularIn [(['A'], ['5'])] [['%', 'p', '{', 'A', '}']] :=
  ((expansion_ends_iff bareHost (by decide) [(['A'], ['5'])]).1 ['%', 'p', '{', 'A', '}'] true true
    staysShort_five).mp ⟨4, _, rfl⟩

/-! ## Properties that go round -/

/-- A round of the loop at a reference to `A`. -/
theorem formatLoop_reference_A (get : Lookup) (fuel : ℕ) (m : PropertyMap) :
    bareHost.formatLoop get (fuel + 1) m ['%', 'p', '{', 'A', '}'] 0 =
      match get m ['A'] with
      | none => none
      | some (.ok val, m) => bareHost.formatLoop get fuel m (trimString val '\'' ++ []) 0
      | some (.error _, m) => bareHost.formatLoop get fuel m ['{', 'A', '}'] 0 := by
  rw [formatLoop]
  rfl

/-- A lookup of a property that is a reference to itself does not end. -/
theorem getAt_self (fuel : ℕ) (useEnv : Bool) :
    bareHost.getAt fuel [(['A'], ['%', 'p', '{', 'A', '}'])] ['A'] useEnv = none := by
  induction fuel generalizing useEnv with
  | zero => rfl
  | succ fuel ih =>
    have hvalue : bareHost.value [(['A'], ['%', 'p', '{', 'A', '}'])] ['A'] useEnv =
        some (['%', 'p', '{', 'A', '}'], useEnv, [(['A'], ['%', 'p', '{', 'A', '}'])]) := rfl
    have hargv : bareHost.argv useEnv ['%', 'p', '{', 'A', '}'] = [['%', 'p', '{', 'A', '}']] := rfl
    have hkey : trimString ['A'] ' ' = ['A'] := by decide
    rw [getAt, if_neg (by decide), hvalue]
    dsimp only
    rw [formatWith, hargv, formatEach]
    cases fuel with
    | zero => rfl
    | succ fuel =>
      dsimp only
      rw [formatLoop_reference_A, hkey, ih]
      rfl

/-- Nor does a call that refers to it. -/
theorem formatArgs_self (fuel : ℕ) (sub quote : Bool) : bareHost.formatArgs fuel
    [(['A'], ['%', 'p', '{', 'A', '}'])] ['%', 'p', '{', 'A', '}'] sub quote = none := by
  have hargv : bareHost.argv sub ['%', 'p', '{', 'A', '}'] = [['%', 'p', '{', 'A', '}']] := rfl
  rw [formatArgs, formatWith, hargv, formatEach]
  cases fuel with
  | zero => rfl
  | succ fuel =>
    have hlook : bareHost.look (fuel + 1) [(['A'], ['%', 'p', '{', 'A', '}'])] ['A'] = none := getAt_self _ _
    dsimp only
    rw [formatLoop_reference_A, hlook]
    rfl

/-- The text of a property that refers to itself is put in again and again. -/
theorem formatLoop_again (fuel fuel' : ℕ) :
    bareHost.formatLoop (bareHost.look fuel) fuel' [(['A'], ['%', '%', 'p', '{', 'A', '}'])] ['%', 'p', '{', 'A', '}'] 0 =
      none := by
  have hvalue : bareHost.look 4 [(['A'], ['%', '%', 'p', '{', 'A', '}'])] ['A'] =
      some (.ok ['%', 'p', '{', 'A', '}'], [(['A'], ['%', '%', 'p', '{', 'A', '}'])]) := by decide
  induction fuel' with
  | zero => rfl
  | succ fuel' ih =>
    rw [formatLoop_reference_A]
    cases hget : bareHost.look fuel [(['A'], ['%', '%', 'p', '{', 'A', '}'])] ['A'] with
    | none => rfl
    | some found =>
      obtain rfl := (getAt_steady _ _ true).unique hget hvalue
      exact ih

/-- `A` is `%p{A}`, and its lookup never ends; or it is `%%p{A}`, its lookup gives `%p{A}`, and that is put in again and
again. -/
theorem expansion_goes_round :
    (¬ ∃ fuel r, bareHost.formatArgs fuel [(['A'], ['%', 'p', '{', 'A', '}'])] ['%', 'p', '{', 'A', '}'] true true =
      some r) ∧
    (¬ ∃ fuel r, bareHost.getProperty fuel [(['A'], ['%', 'p', '{', 'A', '}'])] ['A'] true = some r) ∧
    ¬ ∃ fuel r, bareHost.formatArgs fuel [(['A'], ['%', '%', 'p', '{', 'A', '}'])] ['%', 'p', '{', 'A', '}'] true true =
      some r := by
  refine ⟨?_, ?_, ?_⟩
  · rintro ⟨fuel, r, h⟩
    rw [formatArgs_self] at h
    cases h
  · rintro ⟨fuel, r, h⟩
    have hkey : trimString ['A'] ' ' = ['A'] := by decide
    rw [getProperty, hkey, getAt_self] at h
    cases h
  · rintro ⟨fuel, r, h⟩
    have hargv : bareHost.argv true ['%', 'p', '{', 'A', '}'] = [['%', 'p', '{', 'A', '}']] := rfl
    rw [formatArgs, formatWith, hargv, formatEach, formatLoop_again] at h
    cases h

end Host

end Lasagne.Daf
