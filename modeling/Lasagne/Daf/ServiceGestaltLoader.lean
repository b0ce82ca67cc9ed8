import Mathlib
import Lasagne.Trans.Attempts
import Lasagne.Daf.TrimEnds
import Lasagne.Daf.ConfiguratorGrammar

/-!
# Lasagne.Daf.ServiceGestaltLoader — the directives of a configuration

A loader keeps the idents of its directives in the order in which they came, again and again if they did, and the
directives in a map.

* `processLoop_eq` : each ident is looked for as often as it is in the list, and found once;
* `parseDirective_eq_iff` : what is called for, by the text before the colon and the text behind it.
-/

namespace Lasagne.Daf

open Lasagne.Trans

/-! ## The model -/

/-- What `load_service` is called with, besides the ident. -/
structure ServiceDirective where
  libpathname : Text
  objectclass : Text
  params : Text
  deriving DecidableEq, Repr

/-- The class and the parameters: split at the first blank, or behind the first `)` if there is one. -/
def splitClass (s_class : Text) : Option (Text × Text) :=
  let c_pos := findFirstOf s_class ' '
  if c_pos > 0 then
    let p_pos := findFirstOf s_class ')'
    (substrFrom s_class (incr (if p_pos > 0 then p_pos else c_pos))).map fun rest =>
      (s_class.take c_pos.toNat, trimString rest ' ')
  else some (s_class, [])

/-- `s_class` up to its `(`, without the blanks. -/
def objectClass (s_class : Text) : Text :=
  let c_pos := findFirstOf s_class '('
  trimString (if c_pos > 0 then s_class.take c_pos.toNat else s_class) ' '

/-- `ServiceGestaltLoader::process_directive` of what `format_args` has made of it, up to the call of `load_service`:
`some none` is the return with -1, and `none` a `std::out_of_range`. -/
def parseDirective (args : Text) : Option (Option ServiceDirective) :=
  let lib_pos := findFirstOf args ':'
  if lib_pos > 0 then
    let s_libpathname := trimString (substrTo args lib_pos) ' '
    if s_libpathname ≠ [] then
      match substrFrom args (incr lib_pos) with
      | none => none
      | some rest =>
        (splitClass (trimString rest ' ')).map fun (s_class, s_params) =>
          if objectClass s_class ≠ [] then some ⟨s_libpathname, objectClass s_class, s_params⟩ else none
    else some none
  else some none

structure ServiceGestaltLoader where
  ident_list_ : List Text
  entries : PropertyMap
  deriving DecidableEq, Repr

namespace ServiceGestaltLoader

def empty : ServiceGestaltLoader := ⟨[], []⟩

/-- `ServiceGestaltLoader::load_property`. -/
def loadProperty (loader : ServiceGestaltLoader) (key val : Text) : ServiceGestaltLoader × ℤ :=
  let (entries, result) := loader.entries.loadProperty key val
  (⟨loader.ident_list_ ++ [key], entries⟩, result)

section Process

variable {σ : Type*}

/-- `ServiceGestaltLoader::process_directive`. -/
def processDirective (format : Text → Text) (loadService : Text → ServiceDirective → σ → Outcome × σ)
    (val : Text × Text) (s : σ) : Outcome × σ :=
  match parseDirective (format val.2) with
  | none => (.threw, s)
  | some none => (.failed, s)
  | some (some service) =>
    match loadService val.1 service s with
    | (.threw, s) => (.failed, s)
    | r => r

/-- The loop of `process_directives`; `directive` is `process_directive`, and what else there is. -/
def processLoop (directive : Text × Text → σ → Outcome × σ) :
    ℕ → List Text → PropertyMap → σ → ℕ × PropertyMap × σ
  | failed_loads, [], entries, s => (failed_loads, entries, s)
  | failed_loads, ident :: ident_list, entries, s =>
    match entries.lookup ident with
    | some val =>
      let (outcome, s) := directive (ident, val) s
      processLoop directive (if outcome = .ok then failed_loads else failed_loads + 1) ident_list
        (entries.filter (·.1 ≠ ident)) s
    | none => processLoop directive failed_loads ident_list entries s

/-- `ServiceGestaltLoader::process_directives`, with the monitor locked or not. -/
def processDirectives (locked : Bool) (directive : Text × Text → σ → Outcome × σ) (loader : ServiceGestaltLoader)
    (s : σ) : ℤ × ServiceGestaltLoader × σ :=
  if locked then
    let (failed_loads, entries, s) := processLoop directive 0 loader.ident_list_ loader.entries s
    (failed_loads, ⟨[], entries⟩, s)
  else (-1, loader, s)

end Process

/-- The calls of `load_service` that `process_directive` makes, whatever they come to. -/
def serviceCalls (format : Text → Text) (outcome : Outcome) (val : Text × Text) : List (Text × ServiceDirective) :=
  (processDirective format (fun ident service calls => (outcome, calls ++ [(ident, service)])) val []).2

end ServiceGestaltLoader

/-! ## Which directives are processed -/

theorem lookup_filter_ne (m : PropertyMap) (key k : Text) :
    List.lookup k (m.filter (·.1 ≠ key)) = if k = key then none else m.lookup k := by
  induction m with
  | nil => simp
  | cons e m ih =>
    obtain ⟨e, val⟩ := e
    by_cases he : e = key
    · subst he
      rw [List.filter_cons_of_neg (by simp), ih, List.lookup_cons]
      by_cases hk : k = e
      · rw [if_pos hk, if_pos hk]
      · rw [if_neg hk, if_neg hk, beq_false_of_ne hk]
    · rw [List.filter_cons_of_pos (by simpa using he), List.lookup_cons, List.lookup_cons, ih]
      by_cases hk : k = e
      · subst hk
        simp [he]
      · rw [beq_false_of_ne hk]

/-- The directives that the loop finds: an ident is in the map until it is found. -/
def directivesOf (idents : List Text) (m : PropertyMap) : List (Text × Text) :=
  (firstRequests idents).filterMap fun ident => (m.lookup ident).map (ident, ·)

theorem directivesOf_cons (ident : Text) (idents : List Text) (m : PropertyMap) :
    directivesOf (ident :: idents) m =
      ((m.lookup ident).map (ident, ·)).toList ++ directivesOf idents (m.filter (·.1 ≠ ident)) := by
  have hrest : ((firstRequests idents).filter (· ≠ ident)).filterMap (fun i => (m.lookup i).map (i, ·)) =
      directivesOf idents (m.filter (·.1 ≠ ident)) := by
    unfold directivesOf
    rw [List.filterMap_filter]
    refine List.filterMap_congr fun i _ => ?_
    rw [lookup_filter_ne]
    by_cases hi : i = ident <;> simp [hi]
  rw [← hrest, directivesOf, firstRequests, List.filterMap_cons]
  cases m.lookup ident <;> rfl

/-- Every directive is processed once, where its ident first is in the list. -/
theorem processLoop_eq {σ : Type*} (directive : Text × Text → σ → Outcome × σ) (failed_loads : ℕ) (idents : List Text)
    (m : PropertyMap) (s : σ) :
    ServiceGestaltLoader.processLoop directive failed_loads idents m s =
      (failed_loads + failures (attempts directive (directivesOf idents m) s).1, m.filter (·.1 ∉ idents),
        (attempts directive (directivesOf idents m) s).2) := by
  induction idents generalizing failed_loads m s with
  | nil => simp [ServiceGestaltLoader.processLoop, directivesOf, firstRequests, attempts]
  | cons ident idents ih =>
    have hfilter : (m.filter (·.1 ≠ ident)).filter (·.1 ∉ idents) = m.filter (·.1 ∉ ident :: idents) := by
      rw [List.filter_filter]
      refine List.filter_congr fun e _ => ?_
      simp [Bool.and_comm]
    unfold ServiceGestaltLoader.processLoop
    rw [directivesOf_cons]
    cases hm : m.lookup ident with
    | none =>
      have habsent : m.filter (·.1 ≠ ident) = m := by
        refine List.filter_eq_self.mpr fun e he => ?_
        have hnot := List.lookup_eq_none_iff.mp hm e he
        exact decide_eq_true fun heq => by simp [heq] at hnot
      dsimp only
      rw [ih, ← hfilter, habsent]
      rfl
    | some val =>
      dsimp only
      rw [ih, hfilter, Option.map_some, Option.toList_some, List.singleton_append, attempts_cons, failures_cons]
      congr 1
      split_ifs <;> omega

/-! ## What has been loaded -/

/-- What the calls of `load_property` leave in a new loader. -/
def ServiceGestaltLoader.loaded (loads : List (Text × Text)) : ServiceGestaltLoader :=
  loads.foldl (fun loader load => (loader.loadProperty load.1 load.2).1) empty

theorem loaded_concat (loads : List (Text × Text)) (load : Text × Text) :
    ServiceGestaltLoader.loaded (loads ++ [load]) =
      ((ServiceGestaltLoader.loaded loads).loadProperty load.1 load.2).1 := by
  unfold ServiceGestaltLoader.loaded
  rw [List.foldl_append]
  rfl

theorem ident_list_loaded (loads : List (Text × Text)) :
    (ServiceGestaltLoader.loaded loads).ident_list_ = loads.map Prod.fst := by
  induction loads using List.reverseRecOn with
  | nil => rfl
  | append_singleton loads load ih =>
    rw [loaded_concat, List.map_append, ← ih]
    rfl

/-- The map has the last value that is not empty, for every ident that has been loaded, and for no other. -/
theorem lookup_loaded (loads : List (Text × Text)) (ident : Text) :
    (ServiceGestaltLoader.loaded loads).entries.lookup ident =
      (lastGiven loads ident).or (if ident ∈ loads.map Prod.fst then some [] else none) := by
  induction loads using List.reverseRecOn with
  | nil => rfl
  | append_singleton loads load ih =>
    have hnamed := known_concat (loads.map Prod.fst) load.1 ident
    rw [← List.map_singleton, ← List.map_append] at hnamed
    rw [loaded_concat]
    change ((ServiceGestaltLoader.loaded loads).entries.loadProperty load.1 load.2).1.lookup ident = _
    rw [lookup_loadProperty, ih, lastGiven_concat, Option.or_assoc, Option.or_assoc, hnamed]

/-- What is called for, of what has been loaded. -/
def ServiceGestaltLoader.directives (loads : List (Text × Text)) : List (Text × Text) :=
  (firstRequests (loads.map Prod.fst)).map fun ident => (ident, (lastGiven loads ident).getD [])

theorem directivesOf_loaded (loads : List (Text × Text)) :
    directivesOf (loads.map Prod.fst) (ServiceGestaltLoader.loaded loads).entries =
      ServiceGestaltLoader.directives loads := by
  unfold directivesOf ServiceGestaltLoader.directives
  refine Eq.trans (List.filterMap_congr fun ident hident => ?_) (congrFun List.filterMap_eq_map _)
  rw [lookup_loaded, if_pos (mem_firstRequests.mp hident), Function.comp_apply]
  cases lastGiven loads ident <;> rfl

theorem keys_loaded {loads : List (Text × Text)} {e : Text × Text}
    (he : e ∈ (ServiceGestaltLoader.loaded loads).entries) : e.1 ∈ loads.map Prod.fst := by
  by_contra hnot
  have hnone := lookup_loaded loads e.1
  rw [lastGiven_of_notMem hnot, if_neg hnot, Option.none_or] at hnone
  have hne := List.lookup_eq_none_iff.mp hnone e he
  simp at hne

/-- `process_directives` calls `process_directive` once for each ident that has been loaded, in the order in which the
idents came first and with the last value that is not empty, gives back the number of calls that failed, and leaves
nothing behind. -/
theorem processDirectives_eq {σ : Type*} (directive : Text × Text → σ → Outcome × σ) (loads : List (Text × Text))
    (s : σ) :
    let calls := ServiceGestaltLoader.directives loads
    let made := attempts directive calls s
    (ServiceGestaltLoader.loaded loads).processDirectives true directive s =
        (Int.ofNat (failures made.1), ServiceGestaltLoader.empty, made.2) ∧
      made.1.map Prod.fst = calls ∧ (calls.map Prod.fst).Nodup ∧
      ∀ ident, ident ∈ calls.map Prod.fst ↔ ident ∈ loads.map Prod.fst := by
  dsimp only
  have hidents : (ServiceGestaltLoader.directives loads).map Prod.fst = firstRequests (loads.map Prod.fst) := by
    rw [ServiceGestaltLoader.directives, List.map_map]
    exact List.map_id _
  have hempty : (ServiceGestaltLoader.loaded loads).entries.filter (·.1 ∉ loads.map Prod.fst) = [] := by
    refine List.filter_eq_nil_iff.mpr fun e he => ?_
    simpa using keys_loaded he
  refine ⟨?_, map_fst_attempts .., ?_, fun ident => ?_⟩
  · unfold ServiceGestaltLoader.processDirectives
    rw [if_pos rfl, ident_list_loaded, processLoop_eq, directivesOf_loaded, hempty, zero_add]
    rfl
  · rw [hidents]
    exact nodup_firstRequests _
  · rw [hidents]
    exact mem_firstRequests

/-! ## A directive taken apart -/

section Parse

variable {lib cls w params rest t : Text}

theorem length_substrTo_le {s : Text} {pos : ℤ} (h : 0 ≤ pos) : (substrTo s pos).length ≤ pos.toNat := by
  rw [substrTo, if_pos h, List.length_take]
  exact min_le_left _ _

/-- What `load_service` is called with, by the text before the first colon and the text behind it. -/
theorem parseDirective_eq_iff (hlib : trimString lib ' ' = lib) (hne : lib ≠ []) (hcolon : ':' ∉ lib) (hcls : cls ≠ []) :
    parseDirective (lib ++ ':' :: rest) = some (some ⟨lib, cls, params⟩) ↔
      lib.length + 1 < 2 ^ 31 ∧ ∃ s_class, splitClass (trimString rest ' ') = some (s_class, params) ∧
        objectClass s_class = cls := by
  have hpos := List.length_pos_iff.mpr hne
  unfold parseDirective
  dsimp only
  rw [findFirstOf_append hcolon]
  by_cases hnear : lib.length < 2 ^ 31
  · have hint : toInt lib.length = lib.length := toInt_eq_iff.mpr hnear
    rw [hint, if_pos (by omega), substrTo_append, hlib, if_pos hne]
    by_cases hlast : lib.length + 1 < 2 ^ 31
    · rw [incr_of_lt hlast, substrFrom_cons]
      dsimp only
      rw [Option.map_eq_some_iff]
      constructor
      · rintro ⟨⟨s_class, s_params⟩, hsplit, heq⟩
        dsimp only at heq
        split_ifs at heq
        obtain ⟨-, hobject, hparams⟩ := ServiceDirective.mk.inj (Option.some.inj heq)
        exact ⟨hlast, s_class, hparams ▸ hsplit, hobject⟩
      · rintro ⟨-, s_class, hsplit, hobject⟩
        refine ⟨_, hsplit, ?_⟩
        dsimp only
        rw [hobject, if_pos hcls]
    · have hfrom : substrFrom (lib ++ ':' :: rest) (incr lib.length) = none := by
        have hneg := incr_of_eq (n := lib.length) (by omega)
        rw [substrFrom, if_neg (by omega)]
      rw [hfrom]
      exact iff_of_false (by simp) fun h => hlast h.1
  · refine iff_of_false ?_ fun h => by omega
    have hfar := toInt_far (not_lt.mp hnear)
    split_ifs with hgt hlibname
    · -- the colon that is found is not the colon of the text
      have hshort : trimString (substrTo (lib ++ ':' :: rest) (toInt lib.length)) ' ' ≠ lib := by
        intro heq
        have hle := (length_trimString_le _ ' ').trans (length_substrTo_le (s := lib ++ ':' :: rest) hgt.le)
        rw [heq] at hle
        omega
      intro h
      cases hfrom : substrFrom (lib ++ ':' :: rest) (incr (toInt lib.length)) with
      | none => rw [hfrom] at h; cases h
      | some after =>
        rw [hfrom] at h
        dsimp only at h
        obtain ⟨⟨s_class, s_params⟩, -, heq⟩ := Option.map_eq_some_iff.mp h
        dsimp only at heq
        split_ifs at heq
        exact hshort (ServiceDirective.mk.inj (Option.some.inj heq)).1
    · simp
    · simp

/-- The class and the parameters behind it: blanks, and then what there is to the end. -/
def spread (w : Text) (n : ℕ) (t : Text) : Text := w ++ (List.replicate (n + 1) ' ' ++ t)

theorem spaced_of_blank {a : Char} (h : isBlank a = true) : spaced a = ' ' := by
  unfold spaced
  split_ifs with hcntrl
  · rfl
  · have hcntrl := Bool.eq_false_of_not_eq_true hcntrl
    exact eq_space (by simpa [isBlank, hcntrl] using h) hcntrl

theorem settled_of_plain (hw : Plain w) : Settled (Removal ' ') w :=
  settled_space_iff.mpr ⟨fun a ha => hw a (List.mem_of_mem_head? ha), fun a ha => hw a (List.mem_of_mem_getLast? ha)⟩

theorem settled_plain_append (hw : Plain w) (hne : w ≠ []) {u : Text} (hu : u ≠ [])
    (hlast : ∀ a, u.getLast? = some a → isBlank a = false) : Settled (Removal ' ') (w ++ u) := by
  refine settled_space_iff.mpr ⟨fun a ha => hw a ?_, fun a ha => hlast a ?_⟩
  · rw [List.head?_append_of_ne_nil w hne] at ha
    exact List.mem_of_mem_head? ha
  · rwa [List.getLast?_append_of_ne_nil w hu] at ha

/-- A directive behind its colon, trimmed. -/
theorem trimString_word (hw : Plain w) (hne : w ≠ []) (params : Text) : trimString (w ++ ' ' :: params) ' ' =
    if trimString params ' ' = [] then w
    else spread w (params.takeWhile isBlank).length (trimString params ' ') := by
  have hword : w.map spaced = w :=
    (List.map_congr_left fun a ha => spaced_of_not_blank (hw a ha)).trans (List.map_id w)
  have hbefore : ∀ a ∈ params.takeWhile isBlank, isBlank a = true := fun a ha => List.mem_takeWhile_imp ha
  obtain ⟨t, y, hcore, hy, ht⟩ := exists_core params
  have htrim : trimString params ' ' = t.map spaced := by
    rw [hcore, trimString_blanks_append _ _ hbefore, trimString_append_blanks _ _ hy, trimString_of_settled ht]
  generalize hx : params.takeWhile isBlank = x at *
  have hspread : w ++ ' ' :: params = w ++ (' ' :: x ++ t) ++ y := by
    rw [hcore]
    simp
  rw [htrim, hspread, trimString_append_blanks _ _ hy]
  by_cases hnil : t = []
  · subst hnil
    have hblank : ∀ a ∈ ' ' :: x ++ [], isBlank a = true := by
      rw [List.append_nil]
      exact List.forall_mem_cons.mpr ⟨by decide, hbefore⟩
    rw [if_pos List.map_nil, trimString_append_blanks _ _ hblank, trimString_of_settled (settled_of_plain hw), hword]
  · have hlast : ∀ a, (' ' :: x ++ t).getLast? = some a → isBlank a = false := by
      intro a ha
      rw [List.getLast?_append_of_ne_nil _ hnil] at ha
      exact (settled_space_iff.mp ht).2 a ha
    rw [if_neg (by simpa using hnil), trimString_of_settled (settled_plain_append hw hne (by simp) hlast), spread,
      List.map_append, List.map_append, List.map_cons, hword]
    have hblanks : x.map spaced = List.replicate x.length ' ' :=
      List.map_eq_replicate_iff.mpr fun a ha => spaced_of_blank (hbefore a ha)
    rw [hblanks]
    rfl

variable {n : ℕ}

theorem length_spread (w : Text) (n : ℕ) (t : Text) : (spread w n t).length = w.length + (n + 1) + t.length := by
  rw [spread, List.length_append, List.length_append, List.length_replicate, ← Nat.add_assoc]

/-- Which part of it has the parameters at the end, and nothing else but blanks. -/
theorem substrFrom_spread_iff (hw : Plain w) (ht : trimString t ' ' = t) (hne : t ≠ []) (r : ℤ) :
    (∃ rest, substrFrom (spread w n t) r = some rest ∧ trimString rest ' ' = t) ↔
      (w.length : ℤ) ≤ r ∧ r ≤ w.length + 1 + n := by
  have hlast : ∀ a, t.getLast? = some a → isBlank a = false := by
    have hsettled := settled_trimString t ' '
    rw [ht] at hsettled
    exact (settled_space_iff.mp hsettled).2
  have hlength := length_spread w n t
  have hpos := List.length_pos_iff.mpr hne
  have hdrop : ∀ k, w.length ≤ k → k ≤ w.length + 1 + n →
      (spread w n t).drop k = List.replicate (n + 1 - (k - w.length)) ' ' ++ t := by
    intro k hlo hhi
    have hle : k - w.length ≤ (List.replicate (n + 1) ' ').length := by
      rw [List.length_replicate]
      omega
    rw [spread, List.drop_append, List.drop_of_length_le hlo, List.nil_append, List.drop_append_of_le_length hle,
      List.drop_replicate]
  constructor
  · rintro ⟨rest, hrest, htrim⟩
    unfold substrFrom at hrest
    split_ifs at hrest with hbounds
    obtain rfl := Option.some.inj hrest
    obtain ⟨k, rfl⟩ := Int.eq_ofNat_of_zero_le hbounds.1
    rw [Int.toNat_natCast] at htrim
    have hk : k ≤ (spread w n t).length := by exact_mod_cast hbounds.2
    have hsame := congrArg List.length htrim
    have hshorter := length_trimString_le ((spread w n t).drop k) ' '
    rw [List.length_drop] at hshorter
    constructor
    · -- the end of the class would be trimmed off
      by_contra hlt
      have hpart : (spread w n t).drop k = w.drop k ++ (List.replicate (n + 1) ' ' ++ t) :=
        List.drop_append_of_le_length (by omega)
      have hsettled : Settled (Removal ' ') ((spread w n t).drop k) := by
        rw [hpart]
        refine settled_plain_append (fun a ha => hw a (List.mem_of_mem_drop ha)) ?_ (by simp) fun a ha => ?_
        · exact List.ne_nil_of_length_pos (by rw [List.length_drop]; omega)
        · rw [List.getLast?_append_of_ne_nil _ hne] at ha
          exact hlast a ha
      rw [trimString_of_settled hsettled, List.length_map, List.length_drop] at hsame
      omega
    · omega
  · rintro ⟨hlo, hhi⟩
    obtain ⟨k, rfl⟩ := Int.eq_ofNat_of_zero_le ((Int.natCast_nonneg _).trans hlo)
    refine ⟨(spread w n t).drop k, by rw [substrFrom, if_pos ⟨by omega, by omega⟩, Int.toNat_natCast], ?_⟩
    rw [hdrop k (by omega) (by omega), trimString_blanks_append _ _ fun a ha => ?_, ht]
    rw [List.eq_of_mem_replicate ha]
    decide

/-- The blank behind the class is found where it is, or the class is cut short, or nothing is split off. -/
theorem splitClass_spread (hw : ' ' ∉ w) (hne : w ≠ []) (n : ℕ) (t : Text) :
    (w.length < 2 ^ 31 → splitClass (spread w n t) =
      (substrFrom (spread w n t) (incr (if findFirstOf (spread w n t) ')' > 0 then findFirstOf (spread w n t) ')'
        else w.length))).map fun rest => (w, trimString rest ' ')) ∧
    (2 ^ 31 ≤ w.length → ∀ s_class s_params, splitClass (spread w n t) = some (s_class, s_params) →
      s_params = [] ∨ s_class.length + 2 ^ 32 ≤ w.length) := by
  have hfind : findFirstOf (spread w n t) ' ' = toInt w.length := by
    rw [spread, List.replicate_succ, List.cons_append, findFirstOf_append hw]
  have hpos := List.length_pos_iff.mpr hne
  constructor
  · intro hnear
    unfold splitClass
    dsimp only
    rw [hfind, toInt_eq_iff.mpr hnear, if_pos (by omega), Int.toNat_natCast, spread, List.take_left]
  · intro hfar s_class s_params h
    have hint := toInt_far hfar
    unfold splitClass at h
    dsimp only at h
    rw [hfind] at h
    by_cases hgt : toInt w.length > 0
    · right
      rw [if_pos hgt] at h
      obtain ⟨rest, -, heq⟩ := Option.map_eq_some_iff.mp h
      obtain ⟨rfl, -⟩ := Prod.mk.inj heq
      have hle := List.length_take_le (toInt w.length).toNat (spread w n t)
      omega
    · left
      rw [if_neg hgt] at h
      exact (Prod.mk.inj (Option.some.inj h)).2.symm

theorem length_objectClass_le (s_class : Text) : (objectClass s_class).length ≤ s_class.length := by
  unfold objectClass
  refine (length_trimString_le _ _).trans ?_
  split_ifs
  · rw [List.length_take]
    exact min_le_right _ _
  · exact le_rfl

theorem objectClass_of_notMem (hw : Plain w) (hnot : '(' ∉ w) : objectClass w = w := by
  unfold objectClass
  dsimp only
  rw [findFirstOf_of_notMem hnot, if_neg (by omega), trimString_of_tidy hw.tidy]

/-- The brackets go from a class, as long as they are found. -/
theorem objectClass_brackets_iff (hw : Plain w) (hne : w ≠ []) (hnot : '(' ∉ w) :
    objectClass (w ++ ['(', ')']) = w ↔ w.length < 2 ^ 31 := by
  have hpos := List.length_pos_iff.mpr hne
  unfold objectClass
  dsimp only
  rw [findFirstOf_append hnot]
  by_cases hnear : w.length < 2 ^ 31
  · refine iff_of_true ?_ hnear
    rw [toInt_eq_iff.mpr hnear, if_pos (by omega), Int.toNat_natCast, List.take_left, trimString_of_tidy hw.tidy]
  · refine iff_of_false ?_ hnear
    have hfar := toInt_far (not_lt.mp hnear)
    intro heq
    have hlength := congrArg List.length heq
    split_ifs at hlength with hgt
    · have hle := length_trimString_le ((w ++ ['(', ')']).take (toInt w.length).toNat) ' '
      rw [List.length_take] at hle
      omega
    · have hplain : Plain (w ++ ['(', ')']) := hw.append (by decide)
      rw [trimString_of_tidy hplain.tidy, List.length_append] at hlength
      simp at hlength

theorem serviceCalls_eq_iff {format : Text → Text} {outcome : Outcome} {ident args : Text} {service : ServiceDirective} :
    ServiceGestaltLoader.serviceCalls format outcome (ident, args) = [(ident, service)] ↔
      parseDirective (format args) = some (some service) := by
  unfold ServiceGestaltLoader.serviceCalls ServiceGestaltLoader.processDirective
  dsimp only
  cases parseDirective (format args) with
  | none => simp
  | some parsed =>
    cases parsed with
    | none => simp
    | some called => cases outcome <;> simp

/-- Where the first `)` is found, if it is, there is no other text before the parameters than the class and blanks.  It is
so where there is none, and else only where the position does not fit an `int`. -/
def ParenHarmless (cls params : Text) : Prop :=
  let p_pos := findFirstOf (trimString (cls ++ ' ' :: params) ' ') ')'
  p_pos ≤ 0 ∨ (cls.length ≤ incr p_pos ∧ incr p_pos ≤ cls.length + 1 + (params.takeWhile isBlank).length)

/-- A class without brackets. -/
theorem plain_class_iff (hcls : Plain cls) (hne : cls ≠ []) (hopen : '(' ∉ cls) (ht : trimString params ' ' ≠ [])
    (hnear : cls.length + 1 < 2 ^ 31) :
    (∃ s_class, splitClass (trimString (cls ++ ' ' :: params) ' ') = some (s_class, trimString params ' ') ∧
      objectClass s_class = cls) ↔ ParenHarmless cls params := by
  have hspace : ' ' ∉ cls := fun h => absurd (hcls ' ' h) (by decide)
  unfold ParenHarmless
  rw [trimString_word hcls hne, if_neg ht, (splitClass_spread hspace hne _ _).1 (by omega)]
  generalize findFirstOf (spread cls (params.takeWhile isBlank).length (trimString params ' ')) ')' = p_pos
  have hsub := substrFrom_spread_iff (n := (params.takeWhile isBlank).length) hcls (trimString_trimString params ' ') ht
    (incr (if p_pos > 0 then p_pos else cls.length))
  have hiff : (p_pos ≤ 0 ∨ ((cls.length : ℤ) ≤ incr p_pos ∧
      incr p_pos ≤ cls.length + 1 + (params.takeWhile isBlank).length)) ↔
      ((cls.length : ℤ) ≤ incr (if p_pos > 0 then p_pos else cls.length) ∧
        incr (if p_pos > 0 then p_pos else cls.length) ≤ cls.length + 1 + (params.takeWhile isBlank).length) := by
    by_cases hpos : p_pos > 0
    · rw [if_pos hpos]
      exact or_iff_right (by omega)
    · rw [if_neg hpos, incr_of_lt hnear]
      exact iff_of_true (Or.inl (by omega)) ⟨by omega, by omega⟩
  dsimp only
  rw [hiff, ← hsub]
  constructor
  · rintro ⟨s_class, hsplit, -⟩
    obtain ⟨rest, hrest, heq⟩ := Option.map_eq_some_iff.mp hsplit
    exact ⟨rest, hrest, (Prod.mk.inj heq).2⟩
  · rintro ⟨rest, hrest, heq⟩
    exact ⟨cls, Option.map_eq_some_iff.mpr ⟨rest, hrest, by rw [heq]⟩, objectClass_of_notMem hcls hopen⟩

/-- And one with them. -/
theorem bracket_class_iff (hcls : Plain cls) (hne : cls ≠ []) (hopen : '(' ∉ cls) (hclose : ')' ∉ cls)
    (ht : trimString params ' ' ≠ []) :
    (∃ s_class, splitClass (trimString (cls ++ ['(', ')'] ++ ' ' :: params) ' ') =
        some (s_class, trimString params ' ') ∧ objectClass s_class = cls) ↔ cls.length + 2 < 2 ^ 31 := by
  have hw : Plain (cls ++ ['(', ')']) := hcls.append (by decide)
  have hwne : cls ++ ['(', ')'] ≠ [] := by simp
  have hspace : ' ' ∉ cls ++ ['(', ')'] := fun h => absurd (hw ' ' h) (by decide)
  have hlength : (cls ++ ['(', ')']).length = cls.length + 2 := by simp
  obtain ⟨hshort, hlong⟩ := splitClass_spread hspace hwne (params.takeWhile isBlank).length (trimString params ' ')
  rw [trimString_word hw hwne, if_neg ht]
  by_cases hnear : cls.length + 2 < 2 ^ 31
  · refine iff_of_true ?_ hnear
    have hclosed : findFirstOf (spread (cls ++ ['(', ')']) (params.takeWhile isBlank).length (trimString params ' ')) ')' =
        cls.length + 1 := by
      have hsplit : spread (cls ++ ['(', ')']) (params.takeWhile isBlank).length (trimString params ' ') =
          (cls ++ ['(']) ++ ')' :: (List.replicate ((params.takeWhile isBlank).length + 1) ' ' ++
            trimString params ' ') := by simp [spread]
      rw [hsplit, findFirstOf_append (by simp [hclose]), toInt_eq_iff.mpr (by simp; omega)]
      simp
    have hincr := incr_of_lt (n := cls.length + 1) (by omega)
    obtain ⟨rest, hrest, htrim⟩ := (substrFrom_spread_iff (n := (params.takeWhile isBlank).length) hw
      (trimString_trimString params ' ') ht (cls.length + 2)).mpr ⟨by omega, by omega⟩
    refine ⟨cls ++ ['(', ')'], ?_, (objectClass_brackets_iff hcls hne hopen).mpr (by omega)⟩
    rw [hshort (by omega), hclosed, if_pos (by omega)]
    push_cast at hincr
    rw [hincr, Option.map_eq_some_iff]
    refine ⟨rest, ?_, by rw [htrim]⟩
    rw [← hrest]
    congr 1
  · refine iff_of_false ?_ hnear
    rintro ⟨s_class, hsplit, hobject⟩
    rcases hlong (by omega) s_class _ hsplit with hnil | hcut
    · exact ht hnil
    · have hle := length_objectClass_le s_class
      rw [hobject] at hle
      omega

/-- A directive is taken apart as it is written, with brackets and without them, where its positions fit an `int`, if there
is no `)` in the parameters to be taken for a bracket. -/
theorem directive_parsed_iff (hlib : trimString lib ' ' = lib) (hlibne : lib ≠ []) (hcolon : ':' ∉ lib)
    (hcls : Plain cls) (hne : cls ≠ []) (hopen : '(' ∉ cls) (hclose : ')' ∉ cls) {format : Text → Text} {args args' : Text}
    (hformat : format args = lib ++ ':' :: (cls ++ ' ' :: params))
    (hformat' : format args' = lib ++ ':' :: (cls ++ ['(', ')'] ++ ' ' :: params)) (ident : Text) (outcome : Outcome) :
    (ServiceGestaltLoader.serviceCalls format outcome (ident, args) = [(ident, ⟨lib, cls, trimString params ' '⟩)] ∧
      ServiceGestaltLoader.serviceCalls format outcome (ident, args') = [(ident, ⟨lib, cls, trimString params ' '⟩)]) ↔
      lib.length + 1 < 2 ^ 31 ∧ cls.length < 2 ^ 31 ∧
        (trimString params ' ' ≠ [] → cls.length + 2 < 2 ^ 31 ∧ ParenHarmless cls params) := by
  rw [serviceCalls_eq_iff, serviceCalls_eq_iff, hformat, hformat', parseDirective_eq_iff hlib hlibne hcolon hne,
    parseDirective_eq_iff hlib hlibne hcolon hne, ← and_and_left]
  refine and_congr_right fun _ => ?_
  by_cases ht : trimString params ' ' = []
  · have hw : Plain (cls ++ ['(', ')']) := hcls.append (by decide)
    have hspace : ∀ {w : Text}, Plain w → splitClass w = some (w, []) := by
      intro w hw
      have hnot : ' ' ∉ w := fun h => absurd (hw ' ' h) (by decide)
      rw [splitClass, findFirstOf_of_notMem hnot]
      rfl
    rw [trimString_word hcls hne, if_pos ht, trimString_word hw (by simp), if_pos ht, ht, hspace hcls, hspace hw]
    have hbrackets := objectClass_brackets_iff hcls hne hopen
    constructor
    · rintro ⟨-, s_class, hsplit, hobject⟩
      obtain ⟨rfl, -⟩ := Prod.mk.inj (Option.some.inj hsplit)
      exact ⟨hbrackets.mp hobject, fun hnil => absurd rfl hnil⟩
    · rintro ⟨hnear, -⟩
      exact ⟨⟨cls, rfl, objectClass_of_notMem hcls hopen⟩, _, rfl, hbrackets.mpr hnear⟩
  · rw [bracket_class_iff hcls hne hopen hclose ht]
    constructor
    · rintro ⟨hplain, hnear⟩
      exact ⟨by omega, fun _ => ⟨hnear, (plain_class_iff hcls hne hopen ht (by omega)).mp hplain⟩⟩
    · rintro ⟨-, hrest⟩
      obtain ⟨hnear, hparen⟩ := hrest ht
      exact ⟨(plain_class_iff hcls hne hopen ht (by omega)).mpr hparen, hnear⟩

/-- A directive of a library, a class and an option. -/
theorem directive_parsed_option :
    (ServiceGestaltLoader.serviceCalls id .ok ([], ['l', ':', 'c', ' ', '-', 'v']) =
        [([], ⟨['l'], ['c'], trimString ['-', 'v'] ' '⟩)] ∧
      ServiceGestaltLoader.serviceCalls id .ok ([], ['l', ':', 'c', '(', ')', ' ', '-', 'v']) =
        [([], ⟨['l'], ['c'], trimString ['-', 'v'] ' '⟩)]) ↔
      (['l'] : Text).length + 1 < 2 ^ 31 ∧ (['c'] : Text).length < 2 ^ 31 ∧
        (trimString ['-', 'v'] ' ' ≠ [] → (['c'] : Text).length + 2 < 2 ^ 31 ∧ ParenHarmless ['c'] ['-', 'v']) :=
  @directive_parsed_iff ['l'] ['c'] ['-', 'v'] (by decide) (by decide) (by decide) (by decide) (by decide) (by decide)
    (by decide) id _ _ rfl rfl [] .ok

/-- With a `)` in the parameters, what comes before it is lost. -/
theorem directive_cut : ¬ ∀ lib cls params args : Text, trimString lib ' ' = lib → lib ≠ [] → ':' ∉ lib → Plain cls →
    cls ≠ [] → (∀ c ∈ cls, c ≠ ':' ∧ c ≠ '(' ∧ c ≠ ')') → args = lib ++ ':' :: (cls ++ ' ' :: params) →
      ServiceGestaltLoader.serviceCalls id .ok ([], args) = [([], ⟨lib, cls, trimString params ' '⟩)] := by
  intro h
  have hcalls : ServiceGestaltLoader.serviceCalls id .ok ([], ['l', ':', 'c', ' ', '(', 'a', ')', ' ', 'b']) =
      [([], ⟨['l'], ['c'], ['b']⟩)] := by decide +kernel
  have hplain : Plain ['c'] := by decide
  have htrim : trimString ['l'] ' ' = ['l'] := by decide
  have hclaimed : ServiceGestaltLoader.serviceCalls id .ok ([], ['l', ':', 'c', ' ', '(', 'a', ')', ' ', 'b']) =
      [([], ⟨['l'], ['c'], trimString ['(', 'a', ')', ' ', 'b'] ' '⟩)] :=
    h ['l'] ['c'] ['(', 'a', ')', ' ', 'b'] _ htrim (by decide) (by decide) hplain (by decide) (by simp) rfl
  exact absurd (hcalls.symm.trans hclaimed) (by decide)

end Parse

end Lasagne.Daf
