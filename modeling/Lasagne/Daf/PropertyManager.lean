import Lasagne.Trans.Run
import Lasagne.Trans.ReadThrough
import Lasagne.Trans.KeyedList
import Lasagne.Daf.Configurator
import Lasagne.Daf.ExpansionCycle

/-!
# Lasagne.Daf.PropertyManager — the properties of a process over a run of calls

The map is read, written and listed by whoever comes; a key that it does not have is taken from the environment by the
first one who asks for it, or for a property that refers to it, and the environment may change between the calls.

* `holds_run` : a key has the value that it was last given, or one that the environment had for it since;
* `get_property_answers` : what `get_property` comes to, by what was done to its key before;
* `list_properties_lists` : all that was there is listed, once, in the order of the alphabet.
-/

namespace Lasagne.Daf

open Lasagne.Trans

/-! ## The model -/

/-- `strcasecmp(r.first, l.first) > 0`. -/
def alphabetical (l r : Text × Text) : Bool := decide (l.1.map Char.toLower < r.1.map Char.toLower)

namespace PropertyMap

variable (m : PropertyMap)

/-- `set_property`, with what it returns. -/
def setProperty (ident value : Text) : Except PropertyError ℤ × PropertyMap :=
  let key := trimString ident ' '
  if key = [] then (.error .illegalProperty, m)
  else
    let (m, rc) := m.loadProperty key (trimString value ' ')
    (.ok rc, m)

/-- `del_property`. -/
def delProperty (ident : Text) : Except PropertyError Unit × PropertyMap :=
  let key := trimString ident ' '
  if key = [] then (.error .illegalProperty, m) else (.ok (), m.filter (·.1 ≠ key))

/-- Where an iterator at the key `it` is after `++`, and where `begin()` is: the map is in the order of its keys. -/
def next (it : Option Text) : Option (Text × Text) :=
  ((m.map Prod.fst).filter fun key => it.all (· < key)).min?.bind fun key => (m.lookup key).map (key, ·)

end PropertyMap

namespace Host

variable (host : Host)

/-- `get_property` with a value for the case that there is none, or an empty one. -/
def getPropertyOr (fuel : ℕ) (m : PropertyMap) (ident defaultVal : Text) (useEnv : Bool) :
    Option (Text × PropertyMap) :=
  match host.getProperty fuel m ident useEnv with
  | none => none
  | some (.ok (c :: val), m) => some (c :: val, m)
  | some (_, m) => host.formatArgs fuel m defaultVal true true

/-- The loop of `list_properties` over the repository's own map, to which the formatting may add. -/
def listLoop : ℕ → PropertyMap → Option Text → Option (List (Text × Text) × PropertyMap)
  | 0, _, _ => none
  | fuel + 1, m, it =>
    match m.next it with
    | none => some ([], m)
    | some (key, val) =>
      match host.formatArgs fuel m val true true with
      | none => none
      | some (text, m) => (listLoop fuel m (some key)).map fun (list, m) => ((key, text) :: list, m)

/-- `list_properties`; `sort` leaves in their order what the predicate does not tell apart. -/
def listProperties (fuel : ℕ) (m : PropertyMap) : Option (List (Text × Text) × PropertyMap) :=
  (host.listLoop fuel m none).map fun (list, m) => (list.insertionSort fun l r => !alphabetical r l, m)

end Host

namespace PropertyManager

/-- The calls. -/
inductive Call
  | get (ident : Text) (useEnv : Bool)
  | getOr (ident defaultVal : Text) (useEnv : Bool)
  | set (ident value : Text)
  | del (ident : Text)
  | list
  deriving DecidableEq, Repr

/-- What a call returns or throws. -/
inductive Answer
  | text (val : Text)
  | code (rc : ℤ)
  | deleted
  | listed (list : List (Text × Text))
  | thrown (error : PropertyError)
  deriving DecidableEq, Repr

def call (host : Host) (fuel : ℕ) (m : PropertyMap) : Call → Option (Answer × PropertyMap)
  | .get ident useEnv =>
    (host.getProperty fuel m ident useEnv).map fun (r, m) =>
      match r with
      | .ok val => (.text val, m)
      | .error error => (.thrown error, m)
  | .getOr ident defaultVal useEnv =>
    (host.getPropertyOr fuel m ident defaultVal useEnv).map fun (val, m) => (.text val, m)
  | .set ident value =>
    match m.setProperty ident value with
    | (.ok rc, m) => some (.code rc, m)
    | (.error error, m) => some (.thrown error, m)
  | .del ident =>
    match m.delProperty ident with
    | (.ok (), m) => some (.deleted, m)
    | (.error error, m) => some (.thrown error, m)
  | .list => (host.listProperties fuel m).map fun (list, m) => (.listed list, m)

/-- A call, with the process as it was then, and its answer. -/
structure Event where
  host : Host
  call : Call
  answer : Answer

/-- The repository from `m` on: a call is a step where it comes to an end on the fuel it has. -/
def manager (m : PropertyMap) : Machine PropertyMap (Host × ℕ × Call) Event where
  init := m
  step m a := (call a.1 a.2.1 m a.2.2).map fun (answer, m) => (m, [⟨a.1, a.2.2, answer⟩])

end PropertyManager

/-! ## What calls do to the map -/

namespace PropertyMap

/-- What the map has for each key. -/
def held (m : PropertyMap) (key : Text) : Option Text := m.lookup key

theorem setProperty_cases (m : PropertyMap) (ident value : Text) :
    trimString ident ' ' = [] ∧ m.setProperty ident value = (.error .illegalProperty, m) ∨
      trimString ident ' ' ≠ [] ∧ (trimString value ' ' ≠ [] ∨ m.held (trimString ident ' ') = none) ∧
        m.setProperty ident value = (.ok 0, m.assign (trimString ident ' ') (trimString value ' ')) ∨
      trimString ident ' ' ≠ [] ∧ trimString value ' ' = [] ∧ m.held (trimString ident ' ') ≠ none ∧
        m.setProperty ident value = (.ok (-1), m) := by
  unfold setProperty loadProperty
  by_cases hkey : trimString ident ' ' = []
  · exact .inl ⟨hkey, if_pos hkey⟩
  · by_cases hload : trimString value ' ' ≠ [] ∨ m.lookup (trimString ident ' ') = none
    · exact .inr (.inl ⟨hkey, hload, by rw [if_neg hkey, if_pos hload]⟩)
    · obtain ⟨hvalue, hlookup⟩ := not_or.mp hload
      exact .inr (.inr ⟨hkey, not_not.mp hvalue, hlookup, by rw [if_neg hkey, if_neg hload]⟩)

theorem delProperty_cases (m : PropertyMap) (ident : Text) :
    trimString ident ' ' = [] ∧ m.delProperty ident = (.error .illegalProperty, m) ∨
      trimString ident ' ' ≠ [] ∧ m.delProperty ident = (.ok (), m.filter (·.1 ≠ trimString ident ' ')) := by
  by_cases hkey : trimString ident ' ' = []
  · exact .inl ⟨hkey, if_pos hkey⟩
  · exact .inr ⟨hkey, if_neg hkey⟩

theorem lookup_erase (m : PropertyMap) (key k : Text) :
    (m.filter (·.1 ≠ key)).lookup k = if k = key then none else m.lookup k := by
  by_cases hk : k = key
  · rw [if_pos hk, List.lookup_eq_none_iff]
    intro e he
    have hne : e.1 ≠ key := by simpa using (List.mem_filter.mp he).2
    rw [hk, bne_iff_ne]
    exact hne.symm
  · have hassign := m.lookup_assign key [] k
    rw [assign, List.lookup_cons, if_neg hk, beq_false_of_ne hk] at hassign
    rw [if_neg hk]
    exact hassign

theorem mem_keys_iff (m : PropertyMap) (key : Text) : key ∈ m.map Prod.fst ↔ m.held key ≠ none := by
  rw [held, ne_eq, List.lookup_eq_none_iff, List.mem_map]
  constructor
  · rintro ⟨e, he, rfl⟩ hall
    exact bne_iff_ne.mp (hall e he) rfl
  · intro h
    by_contra hno
    exact h fun e he => bne_iff_ne.mpr fun hkey => hno ⟨e, he, hkey.symm⟩

theorem mem_next_keys (m : PropertyMap) (it : Option Text) (key : Text) :
    key ∈ ((m.map Prod.fst).filter fun key => it.all (· < key)) ↔ m.held key ≠ none ∧ Ahead it key := by
  rw [List.mem_filter, mem_keys_iff]
  cases it with
  | none => simp [Ahead]
  | some i => simp [Ahead]

/-- The iterator goes to the least key that is ahead. -/
theorem next_eq_some {m : PropertyMap} {it : Option Text} {key val : Text} (h : m.next it = some (key, val)) :
    Next m.held it key val := by
  obtain ⟨k, hmin, hval⟩ := Option.bind_eq_some_iff.mp h
  obtain ⟨v, hv, he⟩ := Option.map_eq_some_iff.mp hval
  obtain ⟨rfl, rfl⟩ := Prod.mk.inj he
  obtain ⟨hmem, hleast⟩ := List.min?_eq_some_iff.mp hmin
  refine ⟨((m.mem_next_keys it k).mp hmem).2, fun k' hk' hlt => ?_, hv⟩
  by_contra hheld
  exact absurd (hleast k' ((m.mem_next_keys it k').mpr ⟨hheld, hk'⟩)) (not_le.mpr hlt)

/-- Or there is none. -/
theorem next_eq_none {m : PropertyMap} {it : Option Text} (h : m.next it = none) {k : Text} (hk : Ahead it k) :
    m.held k = none := by
  by_contra hheld
  have hmem := (m.mem_next_keys it k).mpr ⟨hheld, hk⟩
  cases hmin : ((m.map Prod.fst).filter fun key => it.all (· < key)).min? with
  | none =>
    rw [List.min?_eq_none_iff.mp hmin] at hmem
    cases hmem
  | some k' =>
    obtain ⟨hheld', -⟩ := (m.mem_next_keys it k').mp (List.min?_eq_some_iff.mp hmin).1
    obtain ⟨v, hv⟩ := Option.ne_none_iff_exists'.mp hheld'
    rw [next, hmin, Option.bind_some, Option.map_eq_none_iff] at h
    exact absurd (h.symm.trans hv) (by simp)

theorem next_of_least {m : PropertyMap} {it : Option Text} {key val : Text} (h : Next m.held it key val) :
    m.next it = some (key, val) := by
  cases hnext : m.next it with
  | none => exact absurd ((next_eq_none hnext h.ahead).symm.trans h.there) (by simp)
  | some e =>
    obtain ⟨rfl, rfl⟩ := (next_eq_some hnext).unique h
    rfl

end PropertyMap

namespace Host

/-- What the environment has for a key, as it is kept. -/
def given (host : Host) (key : Text) : Option Text :=
  match host.environ.lookup key with
  | some (c :: env) => some (trimString (c :: env) ' ')
  | _ => none

/-- The map is the same, but for keys that it did not have and the environment gave. -/
def Fills (host : Host) (m m' : PropertyMap) : Prop := Filled host.given m.held m'.held

variable {host : Host}

theorem Fills.refl (m : PropertyMap) : host.Fills m m := Filled.refl host.given m.held

/-- Where `get_property` has found a value. -/
theorem value_found {m m' : PropertyMap} {key val : Text} {useEnv sub : Bool}
    (h : host.value m key useEnv = some (val, sub, m')) :
    m.held key = some val ∧ sub = useEnv ∧ m' = m ∨
      m.held key = none ∧ useEnv = true ∧ host.given key = some val ∧ sub = false ∧ m' = m.assign key val := by
  unfold value at h
  unfold PropertyMap.held
  cases hm : m.lookup key with
  | some v =>
    rw [hm] at h
    obtain ⟨rfl, rfl, rfl⟩ : v = val ∧ useEnv = sub ∧ m = m' := by simpa using h
    exact .inl ⟨rfl, rfl, rfl⟩
  | none =>
    rw [hm] at h
    dsimp only at h
    split at h
    · next c env henv =>
      rw [PropertyMap.loadProperty_of_none hm, PropertyMap.lookup_assign, if_pos rfl] at h
      obtain ⟨rfl, rfl, rfl⟩ : trimString (c :: env) ' ' = val ∧ false = sub ∧
          m.assign key (trimString (c :: env) ' ') = m' := by
        simpa using h
      exact .inr ⟨rfl, rfl, by rw [given, henv], rfl, rfl⟩
    · cases h

/-- And where it has found none. -/
theorem value_none_iff {m : PropertyMap} {key : Text} {useEnv : Bool} :
    host.value m key useEnv = none ↔ m.held key = none ∧ (useEnv = true → host.given key = none) := by
  unfold value given PropertyMap.held
  cases hm : m.lookup key with
  | some v => simp
  | none =>
    cases useEnv with
    | false => simp
    | true =>
      cases henv : host.environ.lookup key with
      | none => simp
      | some env =>
        cases env with
        | nil => simp
        | cons c env => simp [PropertyMap.loadProperty_of_none hm, PropertyMap.lookup_assign]

theorem value_fills {m m' : PropertyMap} {key val : Text} {useEnv sub : Bool}
    (h : host.value m key useEnv = some (val, sub, m')) : host.Fills m m' := by
  rcases value_found h with ⟨-, -, rfl⟩ | ⟨hm, -, hgiven, -, rfl⟩
  · exact Fills.refl m'
  · intro k
    rw [PropertyMap.held, PropertyMap.held, PropertyMap.lookup_assign]
    by_cases hk : k = key
    · rw [if_pos hk, hk]
      exact .inr ⟨hm, hgiven.symm⟩
    · rw [if_neg hk]
      exact .inl rfl

/-- Text that is formatted fills the map as the lookups in it do. -/
theorem formatLoop_fills {get : Lookup} (hget : ∀ m ident r, get m ident = some r → host.Fills m r.2) {fuel : ℕ}
    {m : PropertyMap} {arg : Text} {pos : ℕ} {r : Text × PropertyMap} (h : host.formatLoop get fuel m arg pos = some r) :
    host.Fills m r.2 := by
  induction fuel generalizing m arg pos with
  | zero => cases h
  | succ fuel ih =>
    rw [formatLoop] at h
    dsimp only at h
    split_ifs at h
    · obtain rfl := Option.some.inj h
      exact Fills.refl m
    · split at h
      · exact ih h
      · exact ih h
      · split at h
        · cases h
        · next hg => exact (hget _ _ _ hg).trans (ih h)
        · next hg => exact (hget _ _ _ hg).trans (ih h)
    · exact ih h

theorem formatWith_fills {get : Lookup} (hget : ∀ m ident r, get m ident = some r → host.Fills m r.2) {fuel : ℕ}
    {m : PropertyMap} {args : Text} {sub quote : Bool} {r : Text × PropertyMap}
    (h : host.formatWith (host.formatLoop get fuel · · 0) m args sub quote = some r) : host.Fills m r.2 := by
  obtain ⟨rs, hrs, rfl⟩ := Option.map_eq_some_iff.mp h
  exact formatEach_rel Fills.refl Filled.trans (fun _ _ _ => formatLoop_fills hget) hrs

theorem getAt_fills {fuel : ℕ} {m : PropertyMap} {key : Text} {useEnv : Bool}
    {r : Except PropertyError Text × PropertyMap} (h : host.getAt fuel m key useEnv = some r) : host.Fills m r.2 := by
  induction fuel generalizing m key useEnv r with
  | zero => cases h
  | succ fuel ih =>
    rw [getAt] at h
    split at h
    · obtain rfl := Option.some.inj h
      exact Fills.refl m
    · split at h
      · obtain rfl := Option.some.inj h
        exact Fills.refl m
      · next hval =>
        obtain ⟨rs, hrs, rfl⟩ := Option.map_eq_some_iff.mp h
        exact (value_fills hval).trans (formatWith_fills (fun _ _ _ => ih) hrs)

theorem formatArgs_fills {fuel : ℕ} {m : PropertyMap} {args : Text} {sub quote : Bool} {r : Text × PropertyMap}
    (h : host.formatArgs fuel m args sub quote = some r) : host.Fills m r.2 :=
  formatWith_fills (fun _ _ _ => getAt_fills) h

theorem getPropertyOr_fills {fuel : ℕ} {m : PropertyMap} {ident defaultVal : Text} {useEnv : Bool}
    {r : Text × PropertyMap} (h : host.getPropertyOr fuel m ident defaultVal useEnv = some r) : host.Fills m r.2 := by
  unfold getPropertyOr at h
  split at h
  · cases h
  · next hget =>
    obtain rfl := Option.some.inj h
    exact getAt_fills hget
  · next hget => exact (getAt_fills hget).trans (formatArgs_fills h)

variable (host) in
/-- A value is formatted, which leads from one map to the other. -/
def Formats (m : PropertyMap) (val text : Text) (m' : PropertyMap) : Prop :=
  ∃ fuel, host.formatArgs fuel m val true true = some (text, m')

theorem Formats.fills {m m' : PropertyMap} {val text : Text} (h : host.Formats m val text m') : host.Fills m m' := by
  obtain ⟨fuel, h⟩ := h
  exact formatArgs_fills h

theorem Formats.unique {m m₁ m₂ : PropertyMap} {val text text' : Text} (h : host.Formats m val text m₁)
    (h' : host.Formats m val text' m₂) : text = text' ∧ m₁ = m₂ := by
  obtain ⟨fuel, h⟩ := h
  obtain ⟨fuel', h'⟩ := h'
  exact Prod.mk.inj ((formatArgs_steady m val true true).unique h h')

/-- The loop goes over the keys in order, while others come in. -/
theorem listLoop_walk {fuel : ℕ} {m : PropertyMap} {it : Option Text} {r : List (Text × Text) × PropertyMap}
    (h : host.listLoop fuel m it = some r) : Walk PropertyMap.held host.Formats it m r.1 r.2 := by
  induction fuel generalizing m it r with
  | zero => cases h
  | succ fuel ih =>
    rw [listLoop] at h
    split at h
    · next hnext =>
      obtain rfl := Option.some.inj h
      exact .done fun k hk => PropertyMap.next_eq_none hnext hk
    · next hnext =>
      split at h
      · cases h
      · next hformat =>
        obtain ⟨rs, hrs, rfl⟩ := Option.map_eq_some_iff.mp h
        have hrest := ih hrs
        exact .step (PropertyMap.next_eq_some hnext) ⟨fuel, hformat⟩ hrest

/-- And comes to its end on the fuel that the formatting takes. -/
theorem listLoop_of_walk {m m' : PropertyMap} {it : Option Text} {list : List (Text × Text)}
    (hw : Walk PropertyMap.held host.Formats it m list m') :
    ∃ fuel, ∀ fuel' ≥ fuel, host.listLoop fuel' m it = some (list, m') := by
  induction hw with
  | @done it m hnone =>
    refine ⟨1, fun fuel' hfuel => ?_⟩
    obtain ⟨fuel', rfl⟩ := Nat.exists_eq_add_of_le' hfuel
    have hnext : m.next it = none := by
      cases hnext : m.next it with
      | none => rfl
      | some e =>
        have hleast := PropertyMap.next_eq_some hnext
        exact absurd ((hnone _ hleast.ahead).symm.trans hleast.there) (by simp)
    rw [listLoop, hnext]
  | step hnext hvisit _ ih =>
    obtain ⟨fuel₁, hformat⟩ := hvisit
    obtain ⟨fuel₂, hrest⟩ := ih
    refine ⟨max fuel₁ fuel₂ + 1, fun fuel' hfuel => ?_⟩
    obtain ⟨fuel', rfl⟩ := Nat.exists_eq_add_of_le' (Nat.le_of_add_left_le hfuel)
    rw [listLoop, PropertyMap.next_of_least hnext]
    dsimp only
    rw [formatArgs_mono (by omega : fuel₁ ≤ fuel') hformat]
    dsimp only
    rw [hrest fuel' (by omega)]
    rfl

theorem listProperties_fills {fuel : ℕ} {m : PropertyMap} {r : List (Text × Text) × PropertyMap}
    (h : host.listProperties fuel m = some r) : host.Fills m r.2 := by
  obtain ⟨rs, hrs, rfl⟩ := Option.map_eq_some_iff.mp h
  exact (listLoop_walk hrs).filled fun _ _ _ _ => Formats.fills

/-- The keys that there can ever be. -/
def keys (host : Host) (m : PropertyMap) : Finset Text := (m.map Prod.fst ++ host.environ.map Prod.fst).toFinset

theorem mem_keys_of_held {m : PropertyMap} {key : Text} (h : m.held key ≠ none) : key ∈ host.keys m := by
  rw [keys, List.mem_toFinset]
  exact List.mem_append_left _ ((m.mem_keys_iff key).mpr h)

theorem mem_keys_of_given (m : PropertyMap) {key : Text} (h : host.given key ≠ none) : key ∈ host.keys m := by
  rw [keys, List.mem_toFinset]
  refine List.mem_append_right _ ((PropertyMap.mem_keys_iff host.environ key).mpr fun hnone => h ?_)
  rw [given, show host.environ.lookup key = none from hnone]

/-- The listing ends exactly when no value that it comes to goes round. -/
theorem listProperties_ends_iff (hplain : '%' ∉ host.hostname) {m : PropertyMap}
    (hshort : ∀ n, Comes PropertyMap.held host.Formats none m n → host.StaysShort n.1 (host.argv true n.2)) :
    (∃ fuel r, host.listProperties fuel m = some r) ↔
      ∀ n, Comes PropertyMap.held host.Formats none m n → ¬ host.CircularIn n.1 (host.argv true n.2) := by
  have hone : ∀ (m : PropertyMap) val text text' m₁ m₂, host.Formats m val text m₁ → host.Formats m val text' m₂ →
      m₁ = m₂ := fun _ _ _ _ _ _ h h' => (h.unique h').2
  have hfill : ∀ m val text m', host.Formats m val text m' → host.Fills m m' := fun _ _ _ _ => Formats.fills
  have hwalk := walk_iff hfill (fun _ => mem_keys_of_given m)
    (fun _ h => (mem_keys_of_held h : _ ∈ host.keys _)) hone none
  have hvisit : (∀ n, Comes PropertyMap.held host.Formats none m n → ∃ text m', host.Formats n.1 n.2 text m') ↔
      ∀ n, Comes PropertyMap.held host.Formats none m n → ¬ host.CircularIn n.1 (host.argv true n.2) := by
    refine forall_congr' fun n => forall_congr' fun hn => ?_
    rw [← formatArgs_ends_iff hplain (hshort n hn) true]
    constructor
    · rintro ⟨text, m', fuel, h⟩
      exact ⟨fuel, _, h⟩
    · rintro ⟨fuel, ⟨text, m'⟩, h⟩
      exact ⟨text, m', fuel, h⟩
  rw [← hvisit, ← hwalk]
  constructor
  · rintro ⟨fuel, r, h⟩
    obtain ⟨rs, hrs, -⟩ := Option.map_eq_some_iff.mp h
    exact ⟨rs.1, rs.2, listLoop_walk hrs⟩
  · rintro ⟨list, m', hw⟩
    obtain ⟨fuel, hloop⟩ := listLoop_of_walk hw
    exact ⟨fuel, _, Option.map_eq_some_iff.mpr ⟨_, hloop fuel le_rfl, rfl⟩⟩

end Host

namespace PropertyManager

/-! ## The calls of a run -/

/-- What a call can take from the environment, and what it writes. -/
def Event.change (e : Event) : Change Text Text :=
  match e.call, e.answer with
  | .set ident value, .code 0 => .writes (trimString ident ' ') (some (trimString value ' '))
  | .del ident, .deleted => .writes (trimString ident ' ') none
  | .set _ _, _ | .del _, _ => .nothing
  | _, _ => .reads e.host.given

/-- The changes that the events of a run stand for. -/
def changes (tr : List Event) : List (Change Text Text) := tr.map Event.change

theorem call_takes {host : Host} {fuel : ℕ} {m m' : PropertyMap} {c : Call} {a : Answer}
    (h : call host fuel m c = some (a, m')) : (⟨host, c, a⟩ : Event).change.Takes m.held m'.held := by
  cases c with
  | get ident useEnv =>
    obtain ⟨⟨r, m₁⟩, hr, he⟩ := Option.map_eq_some_iff.mp h
    obtain rfl : m₁ = m' := by
      cases r <;> exact congrArg Prod.snd he
    exact Change.takes_reads (Host.getAt_fills hr)
  | getOr ident defaultVal useEnv =>
    obtain ⟨r, hr, he⟩ := Option.map_eq_some_iff.mp h
    obtain rfl : r.2 = m' := congrArg Prod.snd he
    exact Change.takes_reads (Host.getPropertyOr_fills hr)
  | set ident value =>
    rw [call] at h
    rcases m.setProperty_cases ident value with ⟨-, hset⟩ | ⟨-, -, hset⟩ | ⟨-, -, -, hset⟩
    · rw [hset] at h
      obtain ⟨rfl, rfl⟩ := Prod.mk.inj (Option.some.inj h)
      exact Change.takes_nothing m.held
    · rw [hset] at h
      obtain ⟨rfl, rfl⟩ := Prod.mk.inj (Option.some.inj h)
      exact Change.takes_writes (m.lookup_assign _ _)
    · rw [hset] at h
      obtain ⟨rfl, rfl⟩ := Prod.mk.inj (Option.some.inj h)
      exact Change.takes_nothing m.held
  | del ident =>
    rw [call] at h
    rcases m.delProperty_cases ident with ⟨-, hdel⟩ | ⟨-, hdel⟩
    · rw [hdel] at h
      obtain ⟨rfl, rfl⟩ := Prod.mk.inj (Option.some.inj h)
      exact Change.takes_nothing m.held
    · rw [hdel] at h
      obtain ⟨rfl, rfl⟩ := Prod.mk.inj (Option.some.inj h)
      exact Change.takes_writes (m.lookup_erase _)
  | list =>
    obtain ⟨r, hr, he⟩ := Option.map_eq_some_iff.mp h
    obtain rfl : r.2 = m' := congrArg Prod.snd he
    exact Change.takes_reads (Host.listProperties_fills hr)

variable {m₀ m : PropertyMap} {π : List (Taken PropertyMap (Host × ℕ × Call) Event)}

theorem history_of_run (hr : Run (manager m₀) π m) : History m₀.held (changes (events π)) m.held := by
  refine Run.inv (C := fun _ _ => True) (P := fun tr m => History m₀.held (changes tr) m.held) .nil
    (fun tr m a m' es _ h hstep => ?_) hr fun _ _ => trivial
  obtain ⟨⟨answer, m₁⟩, hcall, he⟩ := Option.map_eq_some_iff.mp hstep
  obtain ⟨rfl, rfl⟩ := Prod.mk.inj he
  rw [changes, List.map_append]
  exact h.snoc (call_takes hcall)

/-- What a key may have after the events, where it had `v₀` before them: the value that it was given last; or it had
none then, or never, and has what the environment had for it when somebody asked. -/
def MayHold (tr : List Event) (v₀ : Option Text) (key : Text) (v : Option Text) : Prop :=
  v = (lastWrite (changes tr) key).getD v₀ ∨
    (lastWrite (changes tr) key).getD v₀ = none ∧ ∃ c ∈ sinceWrite (changes tr) key, v = c.source key

theorem holds_run (hr : Run (manager m₀) π m) (key : Text) :
    MayHold (events π) (m₀.held key) key (m.held key) :=
  (history_of_run hr).stands key

/-- `A` is set to 5. -/
def setA : Event := ⟨Host.bareHost, .set [' ', 'A'] ['5'], .code 0⟩

/-- `B` is not there, and the default is taken. -/
def getOrB : Event := ⟨Host.bareHost, .getOr ['B'] ['d'] true, .text ['d']⟩

def delA : Event := ⟨Host.bareHost, .del ['A'], .deleted⟩

/-- The environment has a value for `A` by now. -/
def getA : Event := ⟨{ Host.bareHost with environ := [(['A'], ['7'])] }, .get ['A'] true, .text ['7']⟩

theorem holds_run_environment : ∃ π m, Run (manager []) π m ∧ events π = [setA, getOrB, delA, getA] ∧
    MayHold (events π) none ['A'] (some ['7']) :=
  have hset : Run (manager []) ([] ++ [⟨[], (setA.host, 9, setA.call), [setA]⟩]) [(['A'], ['5'])] := .snoc .start rfl
  have hr : Run (manager []) ([] ++ [⟨[], (setA.host, 9, setA.call), [setA]⟩] ++
      [⟨[(['A'], ['5'])], (getOrB.host, 9, getOrB.call), [getOrB]⟩] ++
      [⟨[(['A'], ['5'])], (delA.host, 9, delA.call), [delA]⟩] ++
      [⟨[], (getA.host, 9, getA.call), [getA]⟩]) [(['A'], ['7'])] := .snoc (.snoc (.snoc hset rfl) rfl) rfl
  ⟨_, _, hr, rfl, holds_run hr ['A']⟩

/-- `get_property` comes to an end exactly if what it formats does not go round.  It throws where the key is blank, or
there is no value for it, and changes nothing then; and else it formats the value that was there already, with the map as
it was, or the one that the environment has, which the map has been given first. -/
theorem get_property_answers (hr : Run (manager m₀) π m) (host : Host) (ident : Text) (useEnv : Bool) :
    ('%' ∉ host.hostname → host.ShortProperty m id ident useEnv →
      ((∃ fuel r, host.getProperty fuel m ident useEnv = some r) ↔ ¬ host.CircularProperty m id ident useEnv)) ∧
    ∀ fuel r m', host.getProperty fuel m ident useEnv = some (r, m') →
      (r = .error .illegalProperty ↔ trimString ident ' ' = []) ∧
        (r = .error .notFound ↔ trimString ident ' ' ≠ [] ∧ m.held (trimString ident ' ') = none ∧
          (useEnv = true → host.given (trimString ident ' ') = none)) ∧
        (∀ error, r = .error error → m' = m) ∧
        MayHold (events π) (m₀.held (trimString ident ' ')) (trimString ident ' ') (m.held (trimString ident ' ')) ∧
        ∀ text, r = .ok text → ∃ val, m'.held (trimString ident ' ') = some val ∧
          (m.held (trimString ident ' ') = some val ∧
              (∃ fuel', host.formatArgs fuel' m val useEnv true = some (text, m')) ∨
            m.held (trimString ident ' ') = none ∧ useEnv = true ∧ host.given (trimString ident ' ') = some val ∧
              ∃ fuel', host.formatArgs fuel' (m.assign (trimString ident ' ') val) val false true = some (text, m')) := by
  refine ⟨fun hplain => Host.getProperty_ends_iff hplain, fun fuel r m' h => ?_⟩
  have hheld := holds_run hr (trimString ident ' ')
  unfold Host.getProperty at h
  generalize trimString ident ' ' = key at *
  cases fuel with
  | zero => cases h
  | succ fuel =>
    rw [Host.getAt] at h
    split at h
    · next hkey =>
      obtain ⟨rfl, rfl⟩ := Prod.mk.inj (Option.some.inj h)
      exact ⟨iff_of_true rfl hkey, iff_of_false (by simp) fun hno => hno.1 hkey, fun _ _ => rfl, hheld, by simp⟩
    · next hkey =>
      split at h
      · next hval =>
        obtain ⟨rfl, rfl⟩ := Prod.mk.inj (Option.some.inj h)
        exact ⟨iff_of_false (by simp) hkey, iff_of_true rfl ⟨hkey, Host.value_none_iff.mp hval⟩, fun _ _ => rfl, hheld,
          by simp⟩
      · next val sub m₁ hval =>
        obtain ⟨⟨text, m₂⟩, hformat, he⟩ := Option.map_eq_some_iff.mp h
        obtain ⟨rfl, rfl⟩ := Prod.mk.inj he
        have hthere : ¬ (key ≠ [] ∧ m.held key = none ∧ (useEnv = true → host.given key = none)) := by
          rintro ⟨-, hnone⟩
          rw [Host.value_none_iff.mpr hnone] at hval
          cases hval
        refine ⟨iff_of_false (by simp) hkey, iff_of_false (by simp) hthere, by simp, hheld, fun text' htext => ?_⟩
        obtain rfl : text = text' := by simpa using htext
        have hfills : host.Fills m₁ m₂ := Host.formatArgs_fills hformat
        rcases Host.value_found hval with ⟨hlookup, rfl, rfl⟩ | ⟨hnone, huse, hgiven, rfl, rfl⟩
        · exact ⟨val, hfills.some hlookup, .inl ⟨hlookup, fuel, hformat⟩⟩
        · have hassign : (m.assign key val).held key = some val := by
            rw [PropertyMap.held, PropertyMap.lookup_assign, if_pos rfl]
          exact ⟨val, hfills.some hassign, .inr ⟨hnone, huse, hgiven, fuel, hformat⟩⟩

/-- It is read. -/
theorem get_property_answers_set : ∃ π, Run (manager []) π [(['A'], ['5'])] ∧
    ¬ Host.bareHost.CircularProperty [(['A'], ['5'])] id ['A'] true ∧
    ∃ fuel' m', Host.bareHost.formatArgs fuel' [(['A'], ['5'])] ['5'] true true = some (['5'], m') := by
  have hr : Run (manager []) ([] ++ [⟨[], (setA.host, 9, setA.call), [setA]⟩]) [(['A'], ['5'])] := .snoc .start rfl
  have h : Host.bareHost.getProperty 9 [(['A'], ['5'])] ['A'] true = some (.ok ['5'], [(['A'], ['5'])]) := rfl
  have hshort : Host.bareHost.ShortProperty [(['A'], ['5'])] id ['A'] true := by
    intro val sub own' hval
    have hvalue : Host.bareHost.value [(['A'], ['5'])] (trimString ['A'] ' ') true =
      some (['5'], true, [(['A'], ['5'])]) := rfl
    rw [hvalue] at hval
    cases hval
    exact Host.staysShort_of_notMem _ (by decide)
  obtain ⟨hends, hanswers⟩ := get_property_answers hr Host.bareHost ['A'] true
  refine ⟨_, hr, (hends (by decide) hshort).mp ⟨9, _, h⟩, ?_⟩
  obtain ⟨val, -, ⟨hval, fuel', hformat⟩ | ⟨hnone, -⟩⟩ := (hanswers 9 _ _ h).2.2.2.2 _ rfl
  · obtain rfl : ['5'] = val := Option.some.inj hval
    exact ⟨fuel', _, hformat⟩
  · cases hnone

/-! ## The list -/

/-- By the alphabet, and in the order of the map what the alphabet does not tell apart. -/
def InOrder (x y : Text × Text) : Prop :=
  x.1.map Char.toLower < y.1.map Char.toLower ∨ x.1.map Char.toLower = y.1.map Char.toLower ∧ x.1 < y.1

theorem inOrder_of_sort {list : List (Text × Text)} (h : list.Pairwise fun x y => x.1 < y.1) :
    (list.insertionSort fun l r => !alphabetical r l).Pairwise InOrder := by
  have htotal : ∀ a b, (!alphabetical b a) = true ∨ (!alphabetical a b) = true := by
    intro a b
    simpa [alphabetical] using le_total (a.1.map Char.toLower) (b.1.map Char.toLower)
  have htrans : ∀ a b c, (!alphabetical b a) = true → (!alphabetical c b) = true → (!alphabetical c a) = true := by
    intro a b c hab hbc
    simp only [alphabetical, Bool.not_eq_true', decide_eq_false_iff_not, not_lt] at *
    exact hab.trans hbc
  refine (KeyedList.insertionSort_stable htotal htrans h).imp fun {x y} hxy => ?_
  simp only [alphabetical, Bool.not_eq_true', decide_eq_false_iff_not, not_lt] at hxy
  rcases hxy.1.lt_or_eq with hlt | heq
  · exact .inl hlt
  · exact .inr ⟨heq, hxy.2 heq.ge⟩

/-- The listing comes to an end exactly if no value that it comes to goes round.  All that was there is listed, in order
and once, and nothing else but what the environment has given meanwhile; with every key is what its value was formatted
to, with the map as the listing had it then. -/
theorem list_properties_lists (host : Host) (m : PropertyMap) :
    ('%' ∉ host.hostname →
      (∀ n, Comes PropertyMap.held host.Formats none m n → host.StaysShort n.1 (host.argv true n.2)) →
      ((∃ fuel r, host.listProperties fuel m = some r) ↔
        ∀ n, Comes PropertyMap.held host.Formats none m n → ¬ host.CircularIn n.1 (host.argv true n.2))) ∧
    ∀ fuel list m', host.listProperties fuel m = some (list, m') →
      list.Pairwise InOrder ∧ (∀ key, m.held key ≠ none → key ∈ list.map Prod.fst) ∧
        ∀ x ∈ list, ∃ val m₁ m₂, (m.held x.1 = some val ∨ m.held x.1 = none ∧ host.given x.1 = some val) ∧
          Comes PropertyMap.held host.Formats none m (m₁, val) ∧ m₁.held x.1 = some val ∧
          host.Fills m m₁ ∧ host.Formats m₁ val x.2 m₂ ∧ host.Fills m₂ m' ∧ m'.held x.1 = some val := by
  refine ⟨fun hplain => Host.listProperties_ends_iff hplain, fun fuel list m' h => ?_⟩
  obtain ⟨⟨walked, m₂⟩, hloop, he⟩ := Option.map_eq_some_iff.mp h
  obtain ⟨rfl, rfl⟩ := Prod.mk.inj he
  have hwalk := Host.listLoop_walk hloop
  have hfill : ∀ m val text m', host.Formats m val text m' → host.Fills m m' := fun _ _ _ _ => Host.Formats.fills
  refine ⟨inOrder_of_sort hwalk.sorted, fun key hkey => ?_, fun x hx => ?_⟩
  · have hmem := hwalk.complete hfill (fun i hi => by cases hi) hkey
    obtain ⟨x, hx, rfl⟩ := List.mem_map.mp hmem
    exact List.mem_map_of_mem ((List.mem_insertionSort _).mpr hx)
  · obtain ⟨m₁, m₃, val, hbefore, hval, hcomes, hformat, hafter⟩ :=
      hwalk.visited hfill ((List.mem_insertionSort _).mp hx)
    refine ⟨val, m₁, m₃, ?_, hcomes, hval, hbefore, hformat, hafter, hafter.some (hformat.fills.some hval)⟩
    rcases hbefore x.1 with hx' | ⟨hnone, hx'⟩
    · exact .inl (hx'.symm.trans hval)
    · exact .inr ⟨hnone, hx'.symm.trans hval⟩

/-- A host with `E` in its environment. -/
def listHost : Host := { Host.bareHost with environ := [(['E'], ['7'])] }

/-- `C` refers to `E`, which comes into the map when `C` is formatted. -/
theorem list_properties_lists_three :
    ∃ fuel m', listHost.listProperties fuel [(['b'], ['2']), (['C'], ['%', 'p', '{', 'E', '}'])] =
        some ([(['b'], ['2']), (['C'], ['7']), (['E'], ['7'])], m') ∧
      [(['b'], ['2']), (['C'], ['7']), (['E'], ['7'])].Pairwise InOrder ∧ m'.held ['E'] = some ['7'] := by
  have h : listHost.listProperties 9 [(['b'], ['2']), (['C'], ['%', 'p', '{', 'E', '}'])] =
      some ([(['b'], ['2']), (['C'], ['7']), (['E'], ['7'])],
        [(['E'], ['7']), (['b'], ['2']), (['C'], ['%', 'p', '{', 'E', '}'])]) := by decide +kernel
  obtain ⟨horder, -⟩ := (list_properties_lists listHost _).2 9 _ _ h
  exact ⟨9, _, h, horder, rfl⟩

end PropertyManager

end Lasagne.Daf
