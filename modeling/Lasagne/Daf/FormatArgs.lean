import Lasagne.Trans.Fuel
import Lasagne.Daf.TrimString
import Mathlib.Data.List.Induction

/-!
# Lasagne.Daf.FormatArgs — `DAF::format_args` and `PropertyManager::get_property`

The two call each other: a `%p{KEY}` in the text that `format_args` goes over is replaced by the property `KEY`, and a
property is what `format_args` makes of its value.  Neither is bounded by anything it is given, so both run on fuel here,
and give back `none` when it is used up.  The loop edits the argument where it stands, and keeps where it is in an `int`.

* `formatLoop_mono`, `getAt_mono` : more fuel changes no result.
-/

namespace Lasagne.Daf

open Lasagne.Trans

/-! ## The model -/

/-- A `std::string`. -/
abbrev Text := List Char

/-- `property_map_type`. -/
abbrev PropertyMap := List (Text × Text)

/-- `(*this)[key] = val`. -/
def PropertyMap.assign (m : PropertyMap) (key val : Text) : PropertyMap := (key, val) :: m.filter (·.1 ≠ key)

/-- `Configurator::load_property`: no empty value replaces another one. -/
def PropertyMap.loadProperty (m : PropertyMap) (key val : Text) : PropertyMap × ℤ :=
  if val ≠ [] ∨ m.lookup key = none then (m.assign key val, 0) else (m, -1)

/-- What the process is run on, for the length of one call: the two ways of filling an `ACE_ARGV`, the environment, and
the texts that the formats stand for.  A number and a time have no `%` in them. -/
structure Host where
  /-- `ACE_ARGV(args, substitute_env_args)` -/
  argv : Bool → Text → List Text
  /-- `ACE_ARGV(substitute_env_args)`, each of the texts added to it with quotes -/
  added : Bool → List Text → List Text
  environ : List (Text × Text)
  hostname : Text
  threadId : Text
  processId : Text
  gmTime : Bool → Text
  localTime : Bool → Text
  utcTime : Text
  threadId_plain : '%' ∉ threadId
  processId_plain : '%' ∉ processId
  gmTime_plain : ∀ verbose, '%' ∉ gmTime verbose
  localTime_plain : ∀ verbose, '%' ∉ localTime verbose
  utcTime_plain : '%' ∉ utcTime

/-- What is thrown: both are `IllegalArgumentException`s. -/
inductive PropertyError
  | notFound
  | illegalProperty
  deriving DecidableEq, Repr

/-- `int(arg.find_first_of(c, pos))`. -/
def intFind (arg : Text) (c : Char) (pos : ℕ) : ℤ :=
  if c ∈ arg.drop pos then toInt (pos + (arg.drop pos).idxOf c) else -1

/-- `arg[pos]`: behind the last character there is a null. -/
def charAt (arg : Text) (pos : ℕ) : Char := arg.getD pos '\x00'

/-- `arg.erase(pos, n)`. -/
def eraseAt (arg : Text) (pos n : ℕ) : Text := arg.take pos ++ arg.drop (pos + n)

/-- `arg.insert(pos, text)`. -/
def insertAt (arg : Text) (pos : ℕ) (text : Text) : Text := arg.take pos ++ (text ++ arg.drop pos)

/-- What the `switch` comes to. -/
inductive Switched
  /-- `continue`, with the argument and `pos` -/
  | next (arg : Text) (pos : ℕ)
  /-- `break`, with `text` in `mod_arg` -/
  | put (text arg : Text) (pos : ℕ)
  /-- `get_property(prop)` is called, which may throw -/
  | ask (prop : Text) (plen pos : ℕ)
  deriving DecidableEq, Repr

/-- `pos -= 2; arg.erase(pos, 2).insert(pos, mod_arg.str())`. -/
def putIn (text arg : Text) (pos : ℕ) : Text := insertAt (eraseAt arg (pos - 2) 2) (pos - 2) text

section Model

variable (host : Host)

/-- The `switch`, entered with `pos` behind a `%`. -/
def Host.switch (arg : Text) (pos : ℕ) : Switched :=
  let c := charAt arg pos
  let pos := pos + 1
  match c with
  | '%' => .next (eraseAt arg (pos - 1) 1) (pos - 1)
  | 'H' => .put host.hostname arg pos
  | 't' => .put host.threadId arg pos
  | 'P' => .put host.processId arg pos
  | 'p' =>
    if toInt arg.length > pos ∧ charAt arg pos = '{' then
      let lpos := intFind arg '}' pos
      if lpos > pos then
        let plen := (lpos - 1 - pos).toNat
        .ask ((arg.drop (pos + 1)).take plen) plen pos
      else .put [] arg pos
    else .put [] arg pos
  | 'D' =>
    if toInt arg.length > pos then
      match charAt arg pos with
      | 'g' => .put (host.gmTime false) (eraseAt arg pos 1) pos
      | 'G' => .put (host.gmTime true) (eraseAt arg pos 1) pos
      | 'l' => .put (host.localTime false) (eraseAt arg pos 1) pos
      | 'L' => .put (host.localTime true) (eraseAt arg pos 1) pos
      | _ => .put [] arg pos
    else .put [] arg pos
  | 'T' =>
    if toInt arg.length > pos then
      match charAt arg pos with
      | 'u' => .put host.utcTime (eraseAt arg pos 1) pos
      | _ => .put [] arg pos
    else .put [] arg pos
  | _ => .next arg pos

/-- `DAF::parse_argv`. -/
def parseArgv (argv : List Text) (quoteArgs : Bool) : Text :=
  argv.foldl (fun params arg =>
    let arg := trimString arg ' '
    if arg = [] then params
    else
      let params := if params = [] then params else params ++ [' ']
      params ++ if quoteArgs ∧ findFirstOf arg ' ' > 0 then '\'' :: arg ++ ['\''] else arg) []

/-- `DAF::parse_args`. -/
def Host.parseArgs (arg : Text) (substituteEnvArgs : Bool) (quoteArgs : Bool) : Text :=
  parseArgv (host.argv substituteEnvArgs arg) quoteArgs

/-- What a lookup comes to, with the map after it; none if it does not come to an end on the fuel it has. -/
abbrev Lookup := PropertyMap → Text → Option (Except PropertyError Text × PropertyMap)

/-- The loop over one argument; `get` is `DAF::get_property`. -/
def Host.formatLoop (get : Lookup) : ℕ → PropertyMap → Text → ℕ → Option (Text × PropertyMap)
  | 0, _, _, _ => none
  | fuel + 1, m, arg, pos =>
    let found := intFind arg '%' pos
    if found < 0 then some (arg, m)
    else
      let pos := found.toNat
      if toInt arg.length > pos then
        match host.switch arg (pos + 1) with
        | .next arg pos => formatLoop get fuel m arg pos
        | .put text arg pos => formatLoop get fuel m (putIn text arg pos) (pos - 2)
        | .ask prop plen pos =>
          match get m (trimString prop ' ') with
          | none => none
          | some (.ok val, m) =>
            formatLoop get fuel m (putIn (trimString val '\'') (eraseAt arg pos (plen + 2)) pos) (pos - 2)
          -- thrown before anything is in `mod_arg`
          | some (.error _, m) => formatLoop get fuel m (putIn [] arg pos) (pos - 2)
      -- `pos++` has been done in the condition
      else formatLoop get fuel m arg (pos + 1)

/-- The loop over the arguments. -/
def formatEach (loop : PropertyMap → Text → Option (Text × PropertyMap)) :
    PropertyMap → List Text → Option (List Text × PropertyMap)
  | m, [] => some ([], m)
  | m, arg :: args =>
    match loop m arg with
    | none => none
    | some (text, m) => (formatEach loop m args).map fun (texts, m) => (text :: texts, m)

/-- `DAF_ARGV::add` of every text that is not empty, and `parse_argv` of them all. -/
def Host.gather (texts : List Text) (substituteEnvArgs quoteArgs : Bool) : Text :=
  let list := (texts.filter (· ≠ [])).flatMap fun text =>
    (host.added substituteEnvArgs [text]).map (trimString · ' ')
  parseArgv (host.added substituteEnvArgs list) quoteArgs

def Host.formatWith (loop : PropertyMap → Text → Option (Text × PropertyMap)) (m : PropertyMap) (args : Text)
    (substituteEnvArgs quoteArgs : Bool) : Option (Text × PropertyMap) :=
  (formatEach loop m (host.argv substituteEnvArgs args)).map fun (texts, m) =>
    (host.gather texts substituteEnvArgs quoteArgs, m)

/-- The value that `get_property` has formatted, whether with the environment, and the map after it has been found: the
environment is asked only for a key that the map does not have, and what it gives is kept there. -/
def Host.value (m : PropertyMap) (key : Text) (useEnv : Bool) : Option (Text × Bool × PropertyMap) :=
  match m.lookup key with
  | some val => some (val, useEnv, m)
  | none =>
    match useEnv, host.environ.lookup key with
    | true, some (c :: env) =>
      let m := (m.loadProperty key (trimString (c :: env) ' ')).1
      (m.lookup key).map fun val => (val, false, m)
    | _, _ => none

/-- The repository's `get_property`, of a key that has been trimmed. -/
def Host.getAt : ℕ → PropertyMap → Text → Bool → Option (Except PropertyError Text × PropertyMap)
  | 0, _, _, _ => none
  | fuel + 1, m, key, useEnv =>
    if key = [] then some (.error .illegalProperty, m)
    else
      match host.value m key useEnv with
      | none => some (.error .notFound, m)
      | some (val, useEnv, m) =>
        (host.formatWith (host.formatLoop (fun m ident => getAt fuel m (trimString ident ' ') true) fuel · · 0) m val
          useEnv true).map fun (text, m) => (.ok text, m)

/-- `DAF::get_property`. -/
def Host.getProperty (fuel : ℕ) (m : PropertyMap) (ident : Text) (useEnv : Bool) :
    Option (Except PropertyError Text × PropertyMap) :=
  host.getAt fuel m (trimString ident ' ') useEnv

/-- As `format_args` calls it. -/
def Host.look (fuel : ℕ) : Lookup := fun m ident => host.getProperty fuel m ident true

/-- `DAF::format_args`. -/
def Host.formatArgs (fuel : ℕ) (m : PropertyMap) (args : Text) (substituteEnvArgs quoteArgs : Bool) :
    Option (Text × PropertyMap) :=
  host.formatWith (host.formatLoop (host.look fuel) fuel · · 0) m args substituteEnvArgs quoteArgs

/-- `get_property` of a manager with a map of its own: what its values refer to is still looked up in the repository. -/
def Host.getOwnProperty (fuel : ℕ) (own m : PropertyMap) (ident : Text) (useEnv : Bool) :
    Option (Except PropertyError Text × PropertyMap × PropertyMap) :=
  let key := trimString ident ' '
  if key = [] then some (.error .illegalProperty, own, m)
  else
    match host.value own key useEnv with
    | none => some (.error .notFound, own, m)
    | some (val, useEnv, own) =>
      (host.formatArgs fuel m val useEnv true).map fun (text, m) => (.ok text, own, m)

end Model

/-- A host without an environment; an argument without blanks or quotes is one token. -/
def Host.bareHost : Host where
  argv _ args := if args = [] then [] else [args]
  added _ texts := texts
  environ := []
  hostname := ['h']
  threadId := ['1']
  processId := ['2']
  gmTime _ := ['3']
  localTime _ := ['4']
  utcTime := ['5']
  threadId_plain := by decide
  processId_plain := by decide
  gmTime_plain := by decide
  localTime_plain := by decide
  utcTime_plain := by decide

/-! ## The texts -/

theorem Tidy.quoted {s : Text} (h : Tidy s) (hs : s ≠ []) : Tidy ('\'' :: s ++ ['\'']) := by
  have hquote : Tidy ['\''] := Tidy.singleton (by decide)
  exact (hquote.append h (by simp) hs).append hquote (by simp) (by simp)

/-- What is put together out of arguments has no blank at the ends. -/
theorem parseArgv_tidy (argv : List Text) (quoteArgs : Bool) : Tidy (parseArgv argv quoteArgs) := by
  unfold parseArgv
  induction argv using List.reverseRecOn with
  | nil => exact Tidy.nil
  | append_singleton argv arg ih =>
    rw [List.foldl_append, List.foldl_cons, List.foldl_nil]
    dsimp only
    by_cases harg : trimString arg ' ' = []
    · rw [if_pos harg]
      exact ih
    · rw [if_neg harg]
      have htidy : Tidy (if quoteArgs ∧ findFirstOf (trimString arg ' ') ' ' > 0 then
          '\'' :: trimString arg ' ' ++ ['\''] else trimString arg ' ') := by
        split
        · exact (trimString_tidy arg ' ').quoted harg
        · exact trimString_tidy arg ' '
      have hne : (if quoteArgs ∧ findFirstOf (trimString arg ' ') ' ' > 0 then
          '\'' :: trimString arg ' ' ++ ['\''] else trimString arg ' ') ≠ [] := by
        split
        · simp
        · exact harg
      split
      · next hnil => rw [hnil, List.nil_append]; exact htidy
      · next hparams =>
        rw [List.append_assoc]
        exact ih.append_space htidy hparams hne

/-! ## The map -/

namespace PropertyMap

theorem lookup_assign (m : PropertyMap) (key val k : Text) :
    (m.assign key val).lookup k = if k = key then some val else m.lookup k := by
  unfold assign
  rw [List.lookup_cons]
  by_cases hk : k = key
  · simp [hk]
  · have hbeq : ∀ e : Text, e = key → (k == e) = false := by
      rintro e rfl
      exact beq_false_of_ne hk
    rw [if_neg hk, hbeq key rfl]
    dsimp only
    induction m with
    | nil => rfl
    | cons e m ih =>
      by_cases he : e.1 = key
      · rw [List.filter_cons_of_neg (by simpa using he), ih, List.lookup_cons, hbeq e.1 he]
      · rw [List.filter_cons_of_pos (by simpa using he), List.lookup_cons, List.lookup_cons, ih]

theorem loadProperty_of_none {m : PropertyMap} {key val : Text} (h : m.lookup key = none) :
    m.loadProperty key val = (m.assign key val, 0) := if_pos (Or.inr h)

end PropertyMap

namespace Host

variable {host : Host}

/-- A key that is found is found as it is, or taken over from the environment. -/
theorem value_eq_some {m m' : PropertyMap} {key val : Text} {useEnv sub : Bool}
    (h : host.value m key useEnv = some (val, sub, m')) :
    (m.lookup key = some val ∧ sub = useEnv ∧ m' = m) ∨
      (m.lookup key = none ∧ (host.environ.lookup key).isSome ∧ sub = false ∧ m' = m.assign key val) := by
  unfold value at h
  cases hm : m.lookup key with
  | some v =>
    rw [hm] at h
    simp only [Option.some.injEq, Prod.mk.injEq] at h
    exact Or.inl ⟨by rw [h.1], h.2.1.symm, h.2.2.symm⟩
  | none =>
    rw [hm] at h
    right
    cases henv : host.environ.lookup key with
    | none =>
      rw [henv] at h
      simp at h
    | some env =>
      rw [henv] at h
      cases useEnv with
      | false => simp at h
      | true =>
        cases env with
        | nil => simp at h
        | cons c env =>
          simp only [PropertyMap.loadProperty_of_none hm, PropertyMap.lookup_assign, ite_true, Option.map_some,
            Option.some.injEq, Prod.mk.injEq] at h
          obtain ⟨rfl, rfl, rfl⟩ := h
          exact ⟨rfl, rfl, rfl, rfl⟩

/-! ## The map on the way -/

/-- What every round does to the map, all of them do. -/
theorem formatEach_rel {S : PropertyMap → PropertyMap → Prop} (hrefl : ∀ m, S m m)
    (htrans : ∀ {m₁ m₂ m₃}, S m₁ m₂ → S m₂ m₃ → S m₁ m₃) {loop : PropertyMap → Text → Option (Text × PropertyMap)}
    (hloop : ∀ m arg r, loop m arg = some r → S m r.2) {m : PropertyMap} {args : List Text}
    {r : List Text × PropertyMap} (h : formatEach loop m args = some r) : S m r.2 := by
  induction args generalizing m r with
  | nil =>
    obtain rfl := Option.some.inj h
    exact hrefl m
  | cons arg args ih =>
    rw [formatEach] at h
    split at h
    · exact absurd h (by simp)
    · next harg =>
      obtain ⟨rs, hrs, rfl⟩ := Option.map_eq_some_iff.mp h
      have hrest := ih hrs
      exact htrans (hloop _ _ _ harg) hrest

/-! ## Fuel -/

/-- More fuel changes no result of the loop. -/
theorem formatLoop_mono {get get' : Lookup} (hget : ∀ m ident r, get m ident = some r → get' m ident = some r)
    {fuel fuel' : ℕ} (hfuel : fuel ≤ fuel') {m : PropertyMap} {arg : Text} {pos : ℕ} {r : Text × PropertyMap}
    (h : host.formatLoop get fuel m arg pos = some r) : host.formatLoop get' fuel' m arg pos = some r := by
  induction fuel generalizing fuel' m arg pos with
  | zero => exact absurd h (by simp [formatLoop])
  | succ fuel ih =>
    obtain ⟨fuel', rfl⟩ := Nat.exists_eq_add_of_le' hfuel
    have hle : fuel ≤ fuel' + fuel := by omega
    change host.formatLoop get' (fuel' + fuel + 1) m arg pos = some r
    rw [formatLoop] at h ⊢
    dsimp only at h ⊢
    split_ifs at h ⊢
    · exact h
    · split at h
      · exact ih hle h
      · exact ih hle h
      · split at h
        · exact absurd h (by simp)
        · next hg => rw [hget _ _ _ hg]; exact ih hle h
        · next hg => rw [hget _ _ _ hg]; exact ih hle h
    · exact ih hle h

theorem formatEach_mono {loop loop' : PropertyMap → Text → Option (Text × PropertyMap)}
    (hloop : ∀ m arg r, loop m arg = some r → loop' m arg = some r) {m : PropertyMap} {args : List Text}
    {r : List Text × PropertyMap} (h : formatEach loop m args = some r) : formatEach loop' m args = some r := by
  induction args generalizing m r with
  | nil => exact h
  | cons arg args ih =>
    rw [formatEach] at h ⊢
    split at h
    · exact absurd h (by simp)
    · next harg =>
      obtain ⟨rs, hrs, hr⟩ := Option.map_eq_some_iff.mp h
      rw [hloop _ _ _ harg]
      dsimp only
      rw [ih hrs, ← hr]
      rfl

theorem formatWith_mono {loop loop' : PropertyMap → Text → Option (Text × PropertyMap)}
    (hloop : ∀ m arg r, loop m arg = some r → loop' m arg = some r) {m : PropertyMap} {args : Text} {sub quote : Bool}
    {r : Text × PropertyMap} (h : host.formatWith loop m args sub quote = some r) :
    host.formatWith loop' m args sub quote = some r := by
  obtain ⟨rs, hrs, hr⟩ := Option.map_eq_some_iff.mp h
  exact Option.map_eq_some_iff.mpr ⟨rs, formatEach_mono hloop hrs, hr⟩

/-- More fuel changes no result of a lookup. -/
theorem getAt_mono {fuel fuel' : ℕ} (hfuel : fuel ≤ fuel') {m : PropertyMap} {key : Text} {useEnv : Bool}
    {r : Except PropertyError Text × PropertyMap} (h : host.getAt fuel m key useEnv = some r) :
    host.getAt fuel' m key useEnv = some r := by
  induction fuel generalizing fuel' m key useEnv r with
  | zero => exact absurd h (by simp [getAt])
  | succ fuel ih =>
    obtain ⟨fuel', rfl⟩ := Nat.exists_eq_add_of_le' hfuel
    have hle : fuel ≤ fuel' + fuel := by omega
    change host.getAt (fuel' + fuel + 1) m key useEnv = some r
    rw [getAt] at h ⊢
    split at h
    · next hkey => rw [if_pos hkey]; exact h
    · next hkey =>
      rw [if_neg hkey]
      split at h
      · exact h
      · obtain ⟨rs, hrs, hr⟩ := Option.map_eq_some_iff.mp h
        exact Option.map_eq_some_iff.mpr
          ⟨rs, formatWith_mono (fun _ _ _ => formatLoop_mono (fun _ _ _ hr => ih hle hr) hle) hrs, hr⟩

theorem getAt_steady (m : PropertyMap) (key : Text) (useEnv : Bool) : Steady fun fuel => host.getAt fuel m key useEnv :=
  fun _ _ hle _ => getAt_mono hle

theorem look_mono {fuel fuel' : ℕ} (hfuel : fuel ≤ fuel') (m : PropertyMap) (ident : Text)
    (r : Except PropertyError Text × PropertyMap) (h : host.look fuel m ident = some r) :
    host.look fuel' m ident = some r := getAt_mono hfuel h

theorem formatArgs_mono {fuel fuel' : ℕ} (hfuel : fuel ≤ fuel') {m : PropertyMap} {args : Text} {sub quote : Bool}
    {r : Text × PropertyMap} (h : host.formatArgs fuel m args sub quote = some r) :
    host.formatArgs fuel' m args sub quote = some r :=
  formatWith_mono (fun _ _ _ => formatLoop_mono (look_mono hfuel) hfuel) h

theorem formatArgs_steady (m : PropertyMap) (args : Text) (sub quote : Bool) :
    Steady fun fuel => host.formatArgs fuel m args sub quote :=
  fun _ _ hle _ => formatArgs_mono hle

end Host

end Lasagne.Daf
