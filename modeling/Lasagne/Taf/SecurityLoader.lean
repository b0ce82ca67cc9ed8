import Lasagne.Daf.ExpansionCycle

/-!
# Lasagne.Taf.SecurityLoader — the security options on their way to the service configuration file

`Loader::init` of a build with SSLIOP: the properties that the table `ssliop_options` names become the arguments of one
directive, which is put together in a buffer of 512 characters.

* `Read` : what the properties of a list of names are, read one after the other;
* `addOptions_of_read`, `read_of_addOptions` : the loop adds the options that have been read, in order;
* `joined_ne` : arguments with the first option are never those without it.
-/

namespace Lasagne.Taf.Security

open Lasagne.Daf

/-! ## The model -/

/-- What the loader is built with, and what it is run on. -/
structure Build where
  host : Host
  /-- `__Lynx__` -/
  lynx : Bool
  /-- `DAF::debug()` -/
  debug : ℤ
  /-- the service configuration file can be opened for writing -/
  opens : Bool
  /-- `SSLIOP_DIRECTIVE`, before its `%s` and after it -/
  directiveBefore : Text
  directiveAfter : Text
  /-- `SSLIOP_RESOURCE`, with the name of the resource factory -/
  resource : Text
  svcConfFilename : Text

/-- `ssliop_options`, without the 0 at its end. -/
def ssliopOptions (lynx : Bool) : List Text :=
  ["SSLAuthenticate".toList, "SSLPrivateKey".toList, "SSLCertificate".toList, "SSLAcceptTimeout".toList,
    "SSLDHparams".toList, "SSLCAfile".toList, "SSLCApath".toList, "SSLrand".toList] ++
  (if lynx then [] else ["SSLServerCipherOrder".toList, "SSLCipherList".toList]) ++
  ["SSLVersionList".toList, "SSLPassword".toList, "SSLCheckHost".toList]

/-- `atoi`. -/
def atoi (s : Text) : ℤ :=
  let digits (s : Text) : ℕ := (s.takeWhile Char.isDigit).foldl (fun n c => 10 * n + (c.toNat - '0'.toNat)) 0
  match s.dropWhile isSpace with
  | '-' :: s => -(digits s : ℤ)
  | '+' :: s => digits s
  | s => digits s

/-- What `get_numeric_property<bool>` makes of a value. -/
def isTrue (val : Text) : Bool := (val.take 4).map Char.toLower = "true".toList ∨ atoi val ≠ 0

/-- `get_numeric_property<bool>` with a default. -/
def getBoolProperty (host : Host) (fuel : ℕ) (own m : PropertyMap) (ident : Text) (defaultVal useEnv : Bool) :
    Option (Bool × PropertyMap × PropertyMap) :=
  match host.getOwnProperty fuel own m ident useEnv with
  | none => none
  | some (.ok val, own, m) => some (isTrue val, own, m)
  | some (.error _, own, m) => some (defaultVal, own, m)

/-- An argument is added, behind a blank if it is not the first. -/
def addArg (args arg : Text) : Text := (if args = [] then args else args ++ [' ']) ++ arg

/-- The loop over the options: one that is not found is passed over. -/
def addOptions (host : Host) (fuel : ℕ) : PropertyMap → PropertyMap → Text → List Text →
    Option (Except PropertyError Text × PropertyMap)
  | _, m, args, [] => some (.ok args, m)
  | own, m, args, name :: names =>
    match host.getOwnProperty fuel own m name false with
    | none => none
    | some (.ok val, own, m) => addOptions host fuel own m (addArg args ('-' :: trimString (name ++ ' ' :: val) ' ')) names
    | some (.error .notFound, own, m) => addOptions host fuel own m args names
    | some (.error e, _, m) => some (.error e, m)

/-- What `init` comes to. -/
inductive Outcome
  /-- `sprintf` has written past the end of `directive` -/
  | overflow
  /-- the file cannot be opened, and `init` returns -1 -/
  | failed
  /-- the lines of the file, and the ORB's parameters -/
  | written (file : List Text) (orbParams : Text)
  deriving DecidableEq, Repr

namespace Build

variable (B : Build)

def directive (args : Text) : Text := B.directiveBefore ++ args ++ B.directiveAfter

def verbose (fuel : ℕ) (own m : PropertyMap) : Option (Bool × PropertyMap × PropertyMap) :=
  if B.debug > 2 then some (true, own, m) else getBoolProperty B.host fuel own m "verbose".toList false false

/-- The end of `init`, with `char directive[512]`. -/
def finish (orbParams args : Text) : Outcome :=
  if B.opens then
    if (B.directive (trimString args ' ')).length < 512 then
      .written [B.directive (trimString args ' '), B.resource]
        (addArg orbParams ("-ORBSvcConf '".toList ++ B.svcConfFilename ++ ['\'']))
    else .overflow
  else .failed

def init (fuel : ℕ) (own m : PropertyMap) (orbParams : Text) : Option (Except PropertyError Outcome × PropertyMap) :=
  match B.verbose fuel own m with
  | none => none
  | some (verbose, own, m) =>
    let args := if verbose then addArg [] "-verbose".toList else []
    match getBoolProperty B.host fuel own m "SSLNoProtection".toList false false with
    | none => none
    | some (true, _, m) => some (.ok (B.finish orbParams (addArg args "-SSLNoProtection".toList)), m)
    | some (false, own, m) =>
      -- from index 1
      match addOptions B.host fuel own m args ((ssliopOptions B.lynx).drop 1) with
      | none => none
      | some (.error e, m) => some (.error e, m)
      | some (.ok args, m) => some (.ok (B.finish orbParams args), m)

end Build

/-! ## Reading properties -/

/-- The properties `names` of the map `own`, read one after the other from the repository `m`: a value for each that is
set. -/
inductive Read (host : Host) (own : PropertyMap) : PropertyMap → List Text → List (Option Text) → PropertyMap → Prop
  | nil (m : PropertyMap) : Read host own m [] [] m
  | cons {m m₁ m' : PropertyMap} {name : Text} {r : Except PropertyError Text} {names : List Text}
      {vals : List (Option Text)} (h : ∃ fuel, host.getOwnProperty fuel own m name false = some (r, own, m₁))
      (hr : Read host own m₁ names vals m') : Read host own m (name :: names) (r.toOption :: vals) m'

/-- A name as the tables have it: there is nothing to trim. -/
def Named (name : Text) : Prop := Tidy name ∧ name ≠ []

section Read

variable {host : Host} {own m m' : PropertyMap} {name : Text} {fuel : ℕ}

theorem getOwnProperty_of_named (hname : Named name) :
    host.getOwnProperty fuel own m name false =
      match own.lookup name with
      | none => some (.error .notFound, own, m)
      | some val => (host.formatArgs fuel m val false true).map fun (text, m) => (.ok text, own, m) := by
  unfold Host.getOwnProperty Host.value
  rw [trimString_of_tidy hname.1, if_neg hname.2]
  cases own.lookup name <;> rfl

theorem formatArgs_tidy {args : Text} {sub quote : Bool} {r : Text × PropertyMap}
    (h : host.formatArgs fuel m args sub quote = some r) : Tidy r.1 := by
  obtain ⟨rs, _, rfl⟩ := Option.map_eq_some_iff.mp h
  exact parseArgv_tidy _ quote

/-- The map of the loader stays as it is, and a property is either not set or has a value without blanks at its ends. -/
theorem getOwnProperty_cases (hname : Named name) {own' : PropertyMap} {r : Except PropertyError Text}
    (h : host.getOwnProperty fuel own m name false = some (r, own', m')) :
    own' = own ∧ ((own.lookup name = none ∧ r = .error .notFound ∧ m' = m) ∨
      (own.lookup name ≠ none ∧ ∃ val, r = .ok val ∧ Tidy val)) := by
  rw [getOwnProperty_of_named hname] at h
  cases hlook : own.lookup name with
  | none =>
    rw [hlook] at h
    simp only [Option.some.injEq, Prod.mk.injEq] at h
    exact ⟨h.2.1.symm, Or.inl ⟨rfl, h.1.symm, h.2.2.symm⟩⟩
  | some val =>
    rw [hlook] at h
    obtain ⟨rs, hrs, hr⟩ := Option.map_eq_some_iff.mp h
    simp only [Prod.mk.injEq] at hr
    exact ⟨hr.2.1.symm, Or.inr ⟨by simp, rs.1, hr.1.symm, formatArgs_tidy hrs⟩⟩

theorem getOwnProperty_mono {fuel' : ℕ} (hfuel : fuel ≤ fuel') (hname : Named name)
    {r : Except PropertyError Text × PropertyMap × PropertyMap}
    (h : host.getOwnProperty fuel own m name false = some r) :
    host.getOwnProperty fuel' own m name false = some r := by
  rw [getOwnProperty_of_named hname] at h ⊢
  cases hlook : own.lookup name with
  | none =>
    rw [hlook] at h
    exact h
  | some val =>
    rw [hlook] at h
    obtain ⟨rs, hrs, hr⟩ := Option.map_eq_some_iff.mp h
    exact Option.map_eq_some_iff.mpr
      ⟨rs, Host.formatArgs_mono hfuel hrs, hr⟩

theorem getOwnProperty_steady (own m : PropertyMap) (hname : Named name) :
    Trans.Steady fun fuel => host.getOwnProperty fuel own m name false :=
  fun _ _ hle _ => getOwnProperty_mono hle hname

/-- There is one way to read properties. -/
theorem Read.unique {names : List Text} (hnames : ∀ name ∈ names, Named name) {vals vals' : List (Option Text)}
    {m₁ m₂ : PropertyMap} (h : Read host own m names vals m₁) (h' : Read host own m names vals' m₂) :
    vals = vals' ∧ m₁ = m₂ := by
  induction h generalizing vals' m₂ with
  | nil m =>
    cases h'
    exact ⟨rfl, rfl⟩
  | cons h _ ih =>
    cases h' with
    | cons h' hr' =>
      obtain ⟨fuel, h⟩ := h
      obtain ⟨fuel', h'⟩ := h'
      have heq := (getOwnProperty_steady own _ (hnames _ List.mem_cons_self)).unique h h'
      simp only [Prod.mk.injEq] at heq
      obtain ⟨rfl, _, rfl⟩ := heq
      obtain ⟨rfl, rfl⟩ := ih (fun n hn => hnames n (List.mem_cons_of_mem _ hn)) hr'
      exact ⟨rfl, rfl⟩

theorem Read.append {names names' : List Text} {vals vals' : List (Option Text)} {m₁ m₂ : PropertyMap}
    (h : Read host own m names vals m₁) (h' : Read host own m₁ names' vals' m₂) :
    Read host own m (names ++ names') (vals ++ vals') m₂ := by
  induction h with
  | nil m => exact h'
  | cons h _ ih => exact .cons h (ih h')

theorem Read.split {names names' : List Text} {vals : List (Option Text)} {m₂ : PropertyMap}
    (h : Read host own m (names ++ names') vals m₂) :
    ∃ vals₁ m₁ vals₂, Read host own m names vals₁ m₁ ∧ Read host own m₁ names' vals₂ m₂ := by
  induction names generalizing m vals with
  | nil => exact ⟨[], m, vals, .nil m, h⟩
  | cons name names ih =>
    cases h with
    | cons h hr =>
      obtain ⟨vals₁, m₁, vals₂, h₁, h₂⟩ := ih hr
      exact ⟨_, m₁, vals₂, .cons h h₁, h₂⟩

/-- The reading of properties ends exactly when none of those that it comes to goes round. -/
theorem read_ends_iff (hplain : '%' ∉ host.hostname) {names : List Text} (hnames : ∀ name ∈ names, Named name)
    (hshort : ∀ before name after vals m', names = before ++ name :: after → Read host own m before vals m' →
      host.ShortProperty own (fun _ => m') name false) :
    (∃ vals m', Read host own m names vals m') ↔
      ∀ before name after vals m', names = before ++ name :: after → Read host own m before vals m' →
        ¬ host.CircularProperty own (fun _ => m') name false := by
  constructor
  · rintro ⟨vals, m', h⟩ before name after vals₁ m₁ rfl h₁
    obtain ⟨vals₁', m₁', vals₂, h₁', h₂⟩ := h.split
    obtain ⟨rfl, rfl⟩ := h₁.unique (fun n hn => hnames n (List.mem_append_left _ hn)) h₁'
    have hends := Host.getOwnProperty_ends_iff hplain (hshort before name after _ _ rfl h₁)
    cases h₂ with
    | cons hget _ =>
      obtain ⟨fuel, hget⟩ := hget
      exact hends.mp ⟨fuel, _, hget⟩
  · intro h
    induction names generalizing m with
    | nil => exact ⟨[], m, .nil m⟩
    | cons name names ih =>
      have hends := Host.getOwnProperty_ends_iff hplain (hshort [] name names [] m rfl (.nil m))
      obtain ⟨fuel, ⟨r, own', m₁⟩, hget⟩ := hends.mpr (h [] name names [] m rfl (.nil m))
      obtain ⟨rfl, _⟩ := getOwnProperty_cases (hnames _ List.mem_cons_self) hget
      obtain ⟨vals, m', hr⟩ := ih (fun n hn => hnames n (List.mem_cons_of_mem _ hn))
        (fun before n after vals m' heq hr =>
          hshort (name :: before) n after (r.toOption :: vals) m' (by rw [heq]; rfl) (.cons ⟨fuel, hget⟩ hr))
        fun before n after vals m' heq hr =>
          h (name :: before) n after (r.toOption :: vals) m' (by rw [heq]; rfl) (.cons ⟨fuel, hget⟩ hr)
      exact ⟨_, m', .cons ⟨fuel, hget⟩ hr⟩

end Read

/-! ## The arguments -/

/-- `-NAME VALUE`, or `-NAME` where the value is empty. -/
def option (name val : Text) : Text := '-' :: name ++ if val = [] then [] else ' ' :: val

/-- The options that are set. -/
def options (names : List Text) (vals : List (Option Text)) : List Text :=
  (names.zip vals).filterMap fun entry => entry.2.map (option entry.1)

/-- Arguments with a blank between them. -/
def joined (args : List Text) : Text := args.foldl addArg []

theorem options_cons (name : Text) (names : List Text) (val : Option Text) (vals : List (Option Text)) :
    options (name :: names) (val :: vals) = (val.map (option name)).toList ++ options names vals := by
  cases val <;> rfl

theorem option_tidy {name val : Text} (hname : Named name) (hval : Tidy val) : Tidy (option name val) := by
  have hdash : Tidy ['-'] := Tidy.singleton (by decide)
  have hboth : Tidy ('-' :: name) := hdash.append hname.1 (by simp) hname.2
  unfold option
  split
  · rwa [List.append_nil]
  · next hne => exact hboth.append_space hval (by simp) hne

theorem trim_option {name val : Text} (hname : Named name) (hval : Tidy val) :
    '-' :: trimString (name ++ ' ' :: val) ' ' = option name val := by
  unfold option
  by_cases hne : val = []
  · rw [if_pos hne, hne, trimString_append_space, trimString_of_tidy hname.1, List.append_nil]
  · rw [if_neg hne, trimString_of_tidy (hname.1.append_space hval hname.2 hne)]
    rfl

theorem addArg_tidy {args arg : Text} (hargs : Tidy args) (harg : Tidy arg) (hne : arg ≠ []) :
    Tidy (addArg args arg) ∧ addArg args arg ≠ [] := by
  unfold addArg
  split
  · next hnil =>
    rw [hnil, List.nil_append]
    exact ⟨harg, hne⟩
  · next hargs0 =>
    rw [List.append_assoc]
    exact ⟨hargs.append_space harg hargs0 hne, by simp⟩

theorem joined_tidy {args : List Text} (h : ∀ arg ∈ args, Tidy arg ∧ arg ≠ []) : Tidy (joined args) := by
  unfold joined
  induction args using List.reverseRecOn with
  | nil => exact Tidy.nil
  | append_singleton args arg ih =>
    rw [List.foldl_append, List.foldl_cons, List.foldl_nil]
    obtain ⟨harg, hne⟩ := h arg (by simp)
    exact (addArg_tidy (ih fun a ha => h a (List.mem_append_left _ ha)) harg hne).1

theorem joined_cons {arg : Text} (hne : arg ≠ []) (args : List Text) :
    joined (arg :: args) = arg ++ args.flatMap (' ' :: ·) := by
  have hfold : ∀ (args : List Text) (acc : Text), acc ≠ [] →
      args.foldl addArg acc = acc ++ args.flatMap (' ' :: ·) := by
    intro args
    induction args with
    | nil => simp
    | cons a args ih =>
      intro acc hacc
      rw [List.foldl_cons, addArg, if_neg hacc, ih _ (by simp [hacc]), List.flatMap_cons]
      simp
  rw [joined, List.foldl_cons, addArg, if_pos rfl, List.nil_append]
  exact hfold args arg hne

/-! ## The loop over the options -/

section Loop

variable {host : Host} {own m m' : PropertyMap}

theorem addOptions_of_read {names : List Text} {vals : List (Option Text)} (hnames : ∀ name ∈ names, Named name)
    (h : Read host own m names vals m') :
    ∃ fuel, ∀ fuel' ≥ fuel, ∀ args,
      addOptions host fuel' own m args names = some (.ok ((options names vals).foldl addArg args), m') := by
  induction h with
  | nil m => exact ⟨0, fun fuel' _ args => rfl⟩
  | @cons m m₁ m' name r names vals h hr ih =>
    have hname := hnames name List.mem_cons_self
    obtain ⟨fuel₁, h₁⟩ := h
    obtain ⟨fuel₂, h₂⟩ := ih fun n hn => hnames n (List.mem_cons_of_mem _ hn)
    refine ⟨max fuel₁ fuel₂, fun fuel' hfuel args => ?_⟩
    have hget := getOwnProperty_mono (le_of_max_le_left hfuel) hname h₁
    rw [addOptions, hget]
    obtain ⟨_, ⟨_, rfl, _⟩ | ⟨_, val, rfl, hval⟩⟩ := getOwnProperty_cases hname h₁
    · exact h₂ fuel' (le_of_max_le_right hfuel) args
    · dsimp only
      rw [trim_option hname hval]
      exact h₂ fuel' (le_of_max_le_right hfuel) (addArg args (option name val))

theorem read_of_addOptions {names : List Text} (hnames : ∀ name ∈ names, Named name) {fuel : ℕ} {args : Text}
    {r : Except PropertyError Text × PropertyMap} (h : addOptions host fuel own m args names = some r) :
    ∃ vals m', Read host own m names vals m' ∧ r = (.ok ((options names vals).foldl addArg args), m') := by
  induction names generalizing m args with
  | nil => exact ⟨[], m, .nil m, (Option.some.inj h).symm⟩
  | cons name names ih =>
    have hname := hnames name List.mem_cons_self
    have hrest : ∀ n ∈ names, Named n := fun n hn => hnames n (List.mem_cons_of_mem _ hn)
    rw [addOptions] at h
    cases hget : host.getOwnProperty fuel own m name false with
    | none =>
      rw [hget] at h
      simp at h
    | some found =>
      obtain ⟨found, own', m₁⟩ := found
      rw [hget] at h
      obtain ⟨rfl, ⟨_, rfl, rfl⟩ | ⟨_, val, rfl, hval⟩⟩ := getOwnProperty_cases hname hget
      · obtain ⟨vals, m', hr, rfl⟩ := ih hrest h
        exact ⟨none :: vals, m', .cons ⟨fuel, hget⟩ hr, rfl⟩
      · dsimp only at h
        rw [trim_option hname hval] at h
        obtain ⟨vals, m', hr, rfl⟩ := ih hrest h
        exact ⟨some val :: vals, m', .cons ⟨fuel, hget⟩ hr, rfl⟩

theorem Read.tidy {names : List Text} {vals : List (Option Text)} (hnames : ∀ name ∈ names, Named name)
    (h : Read host own m names vals m') : ∀ arg ∈ options names vals, Tidy arg ∧ arg ≠ [] := by
  induction h with
  | nil m => simp [options]
  | cons h _ ih =>
    obtain ⟨fuel, h⟩ := h
    have hname := hnames _ List.mem_cons_self
    have hrest := ih fun n hn => hnames n (List.mem_cons_of_mem _ hn)
    rw [options_cons]
    obtain ⟨_, ⟨_, rfl, _⟩ | ⟨_, val, rfl, hval⟩⟩ := getOwnProperty_cases hname h
    · exact hrest
    · intro arg harg
      rcases List.mem_cons.mp harg with rfl | harg
      · exact ⟨option_tidy hname hval, by simp [option]⟩
      · exact hrest arg harg

end Loop

/-! ## What is read before the options -/

namespace Build

/-- The properties that `init` asks for before it comes to the options. -/
def checked (B : Build) : List Text :=
  (if B.debug > 2 then [] else ["verbose".toList]) ++ ["SSLNoProtection".toList]

/-- Whether there is to be a `-verbose`, by what the properties were. -/
def isVerbose (B : Build) (flags : List (Option Text)) : Bool :=
  if B.debug > 2 then true else (flags.head?.join.map isTrue).getD false

def verboseArg (B : Build) (flags : List (Option Text)) : List Text :=
  if B.isVerbose flags then ["-verbose".toList] else []

/-- `SSLNoProtection` is true. -/
def noProtection (flags : List (Option Text)) : Bool := (flags.getLast?.join.map isTrue).getD false

variable {B : Build} {own m : PropertyMap}

theorem named_of_plain {name : Text} (h : Plain name ∧ name ≠ []) : Named name := ⟨h.1.tidy, h.2⟩

theorem named_options (lynx : Bool) : ∀ name ∈ ssliopOptions lynx, Named name := by
  have hplain : ∀ lynx, ∀ name ∈ ssliopOptions lynx, Plain name ∧ name ≠ [] := by decide
  exact fun name hname => named_of_plain (hplain lynx name hname)

theorem named_checked : ∀ name ∈ B.checked, Named name := by
  have hplain : ∀ name ∈ ["verbose".toList, "SSLNoProtection".toList], Plain name ∧ name ≠ [] := by decide
  intro name hname
  refine named_of_plain (hplain name ?_)
  unfold checked at hname
  split at hname
  · exact List.mem_cons_of_mem _ hname
  · exact hname

theorem getBoolProperty_eq {host : Host} {fuel : ℕ} {name : Text} {r : Except PropertyError Text} {m' : PropertyMap}
    (h : host.getOwnProperty fuel own m name false = some (r, own, m')) :
    getBoolProperty host fuel own m name false false = some ((r.toOption.map isTrue).getD false, own, m') := by
  unfold getBoolProperty
  rw [h]
  cases r <;> rfl

theorem checks_of_read {flags : List (Option Text)} {m₁ : PropertyMap} (h : Read B.host own m B.checked flags m₁) :
    ∃ fuel, ∀ fuel' ≥ fuel, ∃ m', B.verbose fuel' own m = some (B.isVerbose flags, own, m') ∧
      getBoolProperty B.host fuel' own m' "SSLNoProtection".toList false false = some (noProtection flags, own, m₁) := by
  have hnamed := named_checked (B := B)
  unfold checked at h hnamed
  unfold verbose isVerbose
  by_cases hdebug : B.debug > 2
  · simp only [if_pos hdebug, List.nil_append] at h hnamed ⊢
    cases h with
    | cons hno hnil =>
      cases hnil
      obtain ⟨fuel, hno⟩ := hno
      exact ⟨fuel, fun fuel' hfuel => ⟨m, rfl, getBoolProperty_eq (getOwnProperty_mono hfuel (hnamed _ (by simp)) hno)⟩⟩
  · simp only [if_neg hdebug, List.cons_append, List.nil_append] at h hnamed ⊢
    cases h with
    | cons hverbose h =>
      cases h with
      | cons hno hnil =>
        cases hnil
        obtain ⟨fuel₁, hverbose⟩ := hverbose
        obtain ⟨fuel₂, hno⟩ := hno
        refine ⟨max fuel₁ fuel₂, fun fuel' hfuel => ⟨_, getBoolProperty_eq
          (getOwnProperty_mono (le_of_max_le_left hfuel) (hnamed _ (by simp)) hverbose), ?_⟩⟩
        exact getBoolProperty_eq (getOwnProperty_mono (le_of_max_le_right hfuel) (hnamed _ (by simp)) hno)

theorem read_of_getBoolProperty {host : Host} {fuel : ℕ} {name : Text} (hname : Named name) {b : Bool}
    {own' m' : PropertyMap} (h : getBoolProperty host fuel own m name false false = some (b, own', m')) :
    own' = own ∧ ∃ val, Read host own m [name] [val] m' ∧ b = (val.map isTrue).getD false := by
  cases hget : host.getOwnProperty fuel own m name false with
  | none =>
    unfold getBoolProperty at h
    simp [hget] at h
  | some found =>
    obtain ⟨r, own₁, m₁⟩ := found
    obtain ⟨rfl, _⟩ := getOwnProperty_cases hname hget
    rw [getBoolProperty_eq hget] at h
    simp only [Option.some.injEq, Prod.mk.injEq] at h
    obtain ⟨rfl, rfl, rfl⟩ := h
    exact ⟨rfl, r.toOption, .cons ⟨fuel, hget⟩ (.nil m₁), rfl⟩

theorem read_of_checks {fuel : ℕ} {v b : Bool} {own₁ own₂ m' m₁ : PropertyMap}
    (hverbose : B.verbose fuel own m = some (v, own₁, m'))
    (hno : getBoolProperty B.host fuel own₁ m' "SSLNoProtection".toList false false = some (b, own₂, m₁)) :
    own₁ = own ∧ own₂ = own ∧
      ∃ flags, Read B.host own m B.checked flags m₁ ∧ v = B.isVerbose flags ∧ b = noProtection flags := by
  have hnamed := named_checked (B := B)
  unfold verbose at hverbose
  unfold checked isVerbose at *
  by_cases hdebug : B.debug > 2
  · simp only [if_pos hdebug, Option.some.injEq, Prod.mk.injEq, List.nil_append] at hverbose hnamed ⊢
    obtain ⟨rfl, rfl, rfl⟩ := hverbose
    obtain ⟨rfl, val, hread, hb⟩ := read_of_getBoolProperty (hnamed _ (by simp)) hno
    exact ⟨rfl, rfl, [val], hread, rfl, hb⟩
  · simp only [if_neg hdebug, List.cons_append, List.nil_append] at hverbose hnamed ⊢
    obtain ⟨rfl, val₁, hread₁, hv⟩ := read_of_getBoolProperty (hnamed _ (by simp)) hverbose
    obtain ⟨rfl, val₂, hread₂, hb⟩ := read_of_getBoolProperty (hnamed _ (by simp)) hno
    exact ⟨rfl, rfl, [val₁, val₂], hread₁.append hread₂, hv, hb⟩

/-! ## The loader -/

theorem init_of_read {flags vals : List (Option Text)} {m₁ m₂ : PropertyMap}
    (hflags : Read B.host own m B.checked flags m₁) (hno : noProtection flags = false)
    (hr : Read B.host own m₁ ((ssliopOptions B.lynx).drop 1) vals m₂) (orbParams : Text) :
    ∃ fuel, B.init fuel own m orbParams = some (.ok (B.finish orbParams
      (joined (B.verboseArg flags ++ options ((ssliopOptions B.lynx).drop 1) vals))), m₂) := by
  obtain ⟨fuel₁, hchecks⟩ := checks_of_read hflags
  obtain ⟨fuel₂, hadd⟩ := addOptions_of_read (fun n hn => named_options B.lynx n (List.mem_of_mem_drop hn)) hr
  obtain ⟨m', hverbose, hbool⟩ := hchecks (max fuel₁ fuel₂) (le_max_left _ _)
  refine ⟨max fuel₁ fuel₂, ?_⟩
  unfold init
  rw [hverbose]
  dsimp only
  rw [hbool, hno]
  dsimp only
  rw [hadd (max fuel₁ fuel₂) (le_max_right _ _), joined, List.foldl_append]
  unfold verboseArg
  cases B.isVerbose flags <;> rfl

theorem read_of_init {fuel : ℕ} {orbParams : Text} {r : Except PropertyError Outcome × PropertyMap}
    (h : B.init fuel own m orbParams = some r)
    (hno : ∀ flags m₁, Read B.host own m B.checked flags m₁ → noProtection flags = false) :
    ∃ flags m₁ vals m₂, Read B.host own m B.checked flags m₁ ∧
      Read B.host own m₁ ((ssliopOptions B.lynx).drop 1) vals m₂ ∧
      r = (.ok (B.finish orbParams
        (joined (B.verboseArg flags ++ options ((ssliopOptions B.lynx).drop 1) vals))), m₂) := by
  unfold init at h
  cases hverbose : B.verbose fuel own m with
  | none => simp [hverbose] at h
  | some found =>
    obtain ⟨v, own₁, m'⟩ := found
    rw [hverbose] at h
    dsimp only at h
    cases hbool : getBoolProperty B.host fuel own₁ m' "SSLNoProtection".toList false false with
    | none =>
      rw [hbool] at h
      simp at h
    | some found =>
      obtain ⟨b, own₂, m₁⟩ := found
      obtain ⟨rfl, rfl, flags, hflags, rfl, rfl⟩ := read_of_checks hverbose hbool
      rw [hbool, hno flags m₁ hflags] at h
      dsimp only at h
      split at h
      · exact absurd h (by simp)
      · next hadd =>
        obtain ⟨_, _, _, hr⟩ := read_of_addOptions
          (fun n hn => named_options B.lynx n (List.mem_of_mem_drop hn)) hadd
        cases (Prod.mk.inj hr).1
      · next hadd =>
        obtain ⟨vals, m₂, hread, hr⟩ := read_of_addOptions
          (fun n hn => named_options B.lynx n (List.mem_of_mem_drop hn)) hadd
        obtain ⟨hargs, hmap⟩ := Prod.mk.inj hr
        refine ⟨flags, m₁, vals, m₂, hflags, hread, ?_⟩
        rw [← Option.some.inj h, hmap, Except.ok.inj hargs, joined, List.foldl_append]
        unfold verboseArg
        cases B.isVerbose flags <;> rfl

/-- The first option of the table, and those that the loop goes over. -/
theorem ssliopOptions_eq (lynx : Bool) :
    ssliopOptions lynx = "SSLAuthenticate".toList :: (ssliopOptions lynx).drop 1 := rfl

theorem mem_options {names : List Text} {vals : List (Option Text)} {arg : Text} (h : arg ∈ options names vals) :
    ∃ name ∈ names, ∃ val, arg = option name val := by
  obtain ⟨⟨name, val⟩, hmem, hval⟩ := List.mem_filterMap.mp h
  obtain ⟨val, _, rfl⟩ := Option.map_eq_some_iff.mp hval
  exact ⟨name, (List.of_mem_zip hmem).1, val, rfl⟩

/-- The first characters tell the first option of the table from the others. -/
theorem option_append_ne {lynx : Bool} {name : Text} (hname : name ∈ (ssliopOptions lynx).drop 1) (val val' s t : Text) :
    option "SSLAuthenticate".toList val ++ s ≠ option name val' ++ t := by
  have htake : ∀ {name : Text} (val s : Text), 5 ≤ name.length → (option name val ++ s).take 6 = ('-' :: name).take 6 := by
    intro name val s hlen
    unfold option
    rw [List.append_assoc, List.take_append_of_le_length (by simpa using hlen)]
  have hdiffer : ∀ lynx, ∀ name ∈ (ssliopOptions lynx).drop 1,
      5 ≤ name.length ∧ ('-' :: "SSLAuthenticate".toList).take 6 ≠ ('-' :: name).take 6 := by decide
  obtain ⟨hlen, hne⟩ := hdiffer lynx name hname
  intro heq
  rw [← htake val s (by decide), ← htake val' t hlen, heq] at hne
  exact hne rfl

/-- Arguments with the first option are never those without it. -/
theorem joined_ne {lynx : Bool} {before : List Text} (hbefore : before = [] ∨ ∃ arg, arg ≠ [] ∧ before = [arg])
    (val : Text) (args : List Text) (vals : List (Option Text)) :
    joined (before ++ option "SSLAuthenticate".toList val :: args) ≠
      joined (before ++ options ((ssliopOptions lynx).drop 1) vals) := by
  have hne : ∀ name val, option name val ≠ [] := fun name val => by simp [option]
  rcases hbefore with rfl | ⟨arg, harg, rfl⟩
  · rw [List.nil_append, List.nil_append, joined_cons (hne _ _)]
    cases hopts : options ((ssliopOptions lynx).drop 1) vals with
    | nil =>
      intro heq
      exact hne _ _ (List.append_eq_nil_iff.mp heq).1
    | cons b opts =>
      obtain ⟨name, hname, val', rfl⟩ := mem_options (hopts ▸ List.mem_cons_self)
      rw [joined_cons (hne _ _)]
      exact option_append_ne hname _ _ _ _
  · rw [List.singleton_append, List.singleton_append, joined_cons harg, joined_cons harg, List.flatMap_cons]
    intro heq
    have heq := List.append_cancel_left heq
    cases hopts : options ((ssliopOptions lynx).drop 1) vals with
    | nil =>
      rw [hopts] at heq
      simp at heq
    | cons b opts =>
      obtain ⟨name, hname, val', rfl⟩ := mem_options (hopts ▸ List.mem_cons_self)
      rw [hopts, List.flatMap_cons, List.cons_append, List.cons_append] at heq
      exact option_append_ne hname _ _ _ _ (List.cons.inj heq).2

variable (B own m) in
/-- `SSLNoProtection` is not true. -/
def Protected : Prop := ∀ flags m₁, Read B.host own m B.checked flags m₁ → noProtection flags = false

variable (B) in
/-- The directive with every option of the table that is set, in order, and `-verbose` in front if there is to be one. -/
def fullDirective (flags vals : List (Option Text)) : Text :=
  B.directive (joined (B.verboseArg flags ++ options (ssliopOptions B.lynx) vals))

variable (B own m) in
/-- What is written has the full directive; nothing is written if the file cannot be opened. -/
def Passes : Except PropertyError Outcome → Prop
  | .ok (.written file _) => ∃ flags m₁ vals m₂, Read B.host own m B.checked flags m₁ ∧
      Read B.host own m₁ (ssliopOptions B.lynx) vals m₂ ∧ file.head? = some (B.fullDirective flags vals)
  | .ok .failed => B.opens = false
  | _ => False

variable (B own m) in
/-- No property that is read on the way goes round. -/
def Ends : Prop :=
  ∀ before name after vals m', B.checked ++ (ssliopOptions B.lynx).drop 1 = before ++ name :: after →
    Read B.host own m before vals m' → ¬ B.host.CircularProperty own (fun _ => m') name false

variable (B own m) in
/-- The texts stay short while they are formatted. -/
def Short : Prop :=
  ∀ before name after vals m', B.checked ++ (ssliopOptions B.lynx).drop 1 = before ++ name :: after →
    Read B.host own m before vals m' → B.host.ShortProperty own (fun _ => m') name false

variable (B own m) in
/-- The full directive fits the buffer, with the 0 at its end. -/
def Fits : Prop :=
  ∀ flags m₁ vals m₂, Read B.host own m B.checked flags m₁ → Read B.host own m₁ (ssliopOptions B.lynx) vals m₂ →
    (B.fullDirective flags vals).length < 512

theorem verboseArg_cases (B : Build) (flags : List (Option Text)) :
    B.verboseArg flags = [] ∨ ∃ arg, arg ≠ [] ∧ B.verboseArg flags = [arg] := by
  unfold verboseArg
  split
  · exact Or.inr ⟨_, by decide, rfl⟩
  · exact Or.inl rfl

/-- The arguments that the loop comes to are not trimmed any further. -/
theorem trim_joined {flags vals : List (Option Text)} {m₁ m₂ : PropertyMap}
    (hr : Read B.host own m₁ ((ssliopOptions B.lynx).drop 1) vals m₂) :
    trimString (joined (B.verboseArg flags ++ options ((ssliopOptions B.lynx).drop 1) vals)) ' ' =
      joined (B.verboseArg flags ++ options ((ssliopOptions B.lynx).drop 1) vals) := by
  refine trimString_of_tidy (joined_tidy fun arg harg => ?_)
  rcases List.mem_append.mp harg with harg | harg
  · have hplain : Plain "-verbose".toList ∧ "-verbose".toList ≠ [] := by decide
    unfold verboseArg at harg
    split at harg
    · rw [List.mem_singleton.mp harg]
      exact ⟨hplain.1.tidy, hplain.2⟩
    · simp at harg
  · exact hr.tidy (fun n hn => named_options B.lynx n (List.mem_of_mem_drop hn)) arg harg

/-- Without the first option, the directive that the loop comes to is the full one. -/
theorem fullDirective_of_unset (B : Build) (flags vals : List (Option Text)) :
    B.fullDirective flags (none :: vals) =
      B.directive (joined (B.verboseArg flags ++ options ((ssliopOptions B.lynx).drop 1) vals)) := by
  unfold fullDirective
  rw [ssliopOptions_eq, options_cons]
  rfl

/-- And with it, it never is. -/
theorem fullDirective_ne_of_set (B : Build) (flags vals vals' : List (Option Text)) (val : Text) :
    B.fullDirective flags (some val :: vals') ≠
      B.directive (joined (B.verboseArg flags ++ options ((ssliopOptions B.lynx).drop 1) vals)) := by
  unfold fullDirective directive
  rw [ssliopOptions_eq, options_cons]
  intro heq
  exact joined_ne (B.verboseArg_cases flags) val _ vals (List.append_cancel_left (List.append_cancel_right heq))

theorem read_authenticate {vals : List (Option Text)} {m₁ m₂ : PropertyMap}
    (h : Read B.host own m₁ (ssliopOptions B.lynx) vals m₂) :
    (own.lookup "SSLAuthenticate".toList = none ∧ ∃ vals', vals = none :: vals' ∧
      Read B.host own m₁ ((ssliopOptions B.lynx).drop 1) vals' m₂) ∨
    (own.lookup "SSLAuthenticate".toList ≠ none ∧ ∃ val vals', vals = some val :: vals') := by
  have hnamed := named_options B.lynx _ List.mem_cons_self
  rw [ssliopOptions_eq] at h
  cases h with
  | cons hget hr =>
    obtain ⟨fuel, hget⟩ := hget
    obtain ⟨_, ⟨hlook, rfl, rfl⟩ | ⟨hlook, val, rfl, _⟩⟩ := getOwnProperty_cases hnamed hget
    · exact Or.inl ⟨hlook, _, rfl, hr⟩
    · exact Or.inr ⟨hlook, val, _, rfl⟩

theorem finish_of_opens {orbParams args : Text} (hopens : B.opens = true) (htrim : trimString args ' ' = args) :
    B.finish orbParams args =
      if (B.directive args).length < 512 then
        .written [B.directive args, B.resource] (addArg orbParams ("-ORBSvcConf '".toList ++ B.svcConfFilename ++ ['\'']))
      else .overflow := by
  unfold finish
  rw [if_pos hopens, htrim]

theorem named_read : ∀ name ∈ B.checked ++ (ssliopOptions B.lynx).drop 1, Named name := by
  intro name hname
  rcases List.mem_append.mp hname with hname | hname
  · exact named_checked name hname
  · exact named_options B.lynx name (List.mem_of_mem_drop hname)

theorem ends_of_init {fuel : ℕ} {orbParams : Text} {r : Except PropertyError Outcome × PropertyMap}
    (hplain : '%' ∉ B.host.hostname) (hshort : B.Short own m) (hno : B.Protected own m)
    (h : B.init fuel own m orbParams = some r) : B.Ends own m := by
  obtain ⟨flags, m₁, vals, m₂, hflags, hr, rfl⟩ := read_of_init h hno
  intro before name after
  exact (read_ends_iff hplain named_read hshort).mp ⟨_, m₂, hflags.append hr⟩ before name after

/-- What passes has the first option of the table unset, and fits. -/
theorem of_passes {fuel : ℕ} {orbParams : Text} {r : Except PropertyError Outcome × PropertyMap}
    (hno : B.Protected own m) (h : B.init fuel own m orbParams = some r) (hp : B.Passes own m r.1)
    (hopens : B.opens = true) : own.lookup "SSLAuthenticate".toList = none ∧ B.Fits own m := by
  obtain ⟨flags, m₁, vals, m₂, hflags, hr, rfl⟩ := read_of_init h hno
  rw [finish_of_opens hopens (trim_joined hr)] at hp
  split at hp
  · next hlen =>
    obtain ⟨flags', m₁', vals', m₂', hflags', hr', hhead⟩ := hp
    obtain ⟨rfl, rfl⟩ := hflags.unique named_checked hflags'
    have hdirective := Option.some.inj hhead
    obtain ⟨hunset, vals', rfl, _⟩ | ⟨_, val, vals', rfl⟩ := read_authenticate hr'
    · refine ⟨hunset, fun flags₂ n₁ vals₂ n₂ hflags₂ hr₂ => ?_⟩
      obtain ⟨rfl, rfl⟩ := hflags.unique named_checked hflags₂
      obtain ⟨rfl, rfl⟩ := hr'.unique (named_options B.lynx) hr₂
      rw [← hdirective]
      exact hlen
    · exact absurd hdirective.symm (B.fullDirective_ne_of_set flags vals vals' val)
  · exact hp.elim

/-- `init` passes every option on exactly when the properties that it reads do not go round and, if the file can be
opened, the first option of the table is not set and the directive fits its buffer. -/
theorem init_passes_iff (B : Build) (hplain : '%' ∉ B.host.hostname) (own m : PropertyMap) (orbParams : Text)
    (hshort : B.Short own m) (hno : B.Protected own m) :
    (∃ fuel r, B.init fuel own m orbParams = some r ∧ B.Passes own m r.1) ↔
      B.Ends own m ∧ (B.opens = true → own.lookup "SSLAuthenticate".toList = none ∧ B.Fits own m) := by
  constructor
  · rintro ⟨fuel, r, h, hp⟩
    exact ⟨ends_of_init hplain hshort hno h, of_passes hno h hp⟩
  · rintro ⟨hends, hopens⟩
    obtain ⟨_, m₂, hread⟩ := (read_ends_iff hplain named_read hshort).mpr hends
    obtain ⟨flags, m₁, vals, hflags, hr⟩ := hread.split
    obtain ⟨fuel, hinit⟩ := init_of_read hflags (hno flags m₁ hflags) hr orbParams
    refine ⟨fuel, _, hinit, ?_⟩
    cases hopen : B.opens with
    | false =>
      unfold finish
      rw [hopen]
      exact hopen
    | true =>
      obtain ⟨hunset, hfits⟩ := hopens hopen
      have hget : B.host.getOwnProperty 0 own m₁ "SSLAuthenticate".toList false = some (.error .notFound, own, m₁) := by
        rw [getOwnProperty_of_named (named_options B.lynx _ List.mem_cons_self), hunset]
      have hfull : Read B.host own m₁ (ssliopOptions B.lynx) (none :: vals) m₂ := .cons ⟨0, hget⟩ hr
      have hlen := hfits flags m₁ _ m₂ hflags hfull
      rw [fullDirective_of_unset] at hlen
      rw [finish_of_opens hopen (trim_joined hr), if_pos hlen]
      exact ⟨flags, m₁, _, m₂, hflags, hfull, congrArg some (B.fullDirective_of_unset flags vals).symm⟩

/-- A build with an empty environment. -/
def bare : Build where
  host := Host.bareHost
  lynx := false
  debug := 0
  opens := true
  directiveBefore := "dynamic SSLIOP_Factory Service_Object * TAO_SSLIOP:_make_TAO_SSLIOP_Protocol_Factory() \"".toList
  directiveAfter := "\"".toList
  resource := "static Advanced_Resource_Factory \"-ORBProtocolFactory SSLIOP_Factory\"".toList
  svcConfFilename := "TAFSecurity1.conf".toList

theorem bare_protected {own : PropertyMap} (hverbose : own.lookup "verbose".toList = none)
    (hno : own.lookup "SSLNoProtection".toList = none) : bare.Protected own [] := by
  have hget : ∀ name ∈ bare.checked, own.lookup name = none →
      bare.host.getOwnProperty 0 own [] name false = some (.error .notFound, own, []) := by
    intro name hname hlook
    rw [getOwnProperty_of_named (named_checked name hname), hlook]
  have hread : Read bare.host own [] ["verbose".toList, "SSLNoProtection".toList] [none, none] [] :=
    .cons ⟨0, hget _ (by decide) hverbose⟩ (.cons ⟨0, hget _ (by decide) hno⟩ (.nil _))
  intro flags m₁ h
  obtain ⟨rfl, _⟩ := h.unique named_checked hread
  rfl

theorem bare_short_password : bare.Short [("SSLPassword".toList, "x".toList)] [] := by
  have hval : ∀ name ∈ bare.checked ++ (ssliopOptions bare.lynx).drop 1, ∀ v,
      bare.host.value [("SSLPassword".toList, "x".toList)] (trimString name ' ') false = some v → 
        ∀ arg ∈ bare.host.argv v.2.1 v.1, '%' ∉ arg := by decide
  rintro before name after vals m' hsplit _ val sub own' h
  have hname : name ∈ bare.checked ++ (ssliopOptions bare.lynx).drop 1 := by
    rw [hsplit]
    exact List.mem_append_right before List.mem_cons_self
  exact Host.staysShort_of_notMem m' (hval name hname _ h)

theorem init_passes_iff_password :
    (∃ fuel r, bare.init fuel [("SSLPassword".toList, "x".toList)] [] [] = some r ∧
        bare.Passes [("SSLPassword".toList, "x".toList)] [] r.1) ↔
      bare.Ends [("SSLPassword".toList, "x".toList)] [] ∧
        (bare.opens = true → List.lookup "SSLAuthenticate".toList [("SSLPassword".toList, "x".toList)] = none ∧
          bare.Fits [("SSLPassword".toList, "x".toList)] []) :=
  init_passes_iff bare (by decide) _ [] [] bare_short_password (bare_protected (by decide) (by decide))

/-- `SSLAuthenticate` is set, and left out. -/
theorem init_leaves_out :
    bare.Protected [("SSLAuthenticate".toList, "SERVER".toList)] [] ∧
    ¬ ∃ fuel r, bare.init fuel [("SSLAuthenticate".toList, "SERVER".toList)] [] [] = some r ∧
      bare.Passes [("SSLAuthenticate".toList, "SERVER".toList)] [] r.1 := by
  have hno : bare.Protected [("SSLAuthenticate".toList, "SERVER".toList)] [] := bare_protected (by decide) (by decide)
  refine ⟨hno, ?_⟩
  rintro ⟨fuel, r, h, hp⟩
  exact absurd (of_passes hno h hp rfl).1 (by decide)

end Build

end Lasagne.Taf.Security
