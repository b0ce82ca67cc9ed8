import Lasagne.Daf.PropertyManager
import Lasagne.Taf.ORBArguments

/-!
# Lasagne.Taf.PropertyLoader — properties from the command line

`PropertyLoader::load_properties` puts the arguments of the extensions behind the leading parameters, takes the options that
stand for properties out, with their parameters, and leaves the others for the ORB.

* `parseArgs_eq` : the arguments that the loops go over;
* `loadLoop_eq` : the loops, by the option that an argument belongs to;
* `load_entries` : what comes of properties that are set one after the other;
* `load_properties_sets` : the whole, which arguments are left, and which properties are set to what.
-/

namespace Lasagne.Taf.PropertyLoader

open Lasagne.Daf Lasagne.Taf.ORBArguments

/-! ## The model -/

/-- `cur_arg_strncasecmp(flag)` is 0 at an argument that is the flag and nothing more. -/
structure Shifter extends ArgShifter where
  cur_arg_strncasecmp_zero : ∀ arg flag, cur_arg_strncasecmp arg flag = 0 ↔ arg.map Char.toLower = flag.map Char.toLower

/-- The options of a build with security, and with SSL. -/
def securityOptions (sslIop : Bool) : List Text :=
  ["TAFSecurityEnable".toList, "TAFSecurityDefaultAllowance".toList, "TAFSecurityCollocatedAllowance".toList] ++
    if sslIop then ["TAFSecuritySSLProtection".toList] else []

/-- `property_options`. -/
def propertyOptions (security sslIop : Bool) : List Text :=
  ["TAFResolveTimeout".toList, "TAFDiscoveryEnable".toList, "TAFDiscoveryEndpoint".toList] ++
    (if security then securityOptions sslIop else []) ++
    ["TAFOrbThreads".toList, "TAFBaseContext".toList, "TAFServerName".toList, "ACEBaseThreads".toList,
      "ACEDebug".toList, "TAODebug".toList, "DAFDebug".toList, "TAFDebug".toList, "TAOrbDebug".toList]

/-- `TAF_PROPERTIES_FLAG`. -/
def propertiesFlag : Text := "-TAFProperties".toList

def extensionArgs : Text := "TAFExtensionArgs".toList

/-- The loop that is running: the outer one, or an inner one, which consumes the parameters of `-TAFProperties`, or adds
those of an option to `param_argv`. -/
inductive Inner
  | none
  | ignored
  | option (arg_option : Text) (param_argv : List Text)
  deriving DecidableEq, Repr

section Model

variable (host : Host) (shifter : Shifter) (options : List Text)

/-- `PropertyLoader::load_property`, on its own map and the repository. -/
def loadProperty (maps : PropertyMap × PropertyMap) (key val : Text) : PropertyMap × PropertyMap :=
  let (own, rc) := maps.1.loadProperty key val
  if rc ≠ 0 then (own, maps.2) else (own, (maps.2.setProperty key val).2)

/-- What an option is set to by its parameters. -/
def param (param_argv : List Text) : Text :=
  let argv := host.added false param_argv
  if argv ≠ [] then parseArgv argv true else ['1']

/-- Behind an inner loop. -/
def Inner.leave (maps : PropertyMap × PropertyMap) : Inner → PropertyMap × PropertyMap
  | .option arg_option param_argv => loadProperty maps arg_option (param host param_argv)
  | _ => maps

/-- What begins at an option: the outer loop goes on behind one of the ORB's, and behind one that is not known. -/
def begins (arg : Text) : Inner :=
  if shifter.cur_arg_strncasecmp arg orbArgumentSpecifier ≥ 0 then .none
  else if shifter.cur_arg_strncasecmp arg propertiesFlag = 0 then .ignored
  else
    match options.find? fun arg_option => shifter.cur_arg_strncasecmp arg ('-' :: arg_option) = 0 with
    | some arg_option => .option arg_option []
    | none => .none

/-- The loops of `load_properties`: `kept` are the arguments that were passed over by `ignore_arg`. -/
def loadLoop : Inner → PropertyMap × PropertyMap → List Text → List Text → List Text × PropertyMap × PropertyMap
  | inner, maps, kept, [] => (kept, inner.leave host maps)
  | inner, maps, kept, arg :: rest =>
    if isOption arg then
      match begins shifter options arg with
      | .none => loadLoop .none (inner.leave host maps) (kept ++ [arg]) rest
      | begun => loadLoop begun (inner.leave host maps) kept rest
    else
      match inner with
      | .none => loadLoop .none maps (kept ++ [arg]) rest
      | .ignored => loadLoop .ignored maps kept rest
      | .option arg_option param_argv => loadLoop (.option arg_option (param_argv ++ [arg])) maps kept rest

/-- The loops of `parse_args`, which go on where the shifter is. -/
def addLoop (args : List Text) (list : Argv) : Argv := args.foldl (fun list arg => list.add host [arg]) list

/-- `parse_args`, on a loader that has not been given arguments: those of the extensions come behind the leading
parameters; with the repository after it. -/
def parseArgs (fuel : ℕ) (m : PropertyMap) (argv : List Text) : Option (List Text × PropertyMap) :=
  match host.getProperty fuel m extensionArgs false with
  | none => none
  | some (.ok cmdLineEx, m) =>
    let cmdLine_argv := host.argv false cmdLineEx
    if cmdLine_argv ≠ [] then
      let list := addLoop host (argv.takeWhile (!isOption ·)) (.made false)
      let list := addLoop host cmdLine_argv list
      some ((addLoop host (argv.dropWhile (!isOption ·)) list).argv host, m)
    else some ((addLoop host argv (.made false)).argv host, m)
  | some (.error _, m) => some ((addLoop host argv (.made false)).argv host, m)

/-- `load_properties`: the arguments that are left, the loader's own map and the repository. -/
def loadProperties (fuel : ℕ) (own m : PropertyMap) (argv : List Text) :
    Option (List Text × PropertyMap × PropertyMap) :=
  (parseArgs host fuel m argv).map fun (argv, m) => loadLoop host shifter options .none (own, m) [] argv

end Model

/-! ## What the arguments say -/

/-- Texts that differ in no more than the case of their letters. -/
def Alike (s t : Text) : Prop := s.map Char.toLower = t.map Char.toLower

instance (s t : Text) : Decidable (Alike s t) := inferInstanceAs (Decidable (_ = _))

/-- The property that an option stands for: no option of the ORB, nor `-TAFProperties`, stands for one. -/
def property (options : List Text) (arg : Text) : Option Text :=
  if forORB (some arg) ∨ Alike arg propertiesFlag then none else options.find? fun name => Alike arg ('-' :: name)

/-- Whether an option is taken out, with its parameters. -/
def taken (options : List Text) : Option Text → Bool
  | none => false
  | some arg => !forORB (some arg) && (decide (Alike arg propertiesFlag) || (property options arg).isSome)

/-- The arguments that belong to no option that is taken out. -/
def left (options : List Text) (before : Option Text) (args : List Text) : List Text :=
  ((owned before args).filter fun x => !taken options x.2).map Prod.fst

/-- The properties that are given, and their values, in order. -/
def settings (host : Host) (options : List Text) : List Text → List (Text × Text)
  | [] => []
  | arg :: rest =>
    let given := if isOption arg then (property options arg).toList else []
    given.map (·, param host (rest.takeWhile (!isOption ·))) ++ settings host options rest

variable {host : Host} {shifter : Shifter} {options : List Text}

theorem begins_eq (arg : Text) : begins shifter options arg =
    if taken options (some arg) then
      match property options arg with
      | some name => .option name []
      | none => .ignored
    else .none := by
  have horb : shifter.cur_arg_strncasecmp arg orbArgumentSpecifier ≥ 0 ↔ forORB (some arg) = true := by
    have hneg := shifter.cur_arg_strncasecmp_neg arg orbArgumentSpecifier
    rw [ge_iff_le, ← not_lt, hneg, not_not, forORB, decide_eq_true_eq]
  have hflag := shifter.cur_arg_strncasecmp_zero arg propertiesFlag
  have hfind : (options.find? fun name => shifter.cur_arg_strncasecmp arg ('-' :: name) = 0) =
      options.find? fun name => Alike arg ('-' :: name) := by
    congr 1
    funext name
    exact decide_eq_decide.mpr (shifter.cur_arg_strncasecmp_zero arg ('-' :: name))
  unfold begins taken property
  rw [hfind]
  by_cases h1 : forORB (some arg) = true
  · simp [h1, horb.mpr h1]
  · rw [if_neg (mt horb.mp h1)]
    by_cases h2 : Alike arg propertiesFlag
    · rw [if_pos (hflag.mpr h2)]
      simp [h1, h2]
    · rw [if_neg (mt hflag.mp h2)]
      cases hname : options.find? fun name => Alike arg ('-' :: name) with
      | none => simp [h1, h2, hname]
      | some name => simp [h1, h2, hname]

theorem property_eq_none {arg : Text} (h : taken options (some arg) = false) : property options arg = none := by
  rw [taken] at h
  by_cases horb : forORB (some arg) = true
  · exact if_pos (.inl horb)
  · rw [Bool.not_eq_true] at horb
    rw [horb, Bool.not_false, Bool.true_and, Bool.or_eq_false_iff] at h
    exact Option.isNone_iff_eq_none.mp (Option.isSome_eq_false_iff.mp h.2)

theorem left_option {arg : Text} (h : isOption arg = true) (before : Option Text) (rest : List Text) :
    left options before (arg :: rest) =
      (if taken options (some arg) then [] else [arg]) ++ left options (some arg) rest := by
  rw [left, owned, if_pos h, List.filter_cons]
  cases taken options (some arg) <;> rfl

theorem left_param {arg : Text} (h : ¬ isOption arg = true) (before : Option Text) (rest : List Text) :
    left options before (arg :: rest) = (if taken options before then [] else [arg]) ++ left options before rest := by
  rw [left, owned, if_neg h, List.filter_cons]
  cases taken options before <;> rfl

/-- The parameters that an inner loop is still to take. -/
def Inner.take (params : List Text) : Inner → Inner
  | .option arg_option param_argv => .option arg_option (param_argv ++ params)
  | inner => inner

/-- The loops, behind the option `before`. -/
theorem loadLoop_eq (before : Option Text) {inner : Inner} (hinner : inner = .none ↔ taken options before = false)
    (maps : PropertyMap × PropertyMap) (kept args : List Text) :
    loadLoop host shifter options inner maps kept args =
      (kept ++ left options before args, (settings host options args).foldl (fun maps e => loadProperty maps e.1 e.2)
        ((inner.take (args.takeWhile (!isOption ·))).leave host maps)) := by
  induction args generalizing before inner maps kept with
  | nil =>
    cases inner <;> simp [loadLoop, left, owned, settings, Inner.take]
  | cons arg rest ih =>
    rw [loadLoop.eq_def]
    dsimp only
    by_cases hoption : isOption arg = true
    · -- the inner loop that was running is over
      have hover : (arg :: rest).takeWhile (!isOption ·) = [] := List.takeWhile_cons_of_neg (by simp [hoption])
      have hleave : (inner.take []).leave host maps = inner.leave host maps := by
        cases inner <;> simp [Inner.take]
      rw [if_pos hoption, hover, hleave, left_option hoption, settings, if_pos hoption, begins_eq]
      cases htaken : taken options (some arg) with
      | false =>
        rw [if_neg (by simp), if_neg (by simp), property_eq_none htaken]
        dsimp only
        rw [ih (some arg) (iff_of_true rfl htaken)]
        simp [Inner.take, Inner.leave]
      | true =>
        rw [if_pos rfl, if_pos rfl]
        cases hproperty : property options arg with
        | none =>
          dsimp only
          rw [ih (some arg) (by simp [htaken])]
          simp [Inner.take, Inner.leave]
        | some name =>
          dsimp only
          rw [ih (some arg) (by simp [htaken])]
          simp [Inner.take, Inner.leave]
    · have hgoes : (arg :: rest).takeWhile (!isOption ·) = arg :: rest.takeWhile (!isOption ·) :=
        List.takeWhile_cons_of_pos (by simp [hoption])
      rw [if_neg hoption, hgoes, left_param hoption, settings, if_neg hoption]
      cases inner with
      | none =>
        dsimp only
        rw [ih before hinner, hinner.mp rfl]
        simp [Inner.take]
      | ignored =>
        have htaken : taken options before = true := by simpa using hinner
        dsimp only
        rw [ih before hinner, htaken]
        simp [Inner.take]
      | option arg_option param_argv =>
        have htaken : taken options before = true := by simpa using hinner
        dsimp only
        rw [ih before (by simp [htaken]), htaken]
        simp [Inner.take]

/-! ## The properties -/

/-- What a loader has the repository has. -/
def Covered (maps : PropertyMap × PropertyMap) : Prop := ∀ k, maps.1.held k ≠ none → maps.2.held k ≠ none

theorem held_loadProperty (m : PropertyMap) (key val k : Text) : (m.loadProperty key val).1.held k =
    (if key = k ∧ val ≠ [] then some val else none).or ((m.held k).or (if k = key then some [] else none)) :=
  lookup_loadProperty m key val k

theorem setProperty_of_tidy (m : PropertyMap) {key val : Text} (hkey : Tidy key) (hne : key ≠ []) (hval : Tidy val) :
    (m.setProperty key val).2 = (m.loadProperty key val).1 := by
  unfold PropertyMap.setProperty
  rw [trimString_of_tidy hkey, trimString_of_tidy hval]
  exact congrArg Prod.snd (if_neg hne)

/-- The loader's own map is no obstacle where the repository has what it has. -/
theorem loadProperty_eq {maps : PropertyMap × PropertyMap} (hmaps : Covered maps) {key val : Text} (hkey : Tidy key)
    (hne : key ≠ []) (hval : Tidy val) :
    (loadProperty maps key val).1 = (maps.1.loadProperty key val).1 ∧
      (loadProperty maps key val).2 = (maps.2.loadProperty key val).1 := by
  unfold loadProperty
  by_cases hload : val ≠ [] ∨ maps.1.lookup key = none
  · rw [PropertyMap.loadProperty, if_pos hload]
    exact ⟨rfl, setProperty_of_tidy _ hkey hne hval⟩
  · -- an empty value for a key that there is already
    obtain ⟨hempty, hlookup⟩ := not_or.mp hload
    have hthere : ¬ (val ≠ [] ∨ maps.2.lookup key = none) := not_or.mpr ⟨hempty, hmaps key hlookup⟩
    rw [PropertyMap.loadProperty, if_neg hload, PropertyMap.loadProperty, if_neg hthere]
    exact ⟨rfl, rfl⟩

theorem covered_loadProperty {maps : PropertyMap × PropertyMap} (hmaps : Covered maps) {key val : Text}
    (hkey : Tidy key) (hne : key ≠ []) (hval : Tidy val) : Covered (loadProperty maps key val) := by
  obtain ⟨hown, hm⟩ := loadProperty_eq hmaps hkey hne hval
  intro k hk
  rw [hown, held_loadProperty] at hk
  rw [hm, held_loadProperty]
  have hk' := hmaps k
  by_cases hgiven : key = k ∧ val ≠ []
  · simp [hgiven]
  · by_cases hnamed : k = key
    · cases maps.2.held k <;> simp [hnamed]
    · simp only [hgiven, hnamed, if_false, Option.none_or, Option.or_none] at hk ⊢
      exact hk' hk

/-- Entries that are loaded one after the other: the last value that is not empty wins. -/
theorem load_entries {maps : PropertyMap × PropertyMap} (hmaps : Covered maps) {entries : List (Text × Text)}
    (hentries : ∀ e ∈ entries, (Tidy e.1 ∧ e.1 ≠ []) ∧ Tidy e.2) :
    Covered (entries.foldl (fun maps e => loadProperty maps e.1 e.2) maps) ∧
      ∀ k, (entries.foldl (fun maps e => loadProperty maps e.1 e.2) maps).2.held k =
        (lastGiven entries k).or ((maps.2.held k).or (if k ∈ entries.map Prod.fst then some [] else none)) := by
  induction entries using List.reverseRecOn with
  | nil => exact ⟨hmaps, fun k => by simp [lastGiven]⟩
  | append_singleton entries e ih =>
    obtain ⟨hinit, hlast⟩ := List.forall_mem_append.mp hentries
    obtain ⟨⟨hkey, hne⟩, hval⟩ := hlast e (List.mem_singleton_self e)
    obtain ⟨hcovered, hheld⟩ := ih hinit
    rw [List.foldl_append, List.foldl_cons, List.foldl_nil]
    refine ⟨covered_loadProperty hcovered hkey hne hval, fun k => ?_⟩
    have hnamed := known_concat (entries.map Prod.fst) e.1 k
    rw [← List.map_singleton, ← List.map_append] at hnamed
    rw [(loadProperty_eq hcovered hkey hne hval).2, held_loadProperty, hheld, lastGiven_concat, Option.or_assoc,
      Option.or_assoc, Option.or_assoc, hnamed]

theorem propertyOptions_named (security sslIop : Bool) :
    ∀ name ∈ propertyOptions security sslIop, Tidy name ∧ name ≠ [] := by
  have hsecurity : ∀ sslIop, ∀ name ∈ securityOptions sslIop, Plain name ∧ name ≠ [] := by decide
  have hplain : ∀ name ∈ propertyOptions security sslIop, Plain name ∧ name ≠ [] := by
    refine List.forall_mem_append.mpr ⟨List.forall_mem_append.mpr ⟨by decide, ?_⟩, by decide⟩
    split
    · exact hsecurity sslIop
    · exact List.forall_mem_nil _
  exact fun name hname => ⟨(hplain name hname).1.tidy, (hplain name hname).2⟩

theorem param_tidy (param_argv : List Text) : Tidy (param host param_argv) := by
  unfold param
  dsimp only
  split
  · exact parseArgv_tidy _ true
  · exact Tidy.singleton (by decide)

theorem mem_options {arg name : Text} (h : property options arg = some name) : name ∈ options := by
  unfold property at h
  split at h
  · cases h
  · exact List.mem_of_find?_eq_some h

theorem mem_settings {args : List Text} {e : Text × Text} (h : e ∈ settings host options args) :
    e.1 ∈ options ∧ Tidy e.2 := by
  induction args with
  | nil => cases h
  | cons arg rest ih =>
    rcases List.mem_append.mp h with h | h
    · obtain ⟨name, hname, rfl⟩ := List.mem_map.mp h
      split at hname
      · exact ⟨mem_options (Option.mem_toList.mp hname), param_tidy _⟩
      · cases hname
    · exact ih h

/-! ## The whole -/

variable (host) in
/-- The arguments, with those of the extensions behind the leading parameters: the value of `TAFExtensionArgs`, if there
is one. -/
def extended (argv : List Text) : Except PropertyError Text → List Text
  | .ok cmdLineEx => argv.takeWhile (!isOption ·) ++ host.argv false cmdLineEx ++ argv.dropWhile (!isOption ·)
  | .error _ => argv

theorem addLoop_eq (args : List Text) (list : Argv) :
    addLoop host args list = list.append (addEach host list.substituteEnvArgs args) := by
  unfold addLoop
  induction args generalizing list with
  | nil => exact list.append_nil.symm
  | cons arg args ih => rw [List.foldl_cons, ih, add_substituteEnvArgs, add_addEach]

theorem addEach_append (substituteEnvArgs : Bool) (args args' : List Text) :
    addEach host substituteEnvArgs args ++ addEach host substituteEnvArgs args' =
      addEach host substituteEnvArgs (args ++ args') := List.flatMap_append.symm

/-- What `parse_args` comes to, by what `get_property` does. -/
theorem parseArgs_eq (fuel : ℕ) (m : PropertyMap) (argv : List Text) :
    parseArgs host fuel m argv = (host.getProperty fuel m extensionArgs false).map fun (r, m) =>
      (host.added false (addEach host false (extended host argv r)), m) := by
  have hmade : ∀ args, (addLoop host args (.made false)).argv host = host.added false (addEach host false args) := by
    intro args
    rw [addLoop_eq, made_append_argv]
    rfl
  unfold parseArgs
  cases host.getProperty fuel m extensionArgs false with
  | none => rfl
  | some found =>
    obtain ⟨error | cmdLineEx, m₁⟩ := found
    · dsimp only
      rw [hmade]
      rfl
    · dsimp only
      split_ifs with hext
      · rw [addLoop_eq, addLoop_eq, addLoop_eq]
        simp only [Argv.append_substituteEnvArgs, Argv.append_append]
        rw [made_append_argv, addEach_append, addEach_append]
        rfl
      · have hnone : extended host argv (.ok cmdLineEx) = argv := by
          rw [extended, not_not.mp hext, List.append_nil, List.takeWhile_append_dropWhile]
        rw [hmade, Option.map_some, hnone]

/-- The call comes to an end exactly if the property of the extensions does not go round.  The options that stand for
properties are taken out, with their parameters, and the others are left in their order; each property is set to the last
value that it is given, no other is touched, and the loader's own map stays covered. -/
theorem load_properties_sets (host : Host) (shifter : Shifter) (security sslIop : Bool) (own m : PropertyMap)
    (argv : List Text) :
    ('%' ∉ host.hostname → host.ShortProperty m id extensionArgs false →
      ((∃ fuel r, loadProperties host shifter (propertyOptions security sslIop) fuel own m argv = some r) ↔
        ¬ host.CircularProperty m id extensionArgs false)) ∧
    ∀ fuel argv' own' m', Covered (own, m) →
      loadProperties host shifter (propertyOptions security sslIop) fuel own m argv = some (argv', own', m') →
      ∃ cmdLineEx m₁, host.getProperty fuel m extensionArgs false = some (cmdLineEx, m₁) ∧
        let args := host.added false (addEach host false (extended host argv cmdLineEx))
        argv' = left (propertyOptions security sslIop) none args ∧ argv'.Sublist args ∧ Covered (own', m') ∧
        ∀ k, m'.held k = (lastGiven (settings host (propertyOptions security sslIop) args) k).or ((m₁.held k).or
          (if k ∈ (settings host (propertyOptions security sslIop) args).map Prod.fst then some [] else none)) := by
  refine ⟨fun hplain hshort => ?_, fun fuel argv' own' m' hown h => ?_⟩
  · rw [← Host.getProperty_ends_iff hplain hshort]
    refine exists_congr fun fuel => ?_
    rw [loadProperties, parseArgs_eq]
    cases host.getProperty fuel m extensionArgs false with
    | none => simp
    | some found => exact iff_of_true ⟨_, rfl⟩ ⟨_, rfl⟩
  · rw [loadProperties, parseArgs_eq] at h
    obtain ⟨parsed, hparsed, he⟩ := Option.map_eq_some_iff.mp h
    obtain ⟨⟨cmdLineEx, m₁⟩, hget, rfl⟩ := Option.map_eq_some_iff.mp hparsed
    refine ⟨cmdLineEx, m₁, hget, ?_⟩
    dsimp only at he ⊢
    generalize host.added false (addEach host false (extended host argv cmdLineEx)) = args at *
    rw [loadLoop_eq none (iff_of_true rfl rfl)] at he
    obtain ⟨rfl, hmaps⟩ := Prod.mk.inj he
    have hcovered : Covered (own, m₁) := by
      intro k hk
      obtain ⟨v, hv⟩ := Option.ne_none_iff_exists'.mp (hown k hk)
      rw [(Host.getAt_fills hget).some hv]
      simp
    have hentries : ∀ e ∈ settings host (propertyOptions security sslIop) args, (Tidy e.1 ∧ e.1 ≠ []) ∧ Tidy e.2 :=
      fun e he => ⟨propertyOptions_named security sslIop e.1 (mem_settings he).1, (mem_settings he).2⟩
    obtain ⟨hcovered', hheld⟩ := load_entries hcovered hentries
    have hleave : (Inner.take (args.takeWhile (!isOption ·)) .none).leave host (own, m₁) = (own, m₁) := rfl
    rw [hleave] at hmaps
    rw [hmaps] at hcovered' hheld
    have hsub := (List.filter_sublist (p := fun x => !taken (propertyOptions security sslIop) x.2)
      (l := owned none args)).map Prod.fst
    rw [map_fst_owned] at hsub
    exact ⟨rfl, hsub, hcovered', hheld⟩

/-- `cur_arg_strncasecmp`, by the number of characters that the argument has besides. -/
def exact : Shifter where
  toArgShifter := besides
  cur_arg_strncasecmp_zero arg flag := by
    show (if (arg.take flag.length).map Char.toLower = flag.map Char.toLower then ((arg.length - flag.length : ℕ) : ℤ)
      else -1) = 0 ↔ _
    constructor
    · intro h
      split at h
      · next hprefix =>
        have hlen : arg.length ≤ flag.length := by omega
        rwa [List.take_of_length_le hlen] at hprefix
      · cases h
    · intro h
      have hlen : arg.length = flag.length := by simpa using congrArg List.length h
      rw [List.take_of_length_le hlen.le, if_pos h, hlen, Nat.sub_self]
      rfl

/-- The server's name is taken out, and what is for the ORB is left. -/
theorem load_properties_sets_name : ∃ cmdLineEx m₁,
    Host.bareHost.getProperty 9 [] extensionArgs false = some (cmdLineEx, m₁) ∧
    [['p'], "-ORBid".toList, ['y']] = left (propertyOptions false false) none (Host.bareHost.added false
      (addEach Host.bareHost false
        (extended Host.bareHost [['p'], "-tafservername".toList, ['x'], "-ORBid".toList, ['y']] cmdLineEx))) := by
  have h : loadProperties Host.bareHost exact (propertyOptions false false) 9 [] []
      [['p'], "-tafservername".toList, ['x'], "-ORBid".toList, ['y']] =
        some ([['p'], "-ORBid".toList, ['y']], [("TAFServerName".toList, ['x'])], [("TAFServerName".toList, ['x'])]) := by
    decide +kernel
  obtain ⟨cmdLineEx, m₁, hget, hleft, -⟩ := (load_properties_sets Host.bareHost exact false false [] [] _).2 9 _ _ _
    (fun k hk => absurd rfl hk) h
  exact ⟨cmdLineEx, m₁, hget, hleft⟩

end Lasagne.Taf.PropertyLoader
